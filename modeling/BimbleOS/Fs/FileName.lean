import BimbleOS.Fs.Directory
import BimbleOS.Fs.PathParts

/-!
# `Fs.FileName` — the name of an entry in its buffer

`fat16_get_full_relative_filename` forms the name of a directory entry in a buffer of the search, byte by byte. The two
fields it reads have no zero at their end when they are full, so the loop counts as well. Here the loop is modelled
with its reads and its stores: a read outside the field and a store outside the buffer are `none`.

`fat16GetFullRelativeFilenameAt_run` says that neither happens and what the buffer holds then, and
`fat16GetFullRelativeFilenameAt_matches` when a part of a path is that name.
-/

namespace BimbleOS

open CWord

/-- `**out = c`, where `*out` is at byte `o` of the buffer. -/
def putByte (out : List (BitVec 8)) (o : Nat) (c : BitVec 8) : Option (List (BitVec 8)) :=
  if o < out.length then some (out.set o c) else none

/-- The loop of `fat16_to_proper_string`, with `in` at byte `i` of `field`, and `*out` at byte `o` of the buffer `out`;
    `size` bounds the rounds. -/
def fat16ToProperStringLoop (field : List (BitVec 8)) (size : Nat) :
    Nat → Nat → List (BitVec 8) → Nat → Option (List (BitVec 8) × Nat)
  | 0, _, _, _ => none
  | fuel + 1, i, out, o =>
      field[i]?.bind fun c =>
        if c = 0x00 ∨ c = 0x20 then some (out, o)
        -- a stored byte moves `*out` and `in`
        else (putByte out o c).bind fun out =>
          if u32 ((size : Int) - 1) ≤ i then some (out, o + 1)
          else fat16ToProperStringLoop field size fuel (i + 1) out (o + 1)

/-- `fat16_to_proper_string`: the buffer, and where `*out` is. -/
def fat16ToProperStringAt (out : List (BitVec 8)) (o : Nat) (field : List (BitVec 8)) (size : Nat) :
    Option (List (BitVec 8) × Nat) :=
  (fat16ToProperStringLoop field size size 0 out o).bind fun r =>
    (putByte r.1 r.2 0x00).map fun out => (out, r.2)

/-- `memset`. -/
def memset (out : List (BitVec 8)) (c : BitVec 8) (count : Nat) : Option (List (BitVec 8)) :=
  if count ≤ out.length then some (List.replicate count c ++ out.drop count) else none

/-- `fat16_get_full_relative_filename`. -/
def fat16GetFullRelativeFilenameAt (item : FatDirectoryItem) (out : List (BitVec 8)) (maxLen : Nat) :
    Option (List (BitVec 8)) :=
  (memset out 0x00 maxLen).bind fun out =>
    (fat16ToProperStringAt out 0 item.filename 8).bind fun r =>
      item.ext[0]?.bind fun c =>
        if c ≠ 0x00 ∧ c ≠ 0x20 then
          -- the dot takes the place of the zero behind the name
          (putByte r.1 r.2 0x2e).bind fun out =>
            (fat16ToProperStringAt out (r.2 + 1) item.ext 3).map fun r => r.1
        else some r.1

/-! ## A text with zeros behind it -/

/-- A buffer of `n` bytes that holds a text, and zeros behind it. -/
def zeroed (text : List (BitVec 8)) (n : Nat) : List (BitVec 8) := text ++ List.replicate (n - text.length) 0

section Zeroed

variable {text s s' : List (BitVec 8)} {n j : Nat} {c : BitVec 8}

theorem length_zeroed (h : text.length ≤ n) : (zeroed text n).length = n := by
  unfold zeroed
  rw [List.length_append, List.length_replicate]
  omega

/-- A byte is stored behind the text. -/
theorem putByte_zeroed (h : text.length < n) (c : BitVec 8) :
    putByte (zeroed text n) text.length c = some (zeroed (text ++ [c]) n) := by
  unfold putByte
  rw [length_zeroed (Nat.le_of_lt h), if_pos h]
  have hroom : n - text.length = (n - (text ++ [c]).length) + 1 := by
    rw [List.length_append, List.length_singleton]
    omega
  unfold zeroed
  rw [hroom, List.replicate_succ, List.set_append_right text.length c (Nat.le_refl _), Nat.sub_self,
    List.set_cons_zero, List.append_assoc]
  rfl

/-- A zero there changes nothing. -/
theorem putByte_zeroed_end (h : text.length < n) : putByte (zeroed text n) text.length 0x00 = some (zeroed text n) := by
  rw [putByte_zeroed h]
  have hroom : n - text.length = (n - (text ++ [0x00]).length) + 1 := by
    rw [List.length_append, List.length_singleton]
    omega
  unfold zeroed
  rw [hroom, List.replicate_succ, List.append_assoc]
  rfl

/-- The zeros are the end of the string. -/
theorem cText_zeroed (h : ∀ c ∈ text, c ≠ 0) : cText (zeroed text n) = text := by
  have hzeros : (List.replicate (n - text.length) (0 : BitVec 8)).takeWhile (· ≠ 0) = [] := by
    cases n - text.length with
    | zero => rfl
    | succ m => rfl
  unfold cText zeroed
  rw [List.takeWhile_append_of_pos fun c hc => decide_eq_true (h c hc), hzeros, List.append_nil]

/-- A comparison does not see them. -/
theorem istrncmp_zeros (m : Nat) : istrncmp m (s ++ List.replicate j 0) s' = istrncmp m s s' := by
  induction m generalizing s s' with
  | zero => rfl
  | succ m ih =>
      cases s with
      | nil =>
          -- the name has ended: the other one is compared with a zero or with nothing
          cases j with
          | zero => rfl
          | succ j =>
              unfold istrncmp
              rfl
      | cons c s =>
          rw [List.cons_append, istrncmp, istrncmp]
          show (if _ then _ else if _ then _ else istrncmp m (s ++ List.replicate j 0) s'.tail) = _
          rw [ih]
          rfl

end Zeroed

/-! ## The name in the buffer -/

section Copy

variable {field text : List (BitVec 8)} {size fuel i n : Nat} {c : BitVec 8}

/-- The text of a field goes on behind a character that does not end it. -/
theorem fat16ToProperString_cons (hkeep : ¬ (c = 0x00 ∨ c = 0x20)) (rest : List (BitVec 8)) :
    fat16ToProperString (c :: rest) = c :: fat16ToProperString rest := by
  have hc : decide (c ≠ 0x00 ∧ c ≠ 0x20) = true := decide_eq_true (not_or.mp hkeep)
  unfold fat16ToProperString
  rw [List.takeWhile_cons, hc]
  rfl

theorem fat16ToProperString_stop (hstop : c = 0x00 ∨ c = 0x20) (rest : List (BitVec 8)) :
    fat16ToProperString (c :: rest) = [] := by
  unfold fat16ToProperString
  rcases hstop with rfl | rfl
  · rfl
  · rfl

/-- The loop stays in the field and in the buffer, and copies the text of what is left of the field. The induction
    follows it: as many rounds are left as bytes of the field. -/
theorem fat16ToProperStringLoop_run (hsize : size < 4294967296) (hfield : field.length = size) (hleft : i + fuel = size)
    (hfuel : 0 < fuel) (hroom : text.length + fuel ≤ n) :
    fat16ToProperStringLoop field size fuel i (zeroed text n) text.length
      = some (zeroed (text ++ fat16ToProperString (field.drop i)) n,
          (text ++ fat16ToProperString (field.drop i)).length) := by
  induction fuel generalizing i text with
  | zero => exact absurd hfuel (Nat.lt_irrefl 0)
  | succ fuel ih =>
      have hi : i < field.length := by omega
      rw [fat16ToProperStringLoop, List.getElem?_eq_getElem hi, Option.bind_some, List.drop_eq_getElem_cons hi]
      by_cases hstop : field[i] = 0x00 ∨ field[i] = 0x20
      · rw [if_pos hstop, fat16ToProperString_stop hstop, List.append_nil]
      · rw [if_neg hstop, putByte_zeroed (by omega), Option.bind_some, fat16ToProperString_cons hstop]
        -- the bound is computed in an unsigned `int`, and the field is not empty
        have hbound : u32 ((size : Int) - 1) = size - 1 := by
          unfold u32
          omega
        have happend : text ++ field[i] :: fat16ToProperString (field.drop (i + 1))
            = (text ++ [field[i]]) ++ fat16ToProperString (field.drop (i + 1)) := by
          rw [List.append_assoc]
          rfl
        have hlen : (text ++ [field[i]]).length = text.length + 1 := List.length_append
        rw [hbound, happend, ← hlen]
        by_cases hlast : size - 1 ≤ i
        · -- the field is full: there is no byte behind this one to look at
          have hend : field.drop (i + 1) = [] := List.drop_eq_nil_iff.mpr (by omega)
          rw [if_pos hlast, hend]
          show _ = some (zeroed ((text ++ [field[i]]) ++ []) n, ((text ++ [field[i]]) ++ []).length)
          rw [List.append_nil]
        · rw [if_neg hlast]
          exact ih (by omega) (by omega) (by omega)

/-- A field is copied into a buffer that has room for it and for a zero. -/
theorem fat16ToProperStringAt_run (hsize : size < 4294967296) (hfield : field.length = size) (hpos : 0 < size)
    (hroom : text.length + size < n) : fat16ToProperStringAt (zeroed text n) text.length field size
      = some (zeroed (text ++ fat16ToProperString field) n, (text ++ fat16ToProperString field).length) := by
  -- the zero behind the text is in the buffer too
  have hshort : (text ++ fat16ToProperString field).length < n := by
    have hle : (fat16ToProperString field).length ≤ field.length := (List.takeWhile_sublist _).length_le
    rw [List.length_append]
    omega
  have hloop := @fat16ToProperStringLoop_run field text size size 0 n hsize hfield (Nat.zero_add size) hpos
    (Nat.le_of_lt hroom)
  rw [List.drop_zero] at hloop
  unfold fat16ToProperStringAt
  rw [hloop, Option.bind_some, putByte_zeroed_end hshort]
  rfl

end Copy

/-- **The name of an entry**, formed in any buffer that is long enough, with zeros behind it. Only the two fields are
    read, and nothing is stored outside the buffer. -/
theorem fat16GetFullRelativeFilenameAt_run {item : FatDirectoryItem} {out : List (BitVec 8)}
    (hname : item.filename.length = 8) (hext : item.ext.length = 3) (hroom : 12 < out.length) :
    fat16GetFullRelativeFilenameAt item out out.length
      = some (zeroed (fat16GetFullRelativeFilename item) out.length) := by
  have hset : memset out 0x00 out.length = some (zeroed [] out.length) := by
    unfold memset zeroed
    rw [if_pos (Nat.le_refl _), List.drop_length, List.append_nil]
    rfl
  have hcopy := @fat16ToProperStringAt_run item.filename [] 8 out.length (by decide) hname (by decide)
    (by rw [List.length_nil]; omega)
  have hlen : (fat16ToProperString item.filename).length ≤ 8 :=
    Nat.le_trans (List.takeWhile_sublist _).length_le (Nat.le_of_eq hname)
  unfold fat16GetFullRelativeFilenameAt fat16GetFullRelativeFilename
  rw [List.length_nil, List.nil_append] at hcopy
  rw [hset, Option.bind_some, hcopy, Option.bind_some]
  obtain ⟨c, rest, hitem⟩ := List.exists_cons_of_length_pos (l := item.ext) (by omega)
  have hhead : item.ext.headD 0 = c := by rw [hitem]; rfl
  have hfirst : item.ext[0]? = some c := by rw [hitem]; rfl
  rw [hfirst, hhead, Option.bind_some]
  -- an extension that starts with a blank is none
  by_cases hdot : c ≠ 0x00 ∧ c ≠ 0x20
  · have hput := @putByte_zeroed (fat16ToProperString item.filename) out.length (by omega) 0x2e
    have hmore := @fat16ToProperStringAt_run item.ext (fat16ToProperString item.filename ++ [0x2e]) 3 out.length
      (by decide) hext (by decide) (by rw [List.length_append, List.length_singleton]; omega)
    rw [List.length_append, List.length_singleton, List.append_assoc] at hmore
    rw [if_pos hdot, if_pos hdot, hput, Option.bind_some, hmore]
    rfl
  · rw [if_neg hdot, if_neg hdot]

/-! ## The comparison -/

section Compare

variable {k k' : Kernel} {path : List (BitVec 8)} {root : PathRoot} {part : PathPart} {tmp : List (BitVec 8)}

/-- The names of a path can be printed again. The induction follows the parser. -/
theorem splitNames_ok {fuel : Nat} {name : List (BitVec 8)} (h : name ∈ splitNames fuel path) : ComponentOk name := by
  induction fuel generalizing path with
  | zero => exact absurd h List.not_mem_nil
  | succ fuel ih =>
      rw [splitNames_succ] at h
      by_cases hempty : firstName path = []
      · rw [if_pos hempty] at h
        exact absurd h List.not_mem_nil
      · rw [if_neg hempty] at h
        rcases List.mem_cons.mp h with rfl | hrest
        · exact ⟨hempty, fun c hc => mem_firstName hc⟩
        · exact ih hrest

/-- The parts of a path that was parsed are such names. -/
theorem pathparserParse_ok (hrun : pathparserParse path k = .ok (some root, k')) (hpart : part ∈ root.first) :
    ComponentOk part.part := by
  have hmem : part.part ∈ pathNames root.first := List.mem_map_of_mem hpart
  rw [pathparserParse_run hrun] at hmem
  exact splitNames_ok hmem

/-- **The search compares names.** Whatever the bytes of an entry and of the buffer are, the name is formed inside the
    buffer and has a zero behind it, and it matches a part of a path if and only if the two are equal up to case. -/
theorem fat16GetFullRelativeFilenameAt_matches (hrun : pathparserParse path k = .ok (some root, k'))
    (hpart : part ∈ root.first) (bytes : List (BitVec 8)) (i : Nat) (htmp : tmp.length = bimbleosMaxPath) :
    ∃ out, fat16GetFullRelativeFilenameAt (.ofBytes bytes i) tmp bimbleosMaxPath = some out ∧
      out.length = bimbleosMaxPath ∧ (cText out).length < bimbleosMaxPath ∧
      cText out = fat16GetFullRelativeFilename (.ofBytes bytes i) ∧
      sameName (.ofBytes bytes i) part.part = decide (istrncmp bimbleosMaxPath out part.part = 0) ∧
      (istrncmp bimbleosMaxPath out part.part = 0 ↔
        part.part.map tolower = (fat16GetFullRelativeFilename (.ofBytes bytes i)).map tolower) := by
  have hname : (FatDirectoryItem.ofBytes bytes i).filename.length = 8 := by simp [FatDirectoryItem.ofBytes]
  have hext : (FatDirectoryItem.ofBytes bytes i).ext.length = 3 := by simp [FatDirectoryItem.ofBytes]
  obtain ⟨hshort, hzero⟩ := fat16GetFullRelativeFilename_short (Nat.le_of_eq hname) (Nat.le_of_eq hext)
  have hout := @fat16GetFullRelativeFilenameAt_run (.ofBytes bytes i) tmp hname hext (by rw [htmp]; decide)
  rw [htmp] at hout
  have htext : cText (zeroed (fat16GetFullRelativeFilename (.ofBytes bytes i)) bimbleosMaxPath)
      = fat16GetFullRelativeFilename (.ofBytes bytes i) := cText_zeroed hzero
  have hcompare : istrncmp bimbleosMaxPath
      (zeroed (fat16GetFullRelativeFilename (.ofBytes bytes i)) bimbleosMaxPath) part.part
      = istrncmp bimbleosMaxPath (fat16GetFullRelativeFilename (.ofBytes bytes i)) part.part :=
    istrncmp_zeros bimbleosMaxPath
  refine ⟨_, hout, length_zeroed (Nat.le_of_lt hshort), ?_, htext, ?_, ?_⟩
  · rw [htext]
    exact hshort
  · rw [hcompare]
    rfl
  · -- a part of a path has no zero in it, so the whole of it is compared
    have hplain : part.part.takeWhile (· ≠ 0) = part.part := by
      refine List.takeWhile_eq_self_iff.mpr fun c hc => decide_eq_true ?_
      rintro rfl
      exact (pathparserParse_ok hrun hpart).plain 0 hc (Or.inr rfl)
    rw [hcompare, istrncmp_eq_zero hzero hshort, hplain, eq_comm]

end Compare

/-- The part of `0:/a.b` matches the entry `A       B  `. -/
theorem fat16GetFullRelativeFilenameAt_matches_boot :
    ∃ root k' part out, pathparserParse [0x30, 0x3a, 0x2f, 0x61, 0x2e, 0x62] bootKernel = .ok (some root, k') ∧
      part ∈ root.first ∧ fat16GetFullRelativeFilenameAt
        (.ofBytes [0x41, 0x20, 0x20, 0x20, 0x20, 0x20, 0x20, 0x20, 0x42, 0x20, 0x20] 0)
        (List.replicate 108 0xff) bimbleosMaxPath = some out ∧ istrncmp bimbleosMaxPath out part.part = 0 := by
  obtain ⟨root, k', hrun⟩ :=
    @pathparserParse_boot [0x30, 0x3a, 0x2f, 0x61, 0x2e, 0x62] (by decide) (by decide) (by decide)
  have hnames := pathparserParse_run hrun
  have hfile : fileNames [0x30, 0x3a, 0x2f, 0x61, 0x2e, 0x62] = [[0x61, 0x2e, 0x62]] := by decide
  obtain ⟨part, rest, hfirst, hpart, _⟩ := List.map_eq_cons_iff.mp (hnames.trans hfile)
  have hmem : part ∈ root.first := hfirst ▸ List.mem_cons_self
  obtain ⟨out, hout, _, _, _, _, hiff⟩ := fat16GetFullRelativeFilenameAt_matches hrun hmem
    [0x41, 0x20, 0x20, 0x20, 0x20, 0x20, 0x20, 0x20, 0x42, 0x20, 0x20] 0
    (List.length_replicate (n := 108) (a := (0xff : BitVec 8)))
  refine ⟨root, k', part, out, hrun, hmem, hout, hiff.mpr ?_⟩
  rw [hpart]
  decide

end BimbleOS
