import BimbleOS.Lib.Writes
import BimbleOS.Lib.Word
import Mathlib.Data.List.GetD

/-!
# `Stdlib.Realine` — reading a line in `programs/stdlib/src/bimbleos.c`

`bimbleos_terminal_realine` stores every key in the line, a backspace too; a backspace behind another character then
steps back over both. On the empty line there is nothing to step back over, and the backspace stays in the line as a
character, until another backspace on the line that looks empty takes it away. So the line is the edited one exactly
when the backspaces on the empty line come in pairs, and the line does not fill up in between
(`bimbleosTerminalRealine_iff`).
-/

namespace BimbleOS.Stdlib

open Bytes CWord

def backspaceKey : BitVec 8 := 0x08
def returnKey : BitVec 8 := 0x0D

/-- What reading a line works on: memory, what `bimbleos_getkey` will answer, 0 if there is no key, and the characters
    that were echoed. -/
structure LineInput where
  out : Writes
  polls : List (BitVec 8)
  put : List (BitVec 8) := []

/-- `bimbleos_getkeyblock`: the key, and the answers behind it; `none` while it waits. -/
def bimbleosGetkeyblock : List (BitVec 8) → Option (BitVec 8 × List (BitVec 8))
  | [] => none
  | val :: polls => if val = 0 then bimbleosGetkeyblock polls else some (val, polls)

/-- The loop of `bimbleos_terminal_realine` from index `i` on, a `size_t`. -/
def realineLoop (out max : Nat) (echo : Bool) : Nat → Nat → LineInput → Option (Nat × LineInput)
  | 0, _, _ => none
  | fuel + 1, i, input =>
      if u32 (max - 1) ≤ i then some (i, input)
      else
        (bimbleosGetkeyblock input.polls).bind fun (key, polls) =>
          if key = returnKey then some (i, { input with polls := polls })
          else
            let input : LineInput := {
              out := input.out.store (out + i) key
              polls := polls
              put := if echo then input.put ++ [key] else input.put }
            if key = backspaceKey ∧ 1 ≤ i then
              -- `i -= 2`, which may go below 0, and the `i++` of the loop
              realineLoop out max echo fuel (u32 (u32 (i - 2) + 1))
                { input with out := input.out.store (out + (i - 1)) 0 }
            else realineLoop out max echo fuel (u32 (i + 1)) input

/-- `bimbleos_terminal_realine`; every round takes a key at least. -/
def bimbleosTerminalRealine (out max : Nat) (echo : Bool) (input : LineInput) : Option LineInput :=
  (realineLoop out max echo (input.polls.length + 1) 0 input).map fun (i, input) =>
    { input with out := input.out.store (out + i) 0 }

/-! ## Lines -/

/-- A line that is made from keys, up to the carriage return or until it is full; `none` if the keys end before. -/
def lineRun (step : List (BitVec 8) → BitVec 8 → List (BitVec 8)) (size : Nat) :
    List (BitVec 8) → List (BitVec 8) → Option (List (BitVec 8))
  | line, [] => if size ≤ line.length then some line else none
  | line, key :: keys =>
      if size ≤ line.length then some line
      else if key = returnKey then some line
      else lineRun step size (step line key) keys

/-- Editing: a backspace removes the last character, if there is one. -/
def editKey (line : List (BitVec 8)) (key : BitVec 8) : List (BitVec 8) :=
  if key = backspaceKey then line.dropLast else line ++ [key]

/-- What the loop does to the line: on the empty line a backspace is a character. -/
def typeKey (line : List (BitVec 8)) (key : BitVec 8) : List (BitVec 8) :=
  if key = backspaceKey ∧ line ≠ [] then line.dropLast else line ++ [key]

/-- The keys among the answers. -/
def keysOf (polls : List (BitVec 8)) : List (BitVec 8) := polls.filter fun val => val ≠ 0

/-- The backspaces on the empty line come in pairs before the line ends. `n` is the length of the edited line; `odd`
    says that a backspace waits for its partner, and takes the room of a character. -/
def PairsUp (size : Nat) : Bool → Nat → List (BitVec 8) → Prop
  | odd, n, [] => size ≤ n + odd.toNat → odd = false
  | odd, n, key :: keys =>
      if size ≤ n + odd.toNat ∨ key = returnKey then odd = false
      else if key ≠ backspaceKey then PairsUp size odd (n + 1) keys
      else if n = 0 then PairsUp size (!odd) 0 keys
      else PairsUp size odd (n - 1) keys

/-- Where a call has written. -/
def WritesInside (out max : Nat) (input input' : LineInput) : Prop :=
  ∀ a ∈ input'.out.written, a ∈ input.out.written ∨ (out ≤ a ∧ a < out + max)

/-- A call returns once the edited line is complete, and what it leaves is that line, with no backspace in it. -/
structure LeavesEdited (out max : Nat) (echo : Bool) (input : LineInput) : Prop where
  returns : ∀ line, lineRun editKey (max - 1) [] (keysOf input.polls) = some line →
    (bimbleosTerminalRealine out max echo input).isSome
  edited : ∀ input', bimbleosTerminalRealine out max echo input = some input' →
    ∃ line, lineRun editKey (max - 1) [] (keysOf input.polls) = some line ∧ HoldsString input'.out.memory out line ∧
      backspaceKey ∉ line ∧ WritesInside out max input input'

/-! ## The line of the loop and the edited line -/

section Lines

variable {size n : Nat} {odd : Bool} {line keys : List (BitVec 8)} {edited : Option (List (BitVec 8))}
  {key : BitVec 8}

/-- What a backspace that waits for its partner puts in front of the line. -/
def stray (odd : Bool) : List (BitVec 8) := if odd then [backspaceKey] else []

theorem lineRun_full {step : List (BitVec 8) → BitVec 8 → List (BitVec 8)} (h : size ≤ line.length) :
    lineRun step size line keys = some line := by
  cases keys with
  | nil => exact if_pos h
  | cons key keys => exact if_pos h

theorem lineRun_key {step : List (BitVec 8) → BitVec 8 → List (BitVec 8)} (h : ¬ size ≤ line.length)
    (hkey : key ≠ returnKey) : lineRun step size line (key :: keys) = lineRun step size (step line key) keys := by
  rw [lineRun, if_neg h, if_neg hkey]

/-- One key, typed behind a stray backspace. -/
theorem typeKey_stray : typeKey (stray odd ++ line) key
    = stray (if key = backspaceKey ∧ line = [] then !odd else odd) ++ editKey line key := by
  unfold typeKey editKey
  by_cases hback : key = backspaceKey
  · subst hback
    rcases line with _ | ⟨c, line⟩
    · cases odd <;> simp [stray]
    · cases odd <;> simp [stray]
  · simp [hback, List.append_assoc]

theorem length_stray : (stray odd ++ line).length = line.length + odd.toNat := by
  cases odd
  · rfl
  · rfl

theorem length_editKey :
    (editKey line key).length = if key = backspaceKey then line.length - 1 else line.length + 1 := by
  unfold editKey
  split
  · exact List.length_dropLast
  · exact List.length_append

theorem backspaceKey_notMem_editKey (hline : backspaceKey ∉ line) : backspaceKey ∉ editKey line key := by
  unfold editKey
  split
  · exact fun h => hline (List.dropLast_subset line h)
  · rename_i hkey
    intro h
    rcases List.mem_append.mp h with h | h
    · exact hline h
    · exact hkey (List.mem_singleton.mp h).symm

/-- One key that does not end the line. -/
theorem pairsUp_key (hroom : ¬ size ≤ line.length + odd.toNat) (hkey : key ≠ returnKey) :
    PairsUp size odd line.length (key :: keys)
      ↔ PairsUp size (if key = backspaceKey ∧ line = [] then !odd else odd) (editKey line key).length keys := by
  rw [PairsUp, if_neg (not_or.mpr ⟨hroom, hkey⟩), length_editKey]
  by_cases hback : key = backspaceKey
  · rw [if_neg (not_not.mpr hback), if_pos hback]
    by_cases hempty : line = []
    · rw [if_pos (List.length_eq_zero_iff.mpr hempty), if_pos ⟨hback, hempty⟩, hempty]
      rfl
    · rw [if_neg (fun h => hempty (List.length_eq_zero_iff.mp h)), if_neg (fun h => hempty h.2)]
  · rw [if_pos hback, if_neg hback, if_neg (fun h => hback h.1)]

/-- Where the line ends, it is the edited one unless it has a stray backspace. -/
theorem ends_edited (hline : backspaceKey ∉ line) (hends : odd = false → edited = some line) :
    (∀ typed, some (stray odd ++ line) = some typed → edited = some typed ∧ backspaceKey ∉ typed) ↔ odd = false := by
  constructor
  · intro h
    cases odd
    · rfl
    · exact absurd List.mem_cons_self (h _ rfl).2
  · rintro rfl typed htyped
    obtain rfl : line = typed := Option.some.inj htyped
    exact ⟨hends rfl, hline⟩

/-- The line that is typed is the edited one, perhaps behind a backspace. The induction is on the keys. -/
theorem lineRun_typeKey_iff (hline : backspaceKey ∉ line) :
    (∀ typed, lineRun typeKey size (stray odd ++ line) keys = some typed →
        lineRun editKey size line keys = some typed ∧ backspaceKey ∉ typed) ↔
      PairsUp size odd line.length keys := by
  have hfull (hsize : size ≤ line.length + odd.toNat) :
      odd = false → lineRun editKey size line keys = some line := by
    rintro rfl
    exact lineRun_full hsize
  induction keys generalizing odd line with
  | nil =>
      rw [PairsUp, lineRun, length_stray]
      by_cases hsize : size ≤ line.length + odd.toNat
      · rw [if_pos hsize, ends_edited hline (hfull hsize)]
        exact ⟨fun h _ => h, fun h => h hsize⟩
      · rw [if_neg hsize]
        exact ⟨fun _ h => absurd h hsize, fun _ typed h => nomatch h⟩
  | cons key keys ih =>
      by_cases hsize : size ≤ line.length + odd.toNat
      · rw [PairsUp, if_pos (Or.inl hsize), lineRun_full (by rwa [length_stray])]
        exact ends_edited hline (hfull hsize)
      by_cases hkey : key = returnKey
      · rw [PairsUp, if_pos (Or.inr hkey), lineRun, length_stray, if_neg hsize, if_pos hkey]
        refine ends_edited hline fun hodd => ?_
        rw [lineRun, if_pos hkey, ite_self]
      · rw [pairsUp_key hsize hkey, lineRun_key (by rwa [length_stray]) hkey,
          lineRun_key (fun h => hsize (Nat.le_add_right_of_le h)) hkey, typeKey_stray]
        apply ih
        · exact backspaceKey_notMem_editKey hline
        · intro hsize' hodd
          rw [hodd] at hsize'
          exact lineRun_full hsize'

/-- A complete edited line is a complete typed one, which is longer if anything. -/
theorem lineRun_typeKey_isSome (h : (lineRun editKey size line keys).isSome) :
    (lineRun typeKey size (stray odd ++ line) keys).isSome := by
  induction keys generalizing odd line with
  | nil =>
      have hsize : size ≤ line.length := by
        by_contra hsize
        rw [lineRun, if_neg hsize] at h
        exact absurd h (by decide)
      rw [lineRun_full (by rw [length_stray]; omega)]
      rfl
  | cons key keys ih =>
      by_cases hsize : size ≤ line.length + odd.toNat
      · rw [lineRun_full (by rwa [length_stray])]
        rfl
      by_cases hkey : key = returnKey
      · rw [lineRun, if_pos hkey, ite_self]
        rfl
      · rw [lineRun_key (fun hlong => hsize (Nat.le_add_right_of_le hlong)) hkey] at h
        rw [lineRun_key (by rwa [length_stray]) hkey, typeKey_stray]
        exact ih h

end Lines

/-! ## The loop -/

section Loop

variable {out max size fuel : Nat} {echo : Bool} {line typed polls : List (BitVec 8)} {key : BitVec 8}
  {input input' : LineInput}

/-- The line so far is in `out`. -/
structure InLine (out size : Nat) (line : List (BitVec 8)) (input : LineInput) : Prop where
  short : line.length ≤ size
  nonzero : ∀ c ∈ line, c ≠ 0
  bytes : ∀ j, j < line.length → input.out.memory (out + j) = line.getD j 0

theorem getkeyblock_none (h : bimbleosGetkeyblock polls = none) : keysOf polls = [] := by
  induction polls with
  | nil => rfl
  | cons val polls ih =>
      rw [bimbleosGetkeyblock] at h
      by_cases hval : val = 0
      · rw [if_pos hval] at h
        rw [keysOf, List.filter_cons_of_neg (by simpa using hval)]
        exact ih h
      · rw [if_neg hval] at h
        cases h

theorem getkeyblock_some {rest : List (BitVec 8)} (h : bimbleosGetkeyblock polls = some (key, rest)) :
    keysOf polls = key :: keysOf rest ∧ key ≠ 0 ∧ rest.length < polls.length := by
  induction polls with
  | nil => cases h
  | cons val polls ih =>
      rw [bimbleosGetkeyblock] at h
      by_cases hval : val = 0
      · rw [if_pos hval] at h
        obtain ⟨hkeys, hkey, hlen⟩ := ih h
        rw [keysOf, List.filter_cons_of_neg (by simpa using hval)]
        exact ⟨hkeys, hkey, Nat.lt_succ_of_lt hlen⟩
      · rw [if_neg hval] at h
        cases h
        rw [keysOf, List.filter_cons_of_pos (by simpa using hval)]
        exact ⟨rfl, hval, Nat.lt_succ_self _⟩

/-- A key behind the line. -/
theorem InLine.push (h : InLine out size line input) (hroom : line.length < size) (hkey : key ≠ 0)
    (hmemory : input'.out.memory = Function.update input.out.memory (out + line.length) key) :
    InLine out size (line ++ [key]) input' where
  short := by
    rw [List.length_append]
    exact hroom
  nonzero := by
    intro c hc
    rcases List.mem_append.mp hc with hc | hc
    · exact h.nonzero c hc
    · exact List.mem_singleton.mp hc ▸ hkey
  bytes := by
    intro j hj
    rw [List.length_append, List.length_singleton] at hj
    rw [hmemory]
    by_cases hlast : j = line.length
    · subst hlast
      rw [Function.update_self, List.getD_append_right _ _ _ _ (Nat.le_refl _), Nat.sub_self]
      rfl
    · rw [Function.update_of_ne (by omega), List.getD_append _ _ _ _ (by omega)]
      exact h.bytes j (by omega)

/-- The last character goes; it may have been overwritten, and what is behind it. -/
theorem InLine.pop (h : InLine out size line input)
    (hmemory : ∀ a, a < out + (line.length - 1) → input'.out.memory a = input.out.memory a) :
    InLine out size line.dropLast input' where
  short := by
    rw [List.length_dropLast]
    exact Nat.le_trans (Nat.sub_le _ 1) h.short
  nonzero := fun c hc => h.nonzero c (List.dropLast_subset line hc)
  bytes := by
    intro j hj
    rw [List.length_dropLast] at hj
    rw [hmemory _ (by omega), h.bytes j (by omega), List.getD_eq_getElem _ _ (by omega),
      List.getD_eq_getElem _ _ (by rwa [List.length_dropLast]), List.getElem_dropLast]

theorem WritesInside.trans {input'' : LineInput} (h : WritesInside out max input input')
    (h' : WritesInside out max input' input'') : WritesInside out max input input'' := by
  intro a ha
  rcases h' a ha with ha | ha
  · exact h a ha
  · exact Or.inr ha

/-- One round that takes a key. -/
theorem realineLoop_round (hmax : size + 1 = max) (hword : max < 4294967296) (h : InLine out size line input)
    (hroom : line.length < size) (hkey : bimbleosGetkeyblock input.polls = some (key, polls)) (hne : key ≠ 0)
    (hreturn : key ≠ returnKey) :
    ∃ input', realineLoop out max echo (fuel + 1) line.length input
        = realineLoop out max echo fuel (typeKey line key).length input' ∧
      InLine out size (typeKey line key) input' ∧ input'.polls = polls ∧ WritesInside out max input input' := by
  have hsize : u32 ((max : Int) - 1) = size := by
    unfold u32
    omega
  rw [realineLoop, hsize, if_neg (by omega), hkey, Option.bind_some]
  dsimp only
  rw [if_neg hreturn]
  by_cases hback : key = backspaceKey ∧ 1 ≤ line.length
  · -- back over the backspace and the character in front of it
    have htype : typeKey line key = line.dropLast := if_pos ⟨hback.1, List.ne_nil_of_length_pos hback.2⟩
    have hindex : u32 ((u32 ((line.length : Int) - 2) : Int) + 1) = line.length - 1 := by
      unfold u32
      omega
    rw [if_pos hback, hindex, htype, List.length_dropLast]
    refine ⟨_, rfl, ?_, rfl, ?_⟩
    · apply h.pop
      intro a ha
      show Function.update (Function.update input.out.memory _ _) _ _ a = _
      rw [Function.update_of_ne (by omega), Function.update_of_ne (by omega)]
    · intro a ha
      rcases List.mem_append.mp ha with ha | ha
      · rcases List.mem_append.mp ha with ha | ha
        · exact Or.inl ha
        · rw [List.mem_singleton] at ha
          omega
      · rw [List.mem_singleton] at ha
        omega
  · have hindex : u32 ((line.length : Int) + 1) = line.length + 1 := by
      unfold u32
      omega
    have htype : typeKey line key = line ++ [key] :=
      if_neg fun h => hback ⟨h.1, List.length_pos_of_ne_nil h.2⟩
    rw [if_neg hback, hindex, htype, List.length_append, List.length_singleton]
    refine ⟨_, rfl, h.push hroom hne rfl, rfl, ?_⟩
    intro a ha
    rcases List.mem_append.mp ha with ha | ha
    · exact Or.inl ha
    · rw [List.mem_singleton] at ha
      omega

/-- The loop runs until the typed line is complete. The induction is on the fuel. -/
theorem realineLoop_run (hmax : size + 1 = max) (hword : max < 4294967296) (h : InLine out size line input)
    (hfuel : input.polls.length < fuel) :
    (lineRun typeKey size line (keysOf input.polls) = none → realineLoop out max echo fuel line.length input = none) ∧
    ∀ typed, lineRun typeKey size line (keysOf input.polls) = some typed →
      ∃ input', realineLoop out max echo fuel line.length input = some (typed.length, input') ∧
        InLine out size typed input' ∧ WritesInside out max input input' := by
  have hsize : u32 ((max : Int) - 1) = size := by
    unfold u32
    omega
  induction fuel generalizing line input with
  | zero => exact absurd hfuel (Nat.not_lt_zero _)
  | succ fuel ih =>
      by_cases hfull : size ≤ line.length
      · rw [lineRun_full hfull]
        refine ⟨(nomatch ·), ?_⟩
        rintro _ ⟨⟩
        refine ⟨input, ?_, h, fun a ha => Or.inl ha⟩
        rw [realineLoop, hsize, if_pos hfull]
      cases hpoll : bimbleosGetkeyblock input.polls with
      | none =>
          rw [getkeyblock_none hpoll, lineRun, if_neg hfull]
          refine ⟨fun _ => ?_, fun typed h => nomatch h⟩
          rw [realineLoop, hsize, if_neg hfull, hpoll]
          rfl
      | some taken =>
          obtain ⟨key, polls⟩ := taken
          obtain ⟨hkeys, hne, hlen⟩ := getkeyblock_some hpoll
          rw [hkeys]
          by_cases hreturn : key = returnKey
          · rw [lineRun, if_neg hfull, if_pos hreturn]
            refine ⟨(nomatch ·), ?_⟩
            rintro _ ⟨⟩
            refine ⟨{ input with polls := polls }, ?_, ⟨h.short, h.nonzero, h.bytes⟩, fun a ha => Or.inl ha⟩
            rw [realineLoop, hsize, if_neg hfull, hpoll, Option.bind_some]
            exact if_pos hreturn
          · rw [lineRun_key hfull hreturn]
            obtain ⟨input', hround, hline, hpolls, hwrites⟩ :=
              @realineLoop_round out max size fuel echo line polls key input hmax hword h (by omega) hpoll hne hreturn
            obtain ⟨hwait, hreturns⟩ := ih hline (by rw [hpolls]; omega)
            rw [hround, ← hpolls]
            refine ⟨hwait, fun typed htyped => ?_⟩
            obtain ⟨end', hrun, hin, hwrites'⟩ := hreturns typed htyped
            exact ⟨end', hrun, hin, hwrites.trans hwrites'⟩

/-- The line is in `out` with its zero. -/
theorem InLine.holds (h : InLine out size line input) :
    HoldsString (input.out.store (out + line.length) 0).memory out line := by
  refine holdsString_iff.mpr ⟨h.nonzero, fun j hj => ?_⟩
  rw [Writes.memory_store]
  by_cases hlast : j = line.length
  · rw [hlast, Function.update_self, List.getD_eq_default _ _ (Nat.le_refl _)]
  · rw [Function.update_of_ne (by omega)]
    exact h.bytes j (by omega)

/-- A call leaves the typed line, and waits if that is not complete. -/
theorem bimbleosTerminalRealine_typed (hmax : 2 ≤ max) (hword : max < 4294967296) :
    (lineRun typeKey (max - 1) [] (keysOf input.polls) = none → bimbleosTerminalRealine out max echo input = none) ∧
    ∀ typed, lineRun typeKey (max - 1) [] (keysOf input.polls) = some typed →
      ∃ input', bimbleosTerminalRealine out max echo input = some input' ∧
        HoldsString input'.out.memory out typed ∧ WritesInside out max input input' := by
  have hstart : InLine out (max - 1) [] input :=
    ⟨Nat.zero_le _, fun c hc => absurd hc List.not_mem_nil, fun j hj => absurd hj (Nat.not_lt_zero j)⟩
  obtain ⟨hwait, hreturns⟩ := @realineLoop_run out max (max - 1) (input.polls.length + 1) echo [] input (by omega)
    hword hstart (Nat.lt_succ_self _)
  unfold bimbleosTerminalRealine
  refine ⟨fun hnone => ?_, fun typed htyped => ?_⟩
  · rw [show realineLoop out max echo (input.polls.length + 1) 0 input = none from hwait hnone]
    rfl
  · obtain ⟨input', hrun, hline, hwrites⟩ := hreturns typed htyped
    rw [show realineLoop out max echo (input.polls.length + 1) 0 input = some (typed.length, input') from hrun]
    refine ⟨_, rfl, hline.holds, fun a ha => ?_⟩
    rcases List.mem_append.mp ha with ha | ha
    · exact hwrites a ha
    · have hshort := hline.short
      rw [List.mem_singleton] at ha
      omega

end Loop

/-! ## Result -/

/-- **A line is read as it is edited** exactly when the backspaces on the empty line come in pairs before it ends. -/
theorem bimbleosTerminalRealine_iff {out max : Nat} {echo : Bool} {input : LineInput} (hmax : 2 ≤ max)
    (hword : max < 4294967296) :
    LeavesEdited out max echo input ↔ PairsUp (max - 1) false 0 (keysOf input.polls) := by
  obtain ⟨hwait, hreturns⟩ := @bimbleosTerminalRealine_typed out max echo input hmax hword
  have hlines := @lineRun_typeKey_iff (max - 1) false [] (keysOf input.polls) List.not_mem_nil
  rw [List.length_nil] at hlines
  rw [← hlines]
  constructor
  · intro h typed htyped
    obtain ⟨input', hrun, hholds, -⟩ := hreturns typed htyped
    obtain ⟨line, hline, hleft, hback, -⟩ := h.edited input' hrun
    obtain rfl : line = typed := hleft.unique hholds
    exact ⟨hline, hback⟩
  · intro h
    refine ⟨fun line hline => ?_, fun input' hrun => ?_⟩
    · have hsome := @lineRun_typeKey_isSome (max - 1) false [] (keysOf input.polls) (by rw [hline]; rfl)
      obtain ⟨typed, htyped⟩ := Option.isSome_iff_exists.mp hsome
      obtain ⟨input', hrun, -⟩ := hreturns typed htyped
      rw [hrun]
      rfl
    · cases htyped : lineRun typeKey (max - 1) [] (keysOf input.polls) with
      | none => rw [hwait htyped] at hrun; cases hrun
      | some typed =>
          obtain ⟨input'', hrun', hholds, hwrites⟩ := hreturns typed htyped
          obtain rfl : input'' = input' := Option.some.inj (hrun'.symm.trans hrun)
          obtain ⟨hline, hback⟩ := h typed htyped
          exact ⟨typed, hline, hholds, hback, hwrites⟩

/-- Keys that will come, over memory that is full of `0xFF`. -/
def lineAt (keys : List (BitVec 8)) : LineInput where
  out := { memory := fun _ => 0xFF }
  polls := keys

/-- A letter and a backspace, a pair of backspaces on the empty line, and a letter. -/
theorem bimbleosTerminalRealine_iff_paired :
    LeavesEdited 0x100 10 true (lineAt [0x61, 0, 0x08, 0x08, 0x08, 0x62, 0x0D])
      ↔ PairsUp 9 false 0 [0x61, 0x08, 0x08, 0x08, 0x62, 0x0D] :=
  bimbleosTerminalRealine_iff (by decide) (by decide)

/-- A backspace on the empty line stays in the line. -/
theorem bimbleosTerminalRealine_stays : ¬ LeavesEdited 0x100 10 true (lineAt [0x08, 0x0D]) := by
  intro h
  obtain ⟨input', hrun⟩ := Option.isSome_iff_exists.mp (h.returns [] rfl)
  obtain ⟨line, hline, hholds, -⟩ := h.edited input' hrun
  obtain rfl : [] = line := Option.some.inj hline
  have hbyte : (bimbleosTerminalRealine 0x100 10 true (lineAt [0x08, 0x0D])).map (fun input => input.out.memory 0x100)
      = some 0x08 := rfl
  rw [hrun] at hbyte
  exact absurd ((Option.some.inj hbyte).symm.trans hholds) (by decide)

end BimbleOS.Stdlib
