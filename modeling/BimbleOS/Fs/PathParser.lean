import BimbleOS.Kernel.State
import Mathlib.Data.List.TakeWhile

/-!
# `Fs.PathParser` — `fs/pparser.c`

A path `0:/dir/file` becomes a root with a list of parts, each in a heap block of its own. The list of
parts stands for the linked list of the source.

`pathparserParse_print` is the round trip: the parts of a printed path come back, as long as the heap has
the blocks for them. A run that ends otherwise followed the null pointer of a failed allocation; no part is
ever written past its buffer.
-/

namespace BimbleOS

/-- `struct PathPart` at `addr`; its `part` points to `buffer`, which holds the name `part`. -/
structure PathPart where
  addr : Nat
  buffer : Nat
  part : List (BitVec 8)
  deriving DecidableEq, Repr

/-- `struct PathRoot` at `addr`; `first` is the list that starts there. -/
structure PathRoot where
  addr : Nat
  driveNo : Int
  first : List PathPart := []

def sizeofPathRoot : Nat := 8
def sizeofPathPart : Nat := 8

/-- `pathparser_path_valid_format`: a digit, a colon and a slash. -/
def pathparserPathValidFormat (filename : List (BitVec 8)) : Bool :=
  3 ≤ strnlen filename bimbleosMaxPath && isDigit (filename.headD 0)
    && (filename.getD 1 0 = 0x3a && filename.getD 2 0 = 0x2f)

/-- `pathparser_get_drive_by_path`: the drive, and the path behind it. -/
def pathparserGetDriveByPath (path : List (BitVec 8)) : Int × List (BitVec 8) :=
  if !pathparserPathValidFormat path then (-EBADPATH, path)
  else (toNumericDigit (path.headD 0), path.drop 3)

/-- `pathparser_create_root`; the new root is written to without a check. -/
def pathparserCreateRoot (driveNumber : Int) : KM PathRoot := do
  let pathR ← kzalloc sizeofPathRoot
  deref pathR
  return { addr := pathR, driveNo := driveNumber }

/-- The loop of `pathparser_get_path_part`, from byte `i` of `result_path_part` on: the characters it
    stores, and the path from where it stops. -/
def pathparserCopyPart (resultPathPart : Nat) : Nat → List (BitVec 8) →
    KM (List (BitVec 8) × List (BitVec 8))
  | _, [] => return ([], [])
  | i, c :: path => do
      if c = 0x2f ∨ c = 0x00 then return ([], c :: path)
      else
        deref resultPathPart
        -- the source has no check here: the byte would be stored behind the buffer
        if bimbleosMaxPath ≤ i then throw .outOfBounds
        else
          let (part, rest) ← pathparserCopyPart resultPathPart (i + 1) path
          return (c :: part, rest)

/-- Skip a slash. -/
def pathparserSkipSlash : List (BitVec 8) → List (BitVec 8)
  | [] => []
  | c :: path => if c = 0x2f then path else c :: path

/-- `pathparser_get_path_part`: the buffer and the name in it, unless it is empty, and the path behind it. -/
def pathparserGetPathPart (path : List (BitVec 8)) :
    KM (Option (Nat × List (BitVec 8)) × List (BitVec 8)) := do
  let resultPathPart ← kzalloc bimbleosMaxPath
  let (part, rest) ← pathparserCopyPart resultPathPart 0 path
  if part = [] then
    kfree resultPathPart
    return (none, pathparserSkipSlash rest)
  else return (some (resultPathPart, part), pathparserSkipSlash rest)

/-- `pathparser_parse_path_part`. -/
def pathparserParsePathPart (path : List (BitVec 8)) : KM (Option PathPart × List (BitVec 8)) := do
  let (pathPartStr, rest) ← pathparserGetPathPart path
  match pathPartStr with
  | none => return (none, rest)
  | some (buffer, str) =>
      let part ← kzalloc sizeofPathPart
      deref part
      return (some { addr := part, buffer := buffer, part := str }, rest)

/-- The parts of a path, one after the other until one is empty; each takes a character at least. -/
def pathparserParseParts : Nat → List (BitVec 8) → KM (List PathPart)
  | 0, _ => return []
  | fuel + 1, path => do
      let (part, rest) ← pathparserParsePathPart path
      match part with
      | none => return []
      | some part =>
          let parts ← pathparserParseParts fuel rest
          return part :: parts

/-- `pathparser_parse`: null for a bad path. -/
def pathparserParse (path : List (BitVec 8)) : KM (Option PathRoot) := do
  if bimbleosMaxPath < strlen path then return none
  else
    let (driveNo, tmpPath) := pathparserGetDriveByPath path
    if driveNo < 0 then return none
    else
      let pathRoot ← pathparserCreateRoot driveNo
      let first ← pathparserParseParts (strlen path + 1) tmpPath
      return some { pathRoot with first := first }

/-- The loop of `pathparser_free`: the next part is read before a part is freed. -/
def pathparserFreeParts : List PathPart → KM Unit
  | [] => return ()
  | part :: rest => do
      kfree part.buffer
      kfree part.addr
      pathparserFreeParts rest

/-- `pathparser_free`. -/
def pathparserFree (root : PathRoot) : KM Unit := do
  pathparserFreeParts root.first
  kfree root.addr

/-! ## The cases of `pathparser_parse` -/

section Cases

variable {k k' : Kernel} {path : List (BitVec 8)} {driveNumber : Int} {root : PathRoot} {addr : Nat}

theorem toNumericDigit_nonneg {d : BitVec 8} (h : isDigit d = true) : ¬ toNumericDigit d < 0 := by
  have hrange : 48 ≤ d.toNat ∧ d.toNat ≤ 57 := of_decide_eq_true h
  unfold toNumericDigit
  omega

/-- A path with a drive in front. -/
theorem pathparserPathValidFormat_start (h : pathparserPathValidFormat path = true) :
    ∃ d rest, path = d :: 0x3a :: 0x2f :: rest ∧ isDigit d = true := by
  unfold pathparserPathValidFormat at h
  rw [Bool.and_eq_true, Bool.and_eq_true, Bool.and_eq_true] at h
  obtain ⟨⟨_, hdigit⟩, hcolon, hslash⟩ := h
  have hcolon := of_decide_eq_true hcolon
  have hslash := of_decide_eq_true hslash
  rcases path with _ | ⟨d, _ | ⟨c, _ | ⟨s, rest⟩⟩⟩
  · exact absurd hcolon (by decide)
  · exact absurd (show (0 : BitVec 8) = 0x3a from hcolon) (by decide)
  · exact absurd (show (0 : BitVec 8) = 0x2f from hslash) (by decide)
  · obtain rfl : c = 0x3a := hcolon
    obtain rfl : s = 0x2f := hslash
    exact ⟨d, rest, rfl, hdigit⟩

/-- What is behind the drive is shorter by three characters. -/
theorem pathparserPathValidFormat_strlen (h : pathparserPathValidFormat path = true) :
    strlen (path.drop 3) + 3 = strlen path := by
  obtain ⟨d, rest, rfl, hdigit⟩ := pathparserPathValidFormat_start h
  have hd : ¬ d = 0#8 := by
    rintro rfl
    exact absurd hdigit (by decide)
  simp [strlen, hd]

theorem pathparserCreateRoot_of_ne (halloc : kzalloc sizeofPathRoot k = .ok (addr, k')) (hne : addr ≠ 0) :
    pathparserCreateRoot driveNumber k = .ok ({ addr := addr, driveNo := driveNumber }, k') :=
  (Exec.bind_of_ok halloc).trans (Exec.bind_of_ok (deref_of_ne hne))

/-- A root that was written to had a block. -/
theorem pathparserCreateRoot_run (hrun : pathparserCreateRoot driveNumber k = .ok (root, k')) :
    ∃ addr, kzalloc sizeofPathRoot k = .ok (addr, k') ∧ addr ≠ 0 ∧ root = { addr := addr, driveNo := driveNumber } := by
  obtain ⟨addr, k₁, halloc, hcreate⟩ := Exec.bind_eq_ok.mp hrun
  obtain ⟨_, k₂, hderef, hdone⟩ := Exec.bind_eq_ok.mp hcreate
  obtain ⟨hne, rfl⟩ := deref_run hderef
  cases hdone
  exact ⟨addr, halloc, hne, rfl⟩

/-- `pathparser_parse` turns a path down before it allocates, or it is a root and then the parts. -/
theorem pathparserParse_cases (path : List (BitVec 8)) :
    (¬ (strlen path ≤ bimbleosMaxPath ∧ pathparserPathValidFormat path = true) ∧ pathparserParse path = pure none) ∨
    strlen path ≤ bimbleosMaxPath ∧ pathparserPathValidFormat path = true ∧
      pathparserParse path = (do
        let pathRoot ← pathparserCreateRoot (toNumericDigit (path.headD 0))
        let first ← pathparserParseParts (strlen path + 1) (path.drop 3)
        return some { pathRoot with first := first }) := by
  unfold pathparserParse
  by_cases hlong : bimbleosMaxPath < strlen path
  · exact Or.inl ⟨fun h => absurd hlong (Nat.not_lt_of_le h.1), if_pos hlong⟩
  rw [if_neg hlong]
  unfold pathparserGetDriveByPath
  by_cases hvalid : pathparserPathValidFormat path = true
  · obtain ⟨d, rest, hpath, hdigit⟩ := pathparserPathValidFormat_start hvalid
    have hdrive : ¬ toNumericDigit (path.headD 0) < 0 := by
      rw [hpath]
      exact toNumericDigit_nonneg hdigit
    refine Or.inr ⟨Nat.le_of_not_lt hlong, hvalid, ?_⟩
    rw [hvalid]
    exact if_neg hdrive
  · refine Or.inl ⟨fun h => hvalid h.2, ?_⟩
    rw [Bool.eq_false_iff.mpr hvalid]
    rfl

/-- What was parsed is well formed, and is a root and then the parts. -/
theorem pathparserParse_some (hrun : pathparserParse path k = .ok (some root, k')) :
    pathparserPathValidFormat path = true ∧ ∃ k₁, kzalloc sizeofPathRoot k = .ok (root.addr, k₁) ∧ root.addr ≠ 0 ∧
      pathparserParseParts (strlen path + 1) (path.drop 3) k₁ = .ok (root.first, k') := by
  rcases pathparserParse_cases path with ⟨_, hnone⟩ | ⟨_, hvalid, hparse⟩
  · rw [hnone] at hrun
    cases hrun
  · rw [hparse] at hrun
    obtain ⟨root', k₁, hcreate, hrest⟩ := Exec.bind_eq_ok.mp hrun
    obtain ⟨first, k₂, hparts, hdone⟩ := Exec.bind_eq_ok.mp hrest
    obtain ⟨addr, halloc, hne, rfl⟩ := pathparserCreateRoot_run hcreate
    cases hdone
    exact ⟨hvalid, k₁, halloc, hne, hparts⟩

end Cases

/-! ## Printing a path and parsing it -/

/-- The path `d:/p1/…/pn`, with or without a slash at its end. -/
def pathText (d : BitVec 8) (parts : List (List (BitVec 8))) (trailing : Bool) : List (BitVec 8) :=
  d :: 0x3a :: 0x2f :: ([0x2f].intercalate parts ++ if trailing then [0x2f] else [])

/-- A name that a path can hold. -/
structure ComponentOk (part : List (BitVec 8)) : Prop where
  nonempty : part ≠ []
  plain : ∀ c ∈ part, ¬ (c = 0x2f ∨ c = 0x00)

section RoundTrip

variable {k : Kernel} {part rest : List (BitVec 8)} {parts : List (List (BitVec 8))} {ptr i : Nat}

/-- The loop stops at the end of the path, and at a slash. -/
theorem pathparserCopyPart_stop (h : rest = [] ∨ ∃ path, rest = 0x2f :: path) :
    pathparserCopyPart ptr i rest k = .ok (([], rest), k) := by
  rcases h with rfl | ⟨path, rfl⟩
  · rfl
  · rw [pathparserCopyPart, if_pos (Or.inl rfl)]
    rfl

/-- The loop copies a name that fits the buffer, and stops behind it. -/
theorem pathparserCopyPart_part (hptr : ptr ≠ 0) (hpart : ∀ c ∈ part, ¬ (c = 0x2f ∨ c = 0x00))
    (hrest : rest = [] ∨ ∃ path, rest = 0x2f :: path) (hlen : i + part.length ≤ 108) :
    pathparserCopyPart ptr i (part ++ rest) k = .ok ((part, rest), k) := by
  induction part generalizing i with
  | nil => exact pathparserCopyPart_stop hrest
  | cons c part ih =>
      rw [List.length_cons] at hlen
      have htail := ih (fun c' hc' => hpart c' (List.mem_cons_of_mem c hc')) (i := i + 1) (by omega)
      rw [List.cons_append, pathparserCopyPart, if_neg (hpart c List.mem_cons_self),
        Exec.bind_of_ok (deref_of_ne hptr), if_neg (by unfold bimbleosMaxPath; omega),
        Exec.bind_of_ok htail]
      rfl

/-- Without a buffer the first character is written through a null pointer. -/
theorem pathparserCopyPart_null (hpart : ComponentOk part) :
    pathparserCopyPart 0 0 (part ++ rest) k = .error .nullPointer := by
  obtain ⟨c, part, rfl⟩ := List.exists_cons_of_ne_nil hpart.nonempty
  rw [List.cons_append, pathparserCopyPart, if_neg (hpart.plain c List.mem_cons_self)]
  exact Exec.bind_of_error deref_null

/-- At the end of the path there is no part; the buffer is freed again. -/
theorem pathparserParsePathPart_end (h : k.heap.Ready) :
    ∃ k', pathparserParsePathPart [] k = .ok ((none, []), k') ∧ k'.heap.Ready ∧
      k.heap.freeBlocks ≤ k'.heap.freeBlocks + 1 := by
  have hpart : ∃ k', pathparserGetPathPart [] k = .ok ((none, []), k') ∧ k'.heap.Ready ∧
      k.heap.freeBlocks ≤ k'.heap.freeBlocks + 1 := by
    unfold pathparserGetPathPart
    rcases kzalloc_one bimbleosMaxPath h (by decide) (by decide) with
      ⟨halloc, hzero⟩ | ⟨ptr, k', halloc, _, hready, hcount⟩
    · exact ⟨_, Exec.bind_of_ok halloc, h.free, by omega⟩
    · have hfree := @freeBlocks_free k'.heap ptr
      exact ⟨_, Exec.bind_of_ok halloc, hready.free, show _ ≤ (heapFree k'.heap ptr).freeBlocks + 1 by omega⟩
  obtain ⟨k', hpart, hrest⟩ := hpart
  exact ⟨k', Exec.bind_of_ok hpart, hrest⟩

/-- The name of a part takes a block. -/
theorem pathparserGetPathPart_part (h : k.heap.Ready) (hpart : ComponentOk part)
    (hrest : rest = [] ∨ ∃ path, rest = 0x2f :: path) (hlen : part.length ≤ 108) :
    (∃ ptr k', pathparserGetPathPart (part ++ rest) k = .ok ((some (ptr, part), pathparserSkipSlash rest), k') ∧
        k'.heap.Ready ∧ k'.heap.freeBlocks + 1 = k.heap.freeBlocks) ∨
      k.heap.freeBlocks = 0 ∧ pathparserGetPathPart (part ++ rest) k = .error .nullPointer := by
  unfold pathparserGetPathPart
  rcases kzalloc_one bimbleosMaxPath h (by decide) (by decide) with
    ⟨halloc, hzero⟩ | ⟨ptr, k', halloc, hptr, hready, hcount⟩
  · refine Or.inr ⟨hzero, ?_⟩
    rw [Exec.bind_of_ok halloc]
    exact Exec.bind_of_error (pathparserCopyPart_null hpart)
  · refine Or.inl ⟨ptr, k', ?_, hready, hcount⟩
    rw [Exec.bind_of_ok halloc,
      Exec.bind_of_ok (pathparserCopyPart_part hptr hpart.plain hrest (by omega))]
    show (if part = [] then _ else _ : KM _) k' = _
    rw [if_neg hpart.nonempty]
    rfl

/-- **One part** takes two blocks. -/
theorem pathparserParsePathPart_part (h : k.heap.Ready) (hpart : ComponentOk part)
    (hrest : rest = [] ∨ ∃ path, rest = 0x2f :: path) (hlen : part.length ≤ 108) :
    (∃ p k', pathparserParsePathPart (part ++ rest) k = .ok ((some p, pathparserSkipSlash rest), k') ∧
        p.part = part ∧ k'.heap.Ready ∧ k'.heap.freeBlocks + 2 = k.heap.freeBlocks) ∨
      k.heap.freeBlocks < 2 ∧ pathparserParsePathPart (part ++ rest) k = .error .nullPointer := by
  unfold pathparserParsePathPart
  rcases pathparserGetPathPart_part h hpart hrest hlen with
    ⟨buffer, k₁, hname, hready₁, hcount₁⟩ | ⟨hzero, hname⟩
  · rw [Exec.bind_of_ok hname]
    rcases kzalloc_one sizeofPathPart hready₁ (by decide) (by decide) with
      ⟨halloc, hzero⟩ | ⟨ptr, k₂, halloc, hptr, hready₂, hcount₂⟩
    · refine Or.inr ⟨by omega, ?_⟩
      refine (Exec.bind_of_ok halloc).trans ?_
      exact Exec.bind_of_error deref_null
    · refine Or.inl ⟨{ addr := ptr, buffer := buffer, part := part }, k₂, ?_, rfl, hready₂, by omega⟩
      refine (Exec.bind_of_ok halloc).trans ?_
      rw [Exec.bind_of_ok (deref_of_ne hptr)]
      rfl
  · exact Or.inr ⟨by omega, Exec.bind_of_error hname⟩

/-- The text of the remaining parts. -/
theorem partsText_cons (part : List (BitVec 8)) (parts : List (List (BitVec 8))) (trailing : Bool) :
    ∃ rest,
    [0x2f].intercalate (part :: parts) ++ (if trailing then [0x2f] else []) = part ++ rest ∧
      (rest = [] ∨ ∃ path, rest = 0x2f :: path) ∧
      pathparserSkipSlash rest = if parts = [] then [] else
        [0x2f].intercalate parts ++ (if trailing then [0x2f] else []) := by
  cases parts with
  | nil =>
      refine ⟨if trailing then [0x2f] else [], by rw [List.intercalate_singleton], ?_, ?_⟩
      · cases trailing
        · exact Or.inl rfl
        · exact Or.inr ⟨[], rfl⟩
      · cases trailing
        · rfl
        · rfl
  | cons next parts =>
      refine ⟨0x2f :: ([0x2f].intercalate (next :: parts) ++ (if trailing then [0x2f] else [])), ?_,
        Or.inr ⟨_, rfl⟩, ?_⟩
      · rw [List.intercalate_cons_cons]
        simp
      · simp [pathparserSkipSlash]

/-- **The parts of a path** come back one after the other; each takes two blocks. The induction is on the
    list of parts. -/
theorem pathparserParseParts_print (trailing : Bool) (fuel : Nat) (h : k.heap.Ready) (hne : parts ≠ [])
    (hparts : ∀ part ∈ parts, ComponentOk part ∧ part.length ≤ 108) (hfuel : parts.length < fuel) :
    (∃ ps k', pathparserParseParts fuel
          ([0x2f].intercalate parts ++ if trailing then [0x2f] else []) k = .ok (ps, k') ∧
        ps.map PathPart.part = parts ∧ k'.heap.Ready ∧
        k.heap.freeBlocks ≤ k'.heap.freeBlocks + (2 * parts.length + 1)) ∨
      k.heap.freeBlocks < 2 * parts.length ∧ pathparserParseParts fuel
          ([0x2f].intercalate parts ++ if trailing then [0x2f] else []) k = .error .nullPointer := by
  induction parts generalizing k fuel with
  | nil => exact absurd rfl hne
  | cons part parts ih =>
      obtain ⟨fuel, rfl⟩ : ∃ n, fuel = n + 1 := ⟨fuel - 1, by omega⟩
      obtain ⟨rest, htext, hrest, hskip⟩ := partsText_cons part parts trailing
      obtain ⟨hpart, hlen⟩ := hparts part List.mem_cons_self
      rw [List.length_cons] at hfuel
      rw [htext, List.length_cons, pathparserParseParts]
      rcases pathparserParsePathPart_part h hpart hrest hlen with
        ⟨p, k₁, hrun, hp, hready, hcount⟩ | ⟨hfew, hrun⟩
      · rw [Exec.bind_of_ok hrun]
        by_cases hlast : parts = []
        · -- the path ends behind this part
          subst hlast
          rw [if_pos rfl] at hskip
          rw [hskip]
          obtain ⟨k₂, hend, hready₂, hcount₂⟩ := pathparserParsePathPart_end hready
          have hnone : pathparserParseParts fuel [] k₁ = .ok ([], k₂) := by
            obtain ⟨fuel, rfl⟩ : ∃ n, fuel = n + 1 := ⟨fuel - 1, by omega⟩
            exact Exec.bind_of_ok hend
          refine Or.inl ⟨[p], k₂, Exec.bind_of_ok hnone, ?_, hready₂, ?_⟩
          · rw [List.map_singleton, hp]
          · rw [List.length_nil]
            omega
        · rw [if_neg hlast] at hskip
          rw [hskip]
          rcases ih fuel hready hlast (fun q hq => hparts q (List.mem_cons_of_mem part hq))
              (by omega) with ⟨ps, k₂, hps, hmap, hready₂, hcount₂⟩ | ⟨hfew, hps⟩
          · refine Or.inl ⟨p :: ps, k₂, Exec.bind_of_ok hps, ?_, hready₂, by omega⟩
            rw [List.map_cons, hp, hmap]
          · exact Or.inr ⟨by omega, Exec.bind_of_error hps⟩
      · exact Or.inr ⟨by omega, Exec.bind_of_error hrun⟩

/-- The characters of the text of the parts. -/
theorem mem_partsText {c : BitVec 8} (h : c ∈ [0x2f].intercalate parts) :
    c = 0x2f ∨ ∃ part ∈ parts, c ∈ part := by
  induction parts with
  | nil => exact absurd h List.not_mem_nil
  | cons part parts ih =>
      cases parts with
      | nil =>
          rw [List.intercalate_singleton] at h
          exact Or.inr ⟨part, List.mem_cons_self, h⟩
      | cons next parts =>
          rw [List.intercalate_cons_cons, List.append_assoc, List.mem_append] at h
          rcases h with h | h
          · exact Or.inr ⟨part, List.mem_cons_self, h⟩
          · rcases List.mem_cons.mp h with h | h
            · exact Or.inl h
            · rcases ih h with h | ⟨q, hq, hc⟩
              · exact Or.inl h
              · exact Or.inr ⟨q, List.mem_cons_of_mem part hq, hc⟩

/-- The text is as long as every part of it, and as the number of parts. -/
theorem length_partsText (hparts : ∀ part ∈ parts, ComponentOk part) :
    parts.length ≤ ([0x2f].intercalate parts).length ∧
      ∀ part ∈ parts, part.length ≤ ([0x2f].intercalate parts).length := by
  induction parts with
  | nil => exact ⟨Nat.le_refl 0, fun part hpart => absurd hpart List.not_mem_nil⟩
  | cons part parts ih =>
      have hpos := List.length_pos_iff.mpr (hparts part List.mem_cons_self).nonempty
      obtain ⟨hcount, hall⟩ := ih fun q hq => hparts q (List.mem_cons_of_mem part hq)
      cases parts with
      | nil =>
          rw [List.intercalate_singleton]
          refine ⟨hpos, fun q hq => ?_⟩
          rw [List.mem_singleton.mp hq]
      | cons next parts =>
          rw [List.intercalate_cons_cons, List.length_append, List.length_append, List.length_cons]
          refine ⟨by omega, fun q hq => ?_⟩
          rcases List.mem_cons.mp hq with rfl | hq
          · omega
          · have := hall q hq
            omega

/-- A path holds no zero byte. -/
theorem strlen_pathText {d : BitVec 8} (trailing : Bool) (hd : isDigit d)
    (hparts : ∀ part ∈ parts, ComponentOk part) :
    strlen (pathText d parts trailing) = (pathText d parts trailing).length := by
  have hne : ∀ c ∈ pathText d parts trailing, c ≠ 0 := by
    intro c hc hzero
    subst hzero
    rcases List.mem_cons.mp hc with rfl | hc
    · exact absurd hd (by decide)
    rcases List.mem_cons.mp hc with hc | hc
    · exact absurd hc (by decide)
    rcases List.mem_cons.mp hc with hc | hc
    · exact absurd hc (by decide)
    rcases List.mem_append.mp hc with hc | hc
    · rcases mem_partsText hc with hc | ⟨part, hpart, hc⟩
      · exact absurd hc (by decide)
      · exact (hparts part hpart).plain 0 hc (Or.inr rfl)
    · cases trailing
      · exact absurd hc List.not_mem_nil
      · exact absurd (List.mem_singleton.mp hc) (by decide)
  unfold strlen
  rw [List.takeWhile_eq_self_iff.mpr fun c hc => decide_eq_true (hne c hc)]

/-- The format check accepts it. -/
theorem pathparserGetDriveByPath_pathText {d : BitVec 8} (trailing : Bool) (hd : isDigit d)
    (hparts : ∀ part ∈ parts, ComponentOk part) :
    pathparserGetDriveByPath (pathText d parts trailing)
      = (toNumericDigit d, [0x2f].intercalate parts ++ if trailing then [0x2f] else []) := by
  have hlen : 3 ≤ strnlen (pathText d parts trailing) bimbleosMaxPath := by
    unfold strnlen bimbleosMaxPath
    rw [strlen_pathText trailing hd hparts]
    unfold pathText
    simp only [List.length_cons]
    omega
  have hvalid : pathparserPathValidFormat (pathText d parts trailing) = true := by
    unfold pathparserPathValidFormat
    rw [decide_eq_true hlen]
    simpa [pathText] using hd
  unfold pathparserGetDriveByPath
  rw [hvalid]
  rfl

/-- Parsing a printed path, with the blocks it takes: one for the root, two for each part, and at most one
    for the end of the path. -/
theorem pathparserParse_text {d : BitVec 8} {trailing : Bool} (h : k.heap.Ready) (hd : isDigit d)
    (hne : parts ≠ []) (hparts : ∀ part ∈ parts, ComponentOk part)
    (hlen : (pathText d parts trailing).length ≤ bimbleosMaxPath) :
    (∃ root k', pathparserParse (pathText d parts trailing) k = .ok (some root, k') ∧
        root.driveNo = toNumericDigit d ∧ root.first.map PathPart.part = parts ∧ k'.heap.Ready ∧
        k.heap.freeBlocks ≤ k'.heap.freeBlocks + (2 * parts.length + 2)) ∨
      k.heap.freeBlocks < 2 * parts.length + 1 ∧
        pathparserParse (pathText d parts trailing) k = .error .nullPointer := by
  have htext := strlen_pathText trailing hd hparts
  have hdrive := pathparserGetDriveByPath_pathText trailing hd hparts
  have hdigit := toNumericDigit_nonneg hd
  obtain ⟨hcount, hall⟩ := length_partsText hparts
  have hshort : ([0x2f].intercalate parts).length ≤ (pathText d parts trailing).length := by
    unfold pathText
    simp only [List.length_cons, List.length_append]
    omega
  unfold pathparserParse
  rw [if_neg (by rw [htext]; exact Nat.not_lt_of_le hlen), hdrive]
  simp only [hdigit, if_false]
  rcases kzalloc_one sizeofPathRoot h (by decide) (by decide) with
    ⟨halloc, hzero⟩ | ⟨ptr, k₁, halloc, hptr, hready, hleft⟩
  · -- the root was not allocated, and it is written to
    refine Or.inr ⟨by omega, Exec.bind_of_error ?_⟩
    unfold pathparserCreateRoot
    rw [Exec.bind_of_ok halloc]
    exact Exec.bind_of_error deref_null
  · rw [Exec.bind_of_ok (pathparserCreateRoot_of_ne halloc hptr)]
    rcases pathparserParseParts_print trailing (strlen (pathText d parts trailing) + 1) hready hne
        (fun part hpart => ⟨hparts part hpart, Nat.le_trans (hall part hpart) (Nat.le_trans hshort hlen)⟩)
        (by omega) with
      ⟨ps, k₂, hps, hmap, hready₂, hcount⟩ | ⟨hfew, hps⟩
    · exact Or.inl ⟨_, k₂, Exec.bind_of_ok hps, rfl, hmap, hready₂, by omega⟩
    · exact Or.inr ⟨by omega, Exec.bind_of_error hps⟩

end RoundTrip

/-- There is a free block for the root of a path, and two for each of its parts. -/
def PathRoom (heap : Heap) (parts : List (List (BitVec 8))) : Prop := 2 * parts.length + 1 ≤ heap.freeBlocks

/-- **Parsing a printed path gives its drive and its parts back** where the heap has room for them. The only run that
    ends otherwise followed the null pointer of an allocation for which no block was left; in no case is a part written
    past its buffer. -/
theorem pathparserParse_print {k : Kernel} {d : BitVec 8} {parts : List (List (BitVec 8))}
    {trailing : Bool} (h : k.heap.Ready) (hd : isDigit d) (hne : parts ≠ [])
    (hparts : ∀ part ∈ parts, ComponentOk part)
    (hlen : (pathText d parts trailing).length ≤ bimbleosMaxPath) :
    (∃ root k', pathparserParse (pathText d parts trailing) k = .ok (some root, k') ∧
        root.driveNo = toNumericDigit d ∧ root.first.map PathPart.part = parts) ∨
      ¬ PathRoom k.heap parts ∧ pathparserParse (pathText d parts trailing) k = .error .nullPointer := by
  rcases pathparserParse_text h hd hne hparts hlen with ⟨root, k', hrun, hdrive, hmap, _⟩ | ⟨hfew, hfault⟩
  · exact Or.inl ⟨root, k', hrun, hdrive, hmap⟩
  · exact Or.inr ⟨Nat.not_le_of_lt hfew, hfault⟩

/-- With room at the end of the heap, a path of one part is parsed; it takes three blocks, and one more in
    between. -/
theorem pathparserParse_one {n : Nat} {ptrs : List Nat} {d : BitVec 8} {part : List (BitVec 8)} (hd : isDigit d)
    (hpart : ComponentOk part) (hlen : (pathText d [part] false).length ≤ bimbleosMaxPath) :
    Exec.Total (Kernel.Room ptrs (n + 4)) (pathparserParse (pathText d [part] false))
      fun r k => (∃ root p, r = some root ∧ root.driveNo = toNumericDigit d ∧ root.first = [p] ∧ p.part = part) ∧
        k.Room ptrs n := by
  have hparts : ∀ q ∈ [part], ComponentOk q := fun q hq => List.mem_singleton.mp hq ▸ hpart
  have htext := strlen_pathText false hd hparts
  have hdrive := pathparserGetDriveByPath_pathText false hd hparts
  have hdigit := toNumericDigit_nonneg hd
  have hname : part.length ≤ 108 := by
    have htotal : (pathText d [part] false).length = 3 + part.length := by simp [pathText]; omega
    unfold bimbleosMaxPath at hlen
    omega
  -- the part, and the end of the path behind it
  have hfirst : Exec.Total (Kernel.Room ptrs (n + 1 + 2)) (pathparserParsePathPart (part ++ []))
      fun r k => (∃ p, r = (some p, []) ∧ p.part = part) ∧ k.Room ptrs (n + 1) := by
    have hget : Exec.Total (Kernel.Room ptrs (n + 1 + 2)) (pathparserGetPathPart (part ++ []))
        fun r k => (∃ ptr, r = (some (ptr, part), [])) ∧ k.Room ptrs (n + 1 + 1) := by
      intro k hk
      obtain ⟨ptr, k₁, halloc, hptr, hroom⟩ :=
        @kzalloc_room ptrs (n + 1 + 1) bimbleosMaxPath (by decide) (by decide) k hk
      refine ⟨(some (ptr, part), []), k₁, ?_, ⟨ptr, rfl⟩, hroom.drop⟩
      unfold pathparserGetPathPart
      rw [Exec.bind_of_ok halloc,
        Exec.bind_of_ok (pathparserCopyPart_part hptr hpart.plain (Or.inl rfl) (by omega))]
      show (if part = [] then _ else _ : KM _) k₁ = _
      rw [if_neg hpart.nonempty]
      rfl
    refine Exec.Total.bind hget fun r => Exec.Total.const fun hr => ?_
    obtain ⟨buffer, rfl⟩ := hr
    refine Exec.Total.bind (kzalloc_room (by decide) (by decide)) fun ptr => Exec.Total.const fun hptr => ?_
    intro k hk
    exact ⟨_, k, Exec.bind_of_ok (deref_of_ne hptr), ⟨_, rfl, rfl⟩, hk.drop⟩
  have hend : Exec.Total (Kernel.Room ptrs (n + 1)) (pathparserParsePathPart [])
      fun r k => r = (none, []) ∧ k.Room ptrs n := by
    have hget : Exec.Total (Kernel.Room ptrs (n + 1)) (pathparserGetPathPart [])
        fun r k => r = (none, []) ∧ k.Room ptrs n := by
      refine Exec.Total.bind (kzalloc_room (by decide) (by decide)) fun ptr => Exec.Total.const fun _ => ?_
      intro k hk
      exact ⟨_, _, rfl, rfl, hk.free⟩
    refine Exec.Total.bind hget fun r => Exec.Total.const fun hr => ?_
    subst hr
    exact Exec.Total.pure fun _ hk => ⟨rfl, hk⟩
  have hroot : Exec.Total (Kernel.Room ptrs (n + 4)) (pathparserCreateRoot (toNumericDigit d))
      fun r k => r.driveNo = toNumericDigit d ∧ k.Room ptrs (n + 1 + 2) := by
    refine Exec.Total.bind (kzalloc_room (by decide) (by decide)) fun ptr => Exec.Total.const fun hptr => ?_
    intro k hk
    exact ⟨_, k, Exec.bind_of_ok (deref_of_ne hptr), rfl, hk.drop⟩
  unfold pathparserParse
  rw [if_neg (by rw [htext]; exact Nat.not_lt_of_le hlen), hdrive]
  simp only [hdigit, if_false]
  have hfuel : strlen (pathText d [part] false) + 1 = (2 + part.length) + 1 + 1 := by
    rw [htext]
    simp [pathText]
    omega
  have hrest : ([0x2f].intercalate [part] ++ if false = true then [0x2f] else []) = part ++ [] := by
    rw [List.intercalate_singleton]
    rfl
  have hnone : Exec.Total (Kernel.Room ptrs (n + 1)) (pathparserParseParts (2 + part.length + 1) [])
      fun r k => r = [] ∧ k.Room ptrs n := by
    rw [pathparserParseParts]
    refine Exec.Total.bind hend fun r => Exec.Total.const fun hr => ?_
    subst hr
    exact Exec.Total.pure fun _ hk => ⟨rfl, hk⟩
  have hone : Exec.Total (Kernel.Room ptrs (n + 1 + 2))
      (pathparserParseParts (2 + part.length + 1 + 1) (part ++ []))
      fun r k => (∃ p, r = [p] ∧ p.part = part) ∧ k.Room ptrs n := by
    rw [pathparserParseParts]
    refine Exec.Total.bind hfirst fun r => Exec.Total.const fun hr => ?_
    obtain ⟨p, rfl, hp⟩ := hr
    refine Exec.Total.bind hnone fun r => Exec.Total.const fun hr => ?_
    subst hr
    exact Exec.Total.pure fun _ hk => ⟨⟨p, rfl, hp⟩, hk⟩
  rw [hfuel, hrest]
  refine Exec.Total.bind hroot fun root => Exec.Total.const fun hdriveNo => ?_
  refine Exec.Total.bind hone fun first => Exec.Total.const fun hparsed => ?_
  obtain ⟨p, rfl, hp⟩ := hparsed
  exact Exec.Total.pure fun _ hk => ⟨⟨_, p, rfl, hdriveNo, rfl, hp⟩, hk⟩

theorem pathparserParse_print_boot :
    ∃ root k', pathparserParse (pathText 0x30 [[0x61], [0x62]] true) bootKernel = .ok (some root, k') ∧
      root.driveNo = 0 ∧ root.first.map PathPart.part = [[0x61], [0x62]] := by
  have hparts : ∀ part ∈ ([[0x61], [0x62]] : List (List (BitVec 8))), ComponentOk part := by
    intro part hpart
    rcases List.mem_cons.mp hpart with rfl | hpart
    · exact ⟨by decide, by decide⟩
    · rw [List.mem_singleton.mp hpart]
      exact ⟨by decide, by decide⟩
  rcases pathparserParse_print (d := 0x30) bootKernel_ready (by decide) (by decide) hparts
      (by decide : (pathText 0x30 [[0x61], [0x62]] true).length ≤ bimbleosMaxPath) with h | ⟨hfew, _⟩
  · exact h
  · refine absurd ?_ hfew
    unfold PathRoom
    rw [bootKernel_freeBlocks]
    decide

end BimbleOS
