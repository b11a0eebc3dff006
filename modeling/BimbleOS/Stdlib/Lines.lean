import BimbleOS.Stdlib.Realine

/-!
# `Stdlib.Lines` — one line after the other

A program reads its lines out of one stream of keys. Each call of `bimbleos_terminal_realine` takes the keys of its
line with the carriage return, echoes them, and leaves the keys behind it to the next call. Where the backspaces on the
empty line come in pairs, these are the keys behind the edited line (`bimbleosTerminalRealine_line`).
-/

namespace BimbleOS.Stdlib

open Bytes CWord

/-- The keys of a line: those in front of the carriage return, or until the line is full. -/
def lineKeys (step : List (BitVec 8) → BitVec 8 → List (BitVec 8)) (size : Nat) :
    List (BitVec 8) → List (BitVec 8) → List (BitVec 8)
  | _, [] => []
  | line, key :: keys =>
      if size ≤ line.length then []
      else if key = returnKey then []
      else key :: lineKeys step size (step line key) keys

/-- The keys behind a line and its carriage return. -/
def lineRest (step : List (BitVec 8) → BitVec 8 → List (BitVec 8)) (size : Nat) :
    List (BitVec 8) → List (BitVec 8) → List (BitVec 8)
  | _, [] => []
  | line, key :: keys =>
      if size ≤ line.length then key :: keys
      else if key = returnKey then keys
      else lineRest step size (step line key) keys

/-- The first `n` lines of a text, edited; `none` if it has fewer. -/
def editedLines (size : Nat) : Nat → List (BitVec 8) → Option (List (List (BitVec 8)))
  | 0, _ => some []
  | n + 1, keys =>
      (lineRun editKey size [] keys).bind fun line =>
        (editedLines size n (lineRest editKey size [] keys)).map fun lines => line :: lines

/-- In each of the first `n` lines the backspaces on the empty line come in pairs. -/
def LinesPairUp (size : Nat) : Nat → List (BitVec 8) → Prop
  | 0, _ => True
  | n + 1, keys => PairsUp size false 0 keys ∧ LinesPairUp size n (lineRest editKey size [] keys)

/-! ## The keys of a line -/

section Keys

variable {size n : Nat} {odd : Bool} {line result keys more : List (BitVec 8)} {key : BitVec 8}
  {lines : List (List (BitVec 8))} {step : List (BitVec 8) → BitVec 8 → List (BitVec 8)}

theorem lineKeys_full (h : size ≤ line.length) : lineKeys step size line keys = [] := by
  cases keys with
  | nil => rfl
  | cons key keys => exact if_pos h

theorem lineRest_full (h : size ≤ line.length) : lineRest step size line keys = keys := by
  cases keys with
  | nil => rfl
  | cons key keys => exact if_pos h

theorem lineKeys_key (h : ¬ size ≤ line.length) (hkey : key ≠ returnKey) :
    lineKeys step size line (key :: keys) = key :: lineKeys step size (step line key) keys := by
  rw [lineKeys, if_neg h, if_neg hkey]

theorem lineRest_key (h : ¬ size ≤ line.length) (hkey : key ≠ returnKey) :
    lineRest step size line (key :: keys) = lineRest step size (step line key) keys := by
  rw [lineRest, if_neg h, if_neg hkey]

theorem lineKeys_return (h : ¬ size ≤ line.length) : lineKeys step size line (returnKey :: keys) = [] := by
  rw [lineKeys, if_neg h, if_pos rfl]

theorem lineRest_return (h : ¬ size ≤ line.length) : lineRest step size line (returnKey :: keys) = keys := by
  rw [lineRest, if_neg h, if_pos rfl]

/-- A complete line is made of its keys. -/
theorem lineRun_keys (h : lineRun step size line keys = some result) :
    (lineKeys step size line keys).foldl step line = result := by
  induction keys generalizing line with
  | nil =>
      by_cases hfull : size ≤ line.length
      · rw [lineRun_full hfull] at h
        exact Option.some.inj h
      · rw [lineRun, if_neg hfull] at h
        cases h
  | cons key keys ih =>
      by_cases hfull : size ≤ line.length
      · rw [lineRun_full hfull] at h
        rw [lineKeys_full hfull]
        exact Option.some.inj h
      by_cases hreturn : key = returnKey
      · subst hreturn
        rw [lineRun, if_neg hfull, if_pos rfl] at h
        rw [lineKeys_return hfull]
        exact Option.some.inj h
      · rw [lineRun_key hfull hreturn] at h
        rw [lineKeys_key hfull hreturn]
        exact ih h

/-- A line that is complete stays as it is whatever is typed behind it. -/
theorem lineRun_append (h : lineRun step size line keys = some result) :
    lineRun step size line (keys ++ more) = some result := by
  induction keys generalizing line with
  | nil =>
      by_cases hfull : size ≤ line.length
      · rw [lineRun, if_pos hfull] at h
        rw [lineRun_full hfull]
        exact h
      · rw [lineRun, if_neg hfull] at h
        cases h
  | cons key keys ih =>
      by_cases hfull : size ≤ line.length
      · rw [lineRun_full hfull] at h ⊢
        exact h
      by_cases hreturn : key = returnKey
      · rw [lineRun, if_neg hfull, if_pos hreturn] at h
        rw [List.cons_append, lineRun, if_neg hfull, if_pos hreturn]
        exact h
      · rw [lineRun_key hfull hreturn] at h
        rw [List.cons_append, lineRun_key hfull hreturn]
        exact ih h

/-- Backspaces that come in pairs do so at the beginning of the text. -/
theorem PairsUp.start (h : PairsUp size odd n (keys ++ more)) : PairsUp size odd n keys := by
  induction keys generalizing odd n with
  | nil =>
      intro hfull
      cases more with
      | nil => exact h hfull
      | cons key more =>
          rw [List.nil_append, PairsUp, if_pos (Or.inl hfull)] at h
          exact h
  | cons key keys ih =>
      rw [List.cons_append, PairsUp] at h
      rw [PairsUp]
      split at h
      · rename_i hends
        rw [if_pos hends]
        exact h
      · rename_i hgoes
        rw [if_neg hgoes]
        split at h
        · rename_i hkey
          rw [if_pos hkey]
          exact ih h
        · rename_i hkey
          rw [if_neg hkey]
          split at h
          · rename_i hzero
            rw [if_pos hzero]
            exact ih h
          · rename_i hzero
            rw [if_neg hzero]
            exact ih h

/-- What is behind a complete line stays there when more is typed. -/
theorem lineRest_append (h : lineRun step size line keys = some result) :
    lineRest step size line (keys ++ more) = lineRest step size line keys ++ more := by
  induction keys generalizing line with
  | nil =>
      by_cases hfull : size ≤ line.length
      · rw [lineRest_full hfull, lineRest_full hfull]
      · rw [lineRun, if_neg hfull] at h
        cases h
  | cons key keys ih =>
      by_cases hfull : size ≤ line.length
      · rw [lineRest_full hfull, lineRest_full hfull]
      by_cases hreturn : key = returnKey
      · subst hreturn
        rw [List.cons_append, lineRest_return hfull, lineRest_return hfull]
      · rw [lineRun_key hfull hreturn] at h
        rw [List.cons_append, lineRest_key hfull hreturn, lineRest_key hfull hreturn]
        exact ih h

/-- An edited line is not longer than there is room. -/
theorem length_lineRun (hline : line.length ≤ size) (h : lineRun editKey size line keys = some result) :
    result.length ≤ size := by
  induction keys generalizing line with
  | nil =>
      by_cases hfull : size ≤ line.length
      · rw [lineRun_full hfull] at h
        exact Option.some.inj h ▸ hline
      · rw [lineRun, if_neg hfull] at h
        cases h
  | cons key keys ih =>
      by_cases hfull : size ≤ line.length
      · rw [lineRun_full hfull] at h
        exact Option.some.inj h ▸ hline
      by_cases hreturn : key = returnKey
      · subst hreturn
        rw [lineRun, if_neg hfull, if_pos rfl] at h
        exact Option.some.inj h ▸ hline
      · rw [lineRun_key hfull hreturn] at h
        refine ih ?_ h
        rw [length_editKey]
        split <;> omega

/-- Where the backspaces pair up, the typed line and the edited one have the same keys. -/
theorem lineRest_typeKey (h : PairsUp size odd line.length keys) :
    lineRest typeKey size (stray odd ++ line) keys = lineRest editKey size line keys ∧
      lineKeys typeKey size (stray odd ++ line) keys = lineKeys editKey size line keys := by
  induction keys generalizing odd line with
  | nil => exact ⟨rfl, rfl⟩
  | cons key keys ih =>
      by_cases hroom : size ≤ line.length + odd.toNat
      · rw [PairsUp, if_pos (Or.inl hroom)] at h
        subst h
        have hfull : size ≤ line.length := hroom
        exact ⟨(lineRest_full hfull).trans (lineRest_full hfull).symm,
          (lineKeys_full hfull).trans (lineKeys_full hfull).symm⟩
      have hshort : ¬ size ≤ line.length := fun hfull => hroom (Nat.le_add_right_of_le hfull)
      have htyped : ¬ size ≤ (stray odd ++ line).length := by rwa [length_stray]
      by_cases hreturn : key = returnKey
      · subst hreturn
        rw [lineRest_return htyped, lineRest_return hshort, lineKeys_return htyped, lineKeys_return hshort]
        exact ⟨rfl, rfl⟩
      · rw [lineRest_key htyped hreturn, lineRest_key hshort hreturn, lineKeys_key htyped hreturn,
          lineKeys_key hshort hreturn, typeKey_stray]
        obtain ⟨hrest, hkeys⟩ := ih ((pairsUp_key hroom hreturn).mp h)
        exact ⟨hrest, congrArg _ hkeys⟩

/-- Where the keys end before the line, nothing is behind it. -/
theorem lineRest_none (h : lineRun step size line keys = none) : lineRest step size line keys = [] := by
  induction keys generalizing line with
  | nil => rfl
  | cons key keys ih =>
      by_cases hfull : size ≤ line.length
      · rw [lineRun_full hfull] at h
        cases h
      by_cases hreturn : key = returnKey
      · subst hreturn
        rw [lineRun, if_neg hfull, if_pos rfl] at h
        cases h
      · rw [lineRun_key hfull hreturn] at h
        rw [lineRest_key hfull hreturn]
        exact ih h

theorem editedLines_append (h : editedLines size n keys = some lines) :
    editedLines size n (keys ++ more) = some lines := by
  induction n generalizing keys lines with
  | zero => exact h
  | succ n ih =>
      rw [editedLines] at h ⊢
      obtain ⟨line, hline, hlines⟩ := Option.bind_eq_some_iff.mp h
      obtain ⟨rest, hrest, rfl⟩ := Option.map_eq_some_iff.mp hlines
      rw [lineRun_append hline, Option.bind_some, lineRest_append hline, ih hrest]
      rfl

theorem linesPairUp_nil : LinesPairUp size n [] := by
  induction n with
  | zero => exact True.intro
  | succ n ih => exact ⟨fun _ => rfl, ih⟩

/-- Backspaces that come in pairs do so at the beginning of the text. -/
theorem LinesPairUp.start (h : LinesPairUp size n (keys ++ more)) : LinesPairUp size n keys := by
  induction n generalizing keys with
  | zero => exact True.intro
  | succ n ih =>
      refine ⟨h.1.start, ?_⟩
      cases hline : lineRun editKey size [] keys with
      | none =>
          rw [lineRest_none hline]
          exact linesPairUp_nil
      | some line =>
          have hrest := h.2
          rw [lineRest_append hline] at hrest
          exact ih hrest

end Keys

/-! ## What a call takes -/

section Takes

variable {out max size fuel i : Nat} {echo : Bool} {line polls : List (BitVec 8)} {key : BitVec 8}
  {input input' : LineInput}

/-- A round of the loop: the index follows the line, and the key is echoed. -/
theorem realineLoop_takes (hmax : size + 1 = max) (hword : max < 4294967296) (hroom : line.length < size)
    (hkey : bimbleosGetkeyblock input.polls = some (key, polls)) (hreturn : key ≠ returnKey) :
    ∃ memory, realineLoop out max echo (fuel + 1) line.length input
      = realineLoop out max echo fuel (typeKey line key).length
        { out := memory, polls := polls, put := if echo then input.put ++ [key] else input.put } := by
  have hsize : u32 ((max : Int) - 1) = size := by
    unfold u32
    omega
  rw [realineLoop, hsize, if_neg (by omega), hkey, Option.bind_some]
  dsimp only
  rw [if_neg hreturn]
  by_cases hback : key = backspaceKey ∧ 1 ≤ line.length
  · have htype : typeKey line key = line.dropLast := if_pos ⟨hback.1, List.ne_nil_of_length_pos hback.2⟩
    have hindex : u32 ((u32 ((line.length : Int) - 2) : Int) + 1) = line.length - 1 := by
      unfold u32
      omega
    rw [if_pos hback, hindex, htype, List.length_dropLast]
    exact ⟨_, rfl⟩
  · have htype : typeKey line key = line ++ [key] := if_neg fun h => hback ⟨h.1, List.length_pos_of_ne_nil h.2⟩
    have hindex : u32 ((line.length : Int) + 1) = line.length + 1 := by
      unfold u32
      omega
    rw [if_neg hback, hindex, htype, List.length_append, List.length_singleton]
    exact ⟨_, rfl⟩

/-- The loop takes the keys of the line. The induction is on the fuel. -/
theorem realineLoop_keys (hmax : size + 1 = max) (hword : max < 4294967296) (hline : line.length ≤ size)
    (hrun : realineLoop out max echo fuel line.length input = some (i, input')) :
    keysOf input'.polls = lineRest typeKey size line (keysOf input.polls) ∧
      (echo = true → input'.put = input.put ++ lineKeys typeKey size line (keysOf input.polls)) := by
  have hsize : u32 ((max : Int) - 1) = size := by
    unfold u32
    omega
  induction fuel generalizing line input with
  | zero => cases hrun
  | succ fuel ih =>
      by_cases hfull : size ≤ line.length
      · rw [realineLoop, hsize, if_pos hfull] at hrun
        cases hrun
        rw [lineRest_full hfull, lineKeys_full hfull, List.append_nil]
        exact ⟨rfl, fun _ => rfl⟩
      cases hpoll : bimbleosGetkeyblock input.polls with
      | none =>
          rw [realineLoop, hsize, if_neg hfull, hpoll] at hrun
          cases hrun
      | some taken =>
          obtain ⟨key, polls⟩ := taken
          rw [(getkeyblock_some hpoll).1]
          by_cases hreturn : key = returnKey
          · subst hreturn
            rw [realineLoop, hsize, if_neg hfull, hpoll, Option.bind_some] at hrun
            dsimp only at hrun
            rw [if_pos rfl] at hrun
            cases hrun
            rw [lineRest_return hfull, lineKeys_return hfull, List.append_nil]
            exact ⟨rfl, fun _ => rfl⟩
          · obtain ⟨memory, hround⟩ :=
              @realineLoop_takes out max size fuel echo line polls key input hmax hword (by omega) hpoll hreturn
            rw [hround] at hrun
            have hlength : (typeKey line key).length ≤ size := by
              unfold typeKey
              split
              · rw [List.length_dropLast]
                omega
              · rw [List.length_append, List.length_singleton]
                omega
            obtain ⟨hrest, hput⟩ := ih hlength hrun
            rw [lineRest_key hfull hreturn, lineKeys_key hfull hreturn]
            refine ⟨hrest, fun hecho => ?_⟩
            rw [hput hecho, hecho, if_pos rfl, List.append_assoc]
            rfl

/-- A call takes the keys of its line. -/
theorem bimbleosTerminalRealine_takes (hmax : 2 ≤ max) (hword : max < 4294967296)
    (hrun : bimbleosTerminalRealine out max echo input = some input') :
    keysOf input'.polls = lineRest typeKey (max - 1) [] (keysOf input.polls) ∧
      (echo = true → input'.put = input.put ++ lineKeys typeKey (max - 1) [] (keysOf input.polls)) := by
  unfold bimbleosTerminalRealine at hrun
  obtain ⟨⟨i, input''⟩, hloop, rfl⟩ := Option.map_eq_some_iff.mp hrun
  exact @realineLoop_keys out max (max - 1) _ i echo [] input input'' (by omega) hword (Nat.zero_le _) hloop

/-- **A call reads a line** out of the keys, echoes its keys and leaves the others, or waits for the line to be
    complete. -/
theorem bimbleosTerminalRealine_line (hmax : 2 ≤ max) (hword : max < 4294967296)
    (hpairs : PairsUp (max - 1) false 0 (keysOf input.polls)) :
    (lineRun editKey (max - 1) [] (keysOf input.polls) = none → bimbleosTerminalRealine out max echo input = none) ∧
    ∀ line, lineRun editKey (max - 1) [] (keysOf input.polls) = some line →
      ∃ input', bimbleosTerminalRealine out max echo input = some input' ∧ HoldsString input'.out.memory out line ∧
        backspaceKey ∉ line ∧ keysOf input'.polls = lineRest editKey (max - 1) [] (keysOf input.polls) ∧
        (echo = true → input'.put = input.put ++ lineKeys editKey (max - 1) [] (keysOf input.polls)) := by
  obtain ⟨hwait, hreturns⟩ := @bimbleosTerminalRealine_typed out max echo input hmax hword
  have hedited := (@lineRun_typeKey_iff (max - 1) false [] (keysOf input.polls) List.not_mem_nil).mpr hpairs
  refine ⟨fun hnone => hwait ?_, fun line hline => ?_⟩
  · cases htyped : lineRun typeKey (max - 1) [] (keysOf input.polls) with
    | none => rfl
    | some typed => exact absurd (hnone.symm.trans (hedited typed htyped).1) (by simp)
  · have hsome := @lineRun_typeKey_isSome (max - 1) false [] (keysOf input.polls) (by rw [hline]; rfl)
    obtain ⟨typed, htyped⟩ := Option.isSome_iff_exists.mp hsome
    obtain ⟨hline', hback⟩ := hedited typed htyped
    obtain rfl : typed = line := Option.some.inj (hline'.symm.trans hline)
    obtain ⟨input', hrun, hholds, _⟩ := hreturns typed htyped
    have htakes := bimbleosTerminalRealine_takes hmax hword hrun
    obtain ⟨hrest, hkeys⟩ := @lineRest_typeKey (max - 1) false [] (keysOf input.polls) hpairs
    rw [show stray false ++ [] = ([] : List (BitVec 8)) from rfl] at hrest hkeys
    rw [hrest, hkeys] at htakes
    exact ⟨input', hrun, hholds, hback, htakes⟩

end Takes

end BimbleOS.Stdlib
