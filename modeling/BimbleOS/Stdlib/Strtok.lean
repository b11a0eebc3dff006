import BimbleOS.Lib.Access
import BimbleOS.Lib.CString
import Mathlib.Logic.Function.Basic

/-!
# `Stdlib.Strtok` — the tokenizer of `programs/stdlib/src/string.c`

`strtok` cuts a string into tokens by writing zeros over delimiters, and keeps its place between two calls in
the global `sp`. A new string is only taken up when `sp` is null. `strtok_spec` says what a call does to a
string that is in memory: it returns the first of its pieces, and `sp` is left at a string that has the
others. `strtokOn` is `strtok` on a memory that records where it is read and written (`strtokOn_eq`).
-/

namespace BimbleOS.Stdlib

open Bytes

/-- The loop of `strtok` over the delimiters in front of a token. Like the next one, it may only stop
    because the address space ends. -/
def strtokSkip (m : Mem) (deliminators : List (BitVec 8)) : Nat → Nat → Option Nat
  | 0, _ => none
  | fuel + 1, pStart =>
      if m pStart ∈ deliminators then strtokSkip m deliminators fuel (pStart + 1) else some pStart

/-- The loop of `strtok` that looks for the end of the token: the memory and the new `sp`. -/
def strtokEnd (deliminators : List (BitVec 8)) (m : Mem) : Nat → Nat → Option (Mem × Nat)
  | 0, _ => none
  | fuel + 1, sp =>
      if m sp = 0 then some (m, sp)
      else if m sp ∈ deliminators then some (Function.update m sp 0, sp + 1)
      else strtokEnd deliminators m fuel (sp + 1)

/-- The size of the address space. -/
def addressSpace : Nat := 4294967296

/-- `strtok`: the token, the memory and `sp`. -/
def strtok (str : Nat) (deliminators : List (BitVec 8)) (m : Mem) (sp : Nat) : Option (Nat × Mem × Nat) :=
  if str = 0 ∧ sp = 0 then some (0, m, sp)
  else
    let sp := if str ≠ 0 ∧ sp = 0 then str else sp
    (strtokSkip m deliminators addressSpace sp).bind fun pStart =>
      if m pStart = 0 then some (0, m, 0)
      else (strtokEnd deliminators m addressSpace pStart).map fun (m, sp) => (pStart, m, sp)

/-! ## The accesses of `strtok` -/

/-- `strtokSkip` with its reads. -/
def strtokSkipOn (deliminators : List (BitVec 8)) : Nat → Nat → Access → Option (Nat × Access)
  | 0, _, _ => none
  | fuel + 1, pStart, w =>
      if w.memory pStart ∈ deliminators then strtokSkipOn deliminators fuel (pStart + 1) (w.touch pStart)
      else some (pStart, w.touch pStart)

/-- `strtokEnd` with its reads and its write. -/
def strtokEndOn (deliminators : List (BitVec 8)) : Nat → Nat → Access → Option (Nat × Access)
  | 0, _, _ => none
  | fuel + 1, sp, w =>
      if w.memory sp = 0 then some (sp, w.touch sp)
      else if w.memory sp ∈ deliminators then some (sp + 1, (w.touch sp).store sp 0)
      else strtokEndOn deliminators fuel (sp + 1) (w.touch sp)

/-- `strtok` with its accesses: the token, the memory and `sp`. -/
def strtokOn (str : Nat) (deliminators : List (BitVec 8)) (w : Access) (sp : Nat) : Option (Nat × Access × Nat) :=
  if str = 0 ∧ sp = 0 then some (0, w, sp)
  else
    let sp := if str ≠ 0 ∧ sp = 0 then str else sp
    (strtokSkipOn deliminators addressSpace sp w).bind fun (pStart, w) =>
      if w.memory pStart = 0 then some (0, w.touch pStart, 0)
      else (strtokEndOn deliminators addressSpace pStart (w.touch pStart)).map fun (sp, w) => (pStart, w, sp)

section Erase

variable {d : List (BitVec 8)} {w : Access} {p sp str fuel : Nat}

theorem strtokSkipOn_eq : strtokSkip w.memory d fuel p = (strtokSkipOn d fuel p w).map fun r => r.1 := by
  induction fuel generalizing p w with
  | zero => rfl
  | succ fuel ih =>
      have hnext := @ih (w.touch p) (p + 1)
      unfold strtokSkip strtokSkipOn
      by_cases hd : w.memory p ∈ d
      · rw [if_pos hd, if_pos hd]
        exact hnext
      · rw [if_neg hd, if_neg hd]
        rfl

/-- Skipping does not write. -/
theorem strtokSkipOn_memory {q : Nat} {w' : Access} (hrun : strtokSkipOn d fuel p w = some (q, w')) :
    w'.memory = w.memory := by
  induction fuel generalizing p w with
  | zero => cases hrun
  | succ fuel ih =>
      unfold strtokSkipOn at hrun
      split at hrun
      · exact (ih hrun).trans rfl
      · cases hrun
        rfl

theorem strtokEndOn_eq :
    strtokEnd d w.memory fuel p = (strtokEndOn d fuel p w).map fun r => (r.2.memory, r.1) := by
  induction fuel generalizing p w with
  | zero => rfl
  | succ fuel ih =>
      have hnext := @ih (w.touch p) (p + 1)
      unfold strtokEnd strtokEndOn
      by_cases hzero : w.memory p = 0
      · rw [if_pos hzero, if_pos hzero]
        rfl
      rw [if_neg hzero, if_neg hzero]
      by_cases hd : w.memory p ∈ d
      · rw [if_pos hd, if_pos hd]
        rfl
      · rw [if_neg hd, if_neg hd]
        exact hnext

/-- Without the record it is `strtok`. -/
theorem strtokOn_eq : strtok str d w.memory sp = (strtokOn str d w sp).map fun r => (r.1, r.2.1.memory, r.2.2) := by
  unfold strtok strtokOn
  split
  · rfl
  generalize (if str ≠ 0 ∧ sp = 0 then str else sp) = place
  dsimp only
  rw [strtokSkipOn_eq]
  rcases hskip : strtokSkipOn d addressSpace place w with _ | ⟨pStart, w₁⟩
  · rfl
  have hmem := strtokSkipOn_memory hskip
  simp only [Option.map_some, Option.bind_some]
  rw [← hmem]
  by_cases hzero : w₁.memory pStart = 0
  · rw [if_pos hzero, if_pos hzero]
    rfl
  · have hend := @strtokEndOn_eq d (w₁.touch pStart) pStart addressSpace
    rw [Access.memory_touch] at hend
    rw [if_neg hzero, if_neg hzero, hend, Option.map_map, Option.map_map]
    rfl

end Erase

/-! ## The pieces of a string -/

/-- The maximal pieces without a space. -/
def pieces (s : List (BitVec 8)) : List (List (BitVec 8)) := (s.splitOn 0x20).filter fun w => w ≠ []

section Pieces

variable {s w : List (BitVec 8)}

theorem pieces_nil : pieces [] = [] := by decide

theorem pieces_space : pieces (0x20 :: s) = pieces s := by
  have hsplit : (0x20 :: s).splitOn (0x20 : BitVec 8) = [] :: s.splitOn 0x20 :=
    List.splitOn_append_cons_self_of_not_mem List.not_mem_nil s
  unfold pieces
  rw [hsplit]
  exact List.filter_cons_of_neg (by simp)

theorem pieces_dropWhile : pieces (s.dropWhile fun c => c = 0x20) = pieces s := by
  induction s with
  | nil => rfl
  | cons c s ih =>
      by_cases hc : c = 0x20
      · rw [List.dropWhile_cons_of_pos (by simpa using hc), ih, hc, pieces_space]
      · rw [List.dropWhile_cons_of_neg (by simpa using hc)]

/-- The first word goes up to a space, or to the end. -/
theorem pieces_word {c : BitVec 8} (hc : c ≠ 0x20) : pieces (c :: s)
    = (c :: s).takeWhile (fun c => c ≠ 0x20) :: pieces ((c :: s).dropWhile fun c => c ≠ 0x20).tail := by
  have hparts := List.takeWhile_append_dropWhile (p := fun c : BitVec 8 => decide (c ≠ 0x20)) (l := c :: s)
  have hne : (c :: s).takeWhile (fun c => decide (c ≠ 0x20)) ≠ [] := by
    rw [List.takeWhile_cons_of_pos (by simpa using hc)]
    exact List.cons_ne_nil _ _
  have hword : (0x20 : BitVec 8) ∉ (c :: s).takeWhile (fun c => decide (c ≠ 0x20)) := by
    intro hmem
    have hall := List.all_takeWhile (p := fun c : BitVec 8 => decide (c ≠ 0x20)) (l := c :: s)
    simpa using List.all_eq_true.mp hall _ hmem
  generalize (c :: s).takeWhile (fun c => decide (c ≠ 0x20)) = w at hparts hne hword
  rcases hrest : (c :: s).dropWhile (fun c => decide (c ≠ 0x20)) with _ | ⟨d, rest⟩
  · rw [hrest, List.append_nil] at hparts
    rw [← hparts, List.tail_nil, pieces_nil]
    unfold pieces
    rw [List.splitOn_eq_singleton hword]
    exact List.filter_cons_of_pos (by simpa using hne)
  · have hd : d = 0x20 := by
      have hhead := List.head_dropWhile_not (p := fun c : BitVec 8 => decide (c ≠ 0x20))
        (l := c :: s) (by rw [hrest]; exact List.cons_ne_nil _ _)
      simp only [hrest, List.head_cons] at hhead
      simpa using hhead
    rw [hrest, hd] at hparts
    rw [← hparts, List.tail_cons]
    unfold pieces
    rw [List.splitOn_append_cons_self_of_not_mem hword]
    exact List.filter_cons_of_pos (by simpa using hne)

end Pieces

/-! ## What `strtok` does to a string -/

section Strtok

variable {m : Mem} {p fuel : Nat} {s : List (BitVec 8)}

/-- The first loop skips the spaces in front. -/
theorem strtokSkip_spec (h : HoldsString m p s) (hfuel : s.length < fuel) :
    ∃ n, strtokSkip m [0x20] fuel p = some (p + n) ∧
      HoldsString m (p + n) (s.dropWhile fun c => c = 0x20) := by
  induction fuel generalizing p s with
  | zero => exact absurd hfuel (Nat.not_lt_zero _)
  | succ fuel ih =>
      unfold strtokSkip
      cases s with
      | nil =>
          have hzero : m p = 0 := h
          have hout : ¬ m p ∈ [(0x20 : BitVec 8)] := by
            rw [hzero]
            decide
          rw [if_neg hout]
          exact ⟨0, rfl, h⟩
      | cons c s =>
          obtain ⟨hc, hne, hrest⟩ := h
          by_cases hspace : c = 0x20
          · rw [if_pos (by rw [hc, hspace]; exact List.mem_cons_self),
              List.dropWhile_cons_of_pos (by simpa using hspace)]
            obtain ⟨n, hrun, hstring⟩ := ih hrest (by simpa using hfuel)
            refine ⟨n + 1, ?_, ?_⟩
            · rw [hrun, Nat.add_comm n 1, Nat.add_assoc]
            · rw [Nat.add_comm n 1, ← Nat.add_assoc]
              exact hstring
          · rw [if_neg (by rw [hc]; simpa using hspace), List.dropWhile_cons_of_neg (by simpa using hspace)]
            exact ⟨0, rfl, hc, hne, hrest⟩

/-- The second loop ends the token. What lies in front of it is not touched. -/
theorem strtokEnd_spec (h : HoldsString m p s) (hfuel : s.length < fuel) :
    ∃ m' sp, strtokEnd [0x20] m fuel p = some (m', sp) ∧ p ≤ sp ∧ (∀ a, a < p → m' a = m a) ∧
      HoldsString m' p (s.takeWhile fun c => c ≠ 0x20) ∧
      HoldsString m' sp (s.dropWhile fun c => c ≠ 0x20).tail := by
  induction fuel generalizing p s with
  | zero => exact absurd hfuel (Nat.not_lt_zero _)
  | succ fuel ih =>
      unfold strtokEnd
      cases s with
      | nil =>
          have hzero : m p = 0 := h
          rw [if_pos hzero]
          exact ⟨m, p, rfl, Nat.le_refl p, fun _ _ => rfl, h, h⟩
      | cons c s =>
          obtain ⟨hc, hne, hrest⟩ := h
          rw [if_neg (by rwa [hc])]
          by_cases hspace : c = 0x20
          · rw [if_pos (by rw [hc, hspace]; exact List.mem_cons_self),
              List.takeWhile_cons_of_neg (by simpa using hspace),
              List.dropWhile_cons_of_neg (by simpa using hspace)]
            refine ⟨_, _, rfl, Nat.le_succ p, fun a ha => ?_, Function.update_self .., ?_⟩
            · exact Function.update_of_ne (Nat.ne_of_lt ha) _ _
            · exact hrest.congr fun b hb => Function.update_of_ne (by omega) _ _
          · rw [if_neg (by rw [hc]; simpa using hspace), List.takeWhile_cons_of_pos (by simpa using hspace),
              List.dropWhile_cons_of_pos (by simpa using hspace)]
            obtain ⟨m', sp, hrun, hle, hkept, hword, hstring⟩ := ih hrest (by simpa using hfuel)
            refine ⟨m', sp, hrun, by omega, fun a ha => hkept a (by omega), ⟨?_, hne, hword⟩, hstring⟩
            rw [hkept p (Nat.lt_succ_self p), hc]

/-- What a call of `strtok` returns for a string with the pieces `ws`. -/
inductive TokenOf (r : Nat × Mem × Nat) : List (List (BitVec 8)) → Prop where
  | none : r.1 = 0 → r.2.2 = 0 → TokenOf r []
  | some {w : List (BitVec 8)} {rest : List (BitVec 8)} : r.1 ≠ 0 → r.2.2 ≠ 0 → HoldsString r.2.1 r.1 w →
      HoldsString r.2.1 r.2.2 rest → rest.length < addressSpace → TokenOf r (w :: pieces rest)

/-- **`strtok` returns the first piece** of the string that `sp` points at, or of `str` when `sp` is null. -/
theorem strtok_spec {str sp : Nat} (hp : p ≠ 0) (hstart : (str = p ∧ sp = 0) ∨ sp = p) (h : HoldsString m p s)
    (hlen : s.length < addressSpace) :
    ∃ r, strtok str [0x20] m sp = some r ∧ TokenOf r (pieces s) := by
  have hcall : ¬ (str = 0 ∧ sp = 0) := by omega
  have hplace : (if str ≠ 0 ∧ sp = 0 then str else sp) = p := by
    split
    · omega
    · omega
  obtain ⟨n, hskip, hrest⟩ := strtokSkip_spec h hlen
  unfold strtok
  rw [if_neg hcall]
  simp only [hplace, hskip, Option.bind_some]
  have hshort : (s.dropWhile fun c => c = 0x20).length ≤ s.length := (List.dropWhile_suffix _).length_le
  rw [← pieces_dropWhile]
  rcases hword : s.dropWhile (fun c => decide (c = 0x20)) with _ | ⟨c, s'⟩
  · rw [hword] at hrest
    have hzero : m (p + n) = 0 := hrest
    rw [if_pos hzero, pieces_nil]
    exact ⟨_, rfl, .none rfl rfl⟩
  · rw [hword] at hrest hshort
    have hc : c ≠ 0x20 := by
      have hhead := List.head_dropWhile_not (p := fun c : BitVec 8 => decide (c = 0x20))
        (l := s) (by rw [hword]; exact List.cons_ne_nil _ _)
      simp only [hword, List.head_cons] at hhead
      simpa using hhead
    have hne : m (p + n) ≠ 0 := by
      rw [hrest.1]
      exact hrest.2.1
    obtain ⟨m', sp', hrun, hle, _, htoken, hstring⟩ := strtokEnd_spec hrest (Nat.lt_of_le_of_lt hshort hlen)
    have htail : ((c :: s').dropWhile fun c => decide (c ≠ 0x20)).tail.length ≤ (c :: s').length :=
      Nat.le_trans (List.tail_sublist _).length_le (List.dropWhile_suffix _).length_le
    rw [if_neg hne, hrun, pieces_word hc]
    exact ⟨_, rfl, .some (by show p + n ≠ 0; omega) (by show sp' ≠ 0; omega) htoken hstring
      (Nat.lt_of_le_of_lt (Nat.le_trans htail hshort) hlen)⟩

/-- The first call for a string, with `sp` null. -/
theorem strtok_first (hp : p ≠ 0) (h : HoldsString m p s) (hlen : s.length < addressSpace) :
    ∃ r, strtok p [0x20] m 0 = some r ∧ TokenOf r (pieces s) := strtok_spec hp (Or.inl ⟨rfl, rfl⟩) h hlen

/-- A later call, with the null pointer for the string. -/
theorem strtok_next (hp : p ≠ 0) (h : HoldsString m p s) (hlen : s.length < addressSpace) :
    ∃ r, strtok 0 [0x20] m p = some r ∧ TokenOf r (pieces s) := strtok_spec hp (Or.inr rfl) h hlen

end Strtok

end BimbleOS.Stdlib
