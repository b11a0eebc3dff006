import BimbleOS.Lib.CString

/-!
# `Lib.Writes` — string copies that record where they write

`strcpy` and `strncpy` on a memory that keeps the addresses of its writes, in order. A copy that reads ahead of what
it writes copies the string; it has written the bytes from the destination to the end of the string, with its zero.
-/

namespace Bytes

/-- A memory, with the addresses that were written. -/
structure Writes where
  memory : Mem
  written : List Nat := []

namespace Writes

/-- `*a = v`. -/
def store (w : Writes) (a : Nat) (v : BitVec 8) : Writes where
  memory := Function.update w.memory a v
  written := w.written ++ [a]

@[simp] theorem memory_store (w : Writes) (a : Nat) (v : BitVec 8) :
    (w.store a v).memory = Function.update w.memory a v := rfl

@[simp] theorem written_store (w : Writes) (a : Nat) (v : BitVec 8) : (w.store a v).written = w.written ++ [a] := rfl

/-- `strcpy(dest, "…")`: the characters of the literal, and the zero behind them. -/
def storeString : Writes → Nat → List (BitVec 8) → Writes
  | w, dest, [] => w.store dest 0
  | w, dest, c :: s => (w.store dest c).storeString (dest + 1) s

/-- The loop of `strcpy`, with `left` bytes to the end of the address space. -/
def strcpyLoop : Nat → Nat → Nat → Writes → Option Writes
  | 0, _, _, _ => none
  | left + 1, dest, src, w =>
      if w.memory src = 0 then some (w.store dest 0)
      else strcpyLoop left (dest + 1) (src + 1) (w.store dest (w.memory src))

/-- `strcpy`. -/
def strcpy (w : Writes) (dest src : Nat) : Option Writes := strcpyLoop (4294967296 - src) dest src w

/-- The loop of `strncpy`. -/
def strncpyLoop (dest src : Nat) : Nat → Nat → Writes → Writes
  | 0, i, w => w.store (dest + i) 0
  | left + 1, i, w =>
      if w.memory (src + i) = 0 then w.store (dest + i) 0
      else strncpyLoop dest src left (i + 1) (w.store (dest + i) (w.memory (src + i)))

/-- `strncpy`. -/
def strncpy (w : Writes) (dest src count : Nat) : Writes := strncpyLoop dest src (count - 1) 0 w

/-- `w'` is `w` after some more stores. -/
structure Follows (w w' : Writes) : Prop where
  written : ∀ a ∈ w.written, a ∈ w'.written
  memory : ∀ a, a ∉ w'.written → w'.memory a = w.memory a

theorem Follows.refl (w : Writes) : Follows w w where
  written _ ha := ha
  memory _ _ := rfl

theorem Follows.trans {w w' w'' : Writes} (h : Follows w w') (h' : Follows w' w'') : Follows w w'' where
  written a ha := h'.written a (h.written a ha)
  memory a ha := (h'.memory a ha).trans (h.memory a fun hin => ha (h'.written a hin))

theorem Follows.store (w : Writes) (b : Nat) (v : BitVec 8) : Follows w (w.store b v) where
  written a ha := List.mem_append_left _ ha
  memory a ha := by
    apply Function.update_of_ne
    rintro rfl
    exact ha (List.mem_append_right _ (List.mem_singleton_self a))

/-- `s` and its zero have been written at `dest`. -/
structure Copied (w w' : Writes) (dest : Nat) (s : List (BitVec 8)) : Prop where
  written : w'.written = w.written ++ List.range' dest (s.length + 1)
  holds : HoldsString w'.memory dest s
  outside : ∀ a, a < dest ∨ dest + s.length < a → w'.memory a = w.memory a

section Copies

variable {w w' : Writes} {dest src left i count : Nat} {c : BitVec 8} {s : List (BitVec 8)}

/-- The end of a copy. -/
theorem Copied.nil : Copied w (w.store dest 0) dest [] where
  written := rfl
  holds := Function.update_self ..
  outside := by
    intro a ha
    exact Function.update_of_ne (by rw [List.length_nil] at ha; omega) ..

/-- One more character in front. -/
theorem Copied.cons (h : Copied (w.store dest c) w' (dest + 1) s) (hne : c ≠ 0) : Copied w w' dest (c :: s) where
  written := by
    rw [h.written, written_store, List.length_cons, List.range'_succ, List.append_assoc]
    rfl
  holds := by
    refine ⟨?_, hne, h.holds⟩
    rw [h.outside dest (by omega)]
    exact Function.update_self ..
  outside := by
    intro a ha
    rw [List.length_cons] at ha
    rw [h.outside a (by omega)]
    exact Function.update_of_ne (by omega) ..

theorem storeString_copied (hs : ∀ c ∈ s, c ≠ 0) : Copied w (w.storeString dest s) dest s := by
  induction s generalizing w dest with
  | nil => exact .nil
  | cons c s ih =>
      apply Copied.cons
      · exact ih fun b hb => hs b (List.mem_cons_of_mem _ hb)
      · exact hs c List.mem_cons_self

/-- `strcpy` that reads ahead of its writes. -/
theorem strcpyLoop_copied (hs : HoldsString w.memory src s) (hleft : s.length < left)
    (hahead : ∀ j j', j' < j → j ≤ s.length → src + j ≠ dest + j') :
    ∃ w', strcpyLoop left dest src w = some w' ∧ Copied w w' dest s := by
  induction s generalizing w dest src left with
  | nil =>
      obtain ⟨left, rfl⟩ := Nat.exists_eq_succ_of_ne_zero (Nat.ne_of_gt hleft)
      refine ⟨w.store dest 0, ?_, .nil⟩
      exact if_pos hs
  | cons c s ih =>
      obtain ⟨hc, hne, hrest⟩ := hs
      rw [List.length_cons] at hleft hahead
      obtain ⟨left, rfl⟩ := Nat.exists_eq_succ_of_ne_zero (Nat.ne_of_gt (Nat.lt_of_le_of_lt (Nat.zero_le _) hleft))
      -- the write does not touch what is still to be read
      have hkept : HoldsString (w.store dest c).memory (src + 1) s := by
        apply hrest.congr_within
        intro b hlo hhi
        apply Function.update_of_ne
        have hother := hahead (b - src) 0 (by omega) (by omega)
        omega
      obtain ⟨w', hrun, hcopied⟩ := @ih (w.store dest c) (dest + 1) (src + 1) left hkept (by omega) (by
        intro j j' hj hlen
        have hother := hahead (j + 1) (j' + 1) (by omega) (by omega)
        omega)
      refine ⟨w', ?_, hcopied.cons hne⟩
      rw [strcpyLoop, hc, if_neg hne]
      exact hrun

/-- `strncpy` that reads ahead of its writes. -/
theorem strncpyLoop_copied (hahead : ∀ j j', j' < j → j < i + left → src + j ≠ dest + j') :
    Copied w (strncpyLoop dest src left i w) (dest + i) (stringAt w.memory (src + i) left) := by
  induction left generalizing w i with
  | zero => exact .nil
  | succ left ih =>
      by_cases hzero : w.memory (src + i) = 0
      · rw [stringAt_nil hzero, strncpyLoop, if_pos hzero]
        exact .nil
      · rw [stringAt_cons hzero, strncpyLoop, if_neg hzero]
        have hcopied := @ih (w.store (dest + i) (w.memory (src + i))) (i + 1) (by
          intro j j' hj hlt
          exact hahead j j' hj (by omega))
        -- the write does not touch what is still to be read
        have hkept : stringAt (w.store (dest + i) (w.memory (src + i))).memory (src + (i + 1)) left
            = stringAt w.memory (src + i + 1) left := by
          apply stringAt_congr
          intro j hj
          have hother := hahead (i + 1 + j) i (by omega) (by omega)
          rw [memory_store, show src + (i + 1) + j = src + i + 1 + j by omega]
          exact Function.update_of_ne (by omega) ..
        rw [hkept] at hcopied
        exact hcopied.cons hzero

theorem strncpy_copied (hahead : ∀ j j', j' < j → j < count - 1 → src + j ≠ dest + j') :
    Copied w (w.strncpy dest src count) dest (stringAt w.memory src (count - 1)) := by
  have hcopied := @strncpyLoop_copied w dest src (count - 1) 0 (by rwa [Nat.zero_add])
  rwa [Nat.add_zero, Nat.add_zero] at hcopied

end Copies

end Writes

end Bytes
