import Mathlib.Data.List.Basic
import Mathlib.Data.Nat.ModEq
import Mathlib.Logic.Function.Basic

/-!
# `Lib.Ring` — a queue in a circular buffer that marks its free slots

The buffer has `n` slots; the queue starts at slot `head % n` and runs upwards, round the end. A slot
that the queue does not use holds the value `empty`, which no element of the queue has. Emptiness of the
queue and room in the buffer can therefore be read off the two slots at its ends.
-/

namespace Ring

variable {α : Type}

/-- The buffer holds the queue `xs` from slot `head % n` on, and `empty` everywhere else. -/
structure Holds (n : Nat) (empty : α) (buffer : Nat → α) (head : Nat) (xs : List α) : Prop where
  room : xs.length ≤ n
  stored : ∀ i (h : i < xs.length), buffer ((head + i) % n) = xs[i]
  solid : ∀ x ∈ xs, x ≠ empty
  clear : ∀ i, xs.length ≤ i → i < n → buffer ((head + i) % n) = empty

variable {n head i j : Nat} {empty x : α} {buffer : Nat → α} {xs : List α}

/-- Slots at different distances from the head are different. -/
theorem slot_inj (hi : i < n) (hj : j < n) (h : (head + i) % n = (head + j) % n) : i = j :=
  Nat.ModEq.eq_of_lt_of_lt (Nat.ModEq.add_left_cancel' head h) hi hj

theorem Holds.nil (h : ∀ i, buffer i = empty) : Holds n empty buffer head [] where
  room := Nat.zero_le n
  stored := fun i hi => absurd hi (Nat.not_lt_zero i)
  solid := fun _ hx => absurd hx List.not_mem_nil
  clear := fun _ _ _ => h _

/-- The head counts modulo `n` only. -/
theorem Holds.congr_head {head' : Nat} (h : Holds n empty buffer head xs) (hmod : head' % n = head % n) :
    Holds n empty buffer head' xs := by
  have hslot : ∀ i, (head' + i) % n = (head + i) % n := fun i => Nat.ModEq.add_right i hmod
  refine ⟨h.room, fun i hi => ?_, h.solid, fun i hlo hhi => ?_⟩
  · rw [hslot]
    exact h.stored i hi
  · rw [hslot]
    exact h.clear i hlo hhi

/-- The slot at the head holds the first element. -/
theorem Holds.front_cons (h : Holds n empty buffer head (x :: xs)) : buffer (head % n) = x :=
  h.stored 0 (Nat.succ_pos _)

/-- The slot at the head tells whether the queue is empty. -/
theorem Holds.front_eq_empty_iff (hn : 0 < n) (h : Holds n empty buffer head xs) :
    buffer (head % n) = empty ↔ xs = [] := by
  cases xs with
  | nil => exact iff_of_true (h.clear 0 (Nat.le_refl 0) hn) rfl
  | cons x xs =>
      rw [h.front_cons]
      exact iff_of_false (h.solid x List.mem_cons_self) (List.cons_ne_nil x xs)

/-- The slot behind the queue tells whether there is room. -/
theorem Holds.back_eq_empty_iff (hn : 0 < n) (h : Holds n empty buffer head xs) :
    buffer ((head + xs.length) % n) = empty ↔ xs.length < n := by
  constructor
  · intro hback
    by_contra hfull
    have hlen : xs.length = n := Nat.le_antisymm h.room (Nat.le_of_not_lt hfull)
    rw [hlen, Nat.add_mod_right, h.front_eq_empty_iff hn] at hback
    subst hback
    exact Nat.lt_irrefl 0 (by rwa [← hlen] at hn)
  · intro hroom
    exact h.clear _ (Nat.le_refl _) hroom

/-- Appending an element in the slot behind the queue. -/
theorem Holds.push (h : Holds n empty buffer head xs) (hroom : xs.length < n) (hx : x ≠ empty) :
    Holds n empty (Function.update buffer ((head + xs.length) % n) x) head (xs ++ [x]) := by
  have hlen : (xs ++ [x]).length = xs.length + 1 := by simp
  refine ⟨by rw [hlen]; exact hroom, fun i hi => ?_, fun y hy => ?_, fun i hlo hhi => ?_⟩
  · rw [hlen] at hi
    by_cases hlast : i = xs.length
    · subst hlast
      simp
    · have hbefore : i < xs.length := by omega
      have hne : (head + i) % n ≠ (head + xs.length) % n := fun heq =>
        hlast (slot_inj (by omega) hroom heq)
      rw [Function.update_of_ne hne, h.stored i hbefore, List.getElem_append_left hbefore]
  · rcases List.mem_append.mp hy with hy | hy
    · exact h.solid y hy
    · rw [List.mem_singleton.mp hy]
      exact hx
  · rw [hlen] at hlo
    have hne : (head + i) % n ≠ (head + xs.length) % n := fun heq => by
      have := slot_inj hhi hroom heq
      omega
    rw [Function.update_of_ne hne]
    exact h.clear i (by omega) hhi

/-- Taking the first element and marking its slot free. -/
theorem Holds.pop (h : Holds n empty buffer head (x :: xs)) :
    Holds n empty (Function.update buffer (head % n) empty) (head + 1) xs := by
  have hroom : xs.length + 1 ≤ n := h.room
  have hslot : ∀ i, (head + 1 + i) % n = (head + (i + 1)) % n := fun i => by
    rw [Nat.add_right_comm, Nat.add_assoc]
  have hhead : ∀ i, 0 < i → i < n → (head + i) % n ≠ head % n := fun i hpos hi heq =>
    absurd (slot_inj (j := 0) hi (by omega) heq) (Nat.ne_of_gt hpos)
  refine ⟨by omega, fun i hi => ?_, fun y hy => h.solid y (List.mem_cons_of_mem x hy),
    fun i hlo hhi => ?_⟩
  · rw [hslot, Function.update_of_ne (hhead _ (Nat.succ_pos i) (by omega))]
    exact h.stored (i + 1) (Nat.succ_lt_succ hi)
  · rw [hslot]
    by_cases hwrap : i + 1 = n
    · -- the slot just freed
      rw [hwrap, Nat.add_mod_right, Function.update_self]
    · rw [Function.update_of_ne (hhead _ (Nat.succ_pos i) (by omega))]
      exact h.clear (i + 1) (Nat.succ_le_succ hlo) (by omega)

end Ring
