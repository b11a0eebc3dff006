import Mathlib.Data.List.Basic
import Mathlib.Data.List.Range

/-!
# `Lib.Window` — finite windows of an indexed sequence

`window f s n` is the list of `f s, …, f (s + n - 1)`. Reading a range piece by piece is splitting its
window; two windows of one length agree exactly when they agree at every index.
-/

namespace Window

variable {α : Type}

/-- The values of `f` at `start`, …, `start + len - 1`. -/
def window (f : Nat → α) (start len : Nat) : List α :=
  (List.range len).map (fun i => f (start + i))

variable {f g : Nat → α} {s t a b n : Nat}

@[simp] theorem window_zero : window f s 0 = [] := rfl

@[simp] theorem length_window : (window f s n).length = n := by
  unfold window
  rw [List.length_map, List.length_range]

/-- A window in two pieces. -/
theorem window_add : window f s (a + b) = window f s a ++ window f (s + a) b := by
  unfold window
  rw [List.range_add, List.map_append, List.map_map]
  congr 1
  refine List.map_congr_left fun i _ => ?_
  show f (s + (a + i)) = f (s + a + i)
  rw [Nat.add_assoc]

theorem window_succ : window f s (n + 1) = f s :: window f (s + 1) n := by
  rw [Nat.add_comm n 1, window_add]
  rfl

theorem getElem?_window {i : Nat} (hi : i < n) : (window f s n)[i]? = some (f (s + i)) := by
  unfold window
  rw [List.getElem?_map, List.getElem?_range hi]
  rfl

/-- Two windows of one length agree exactly when they agree at every index. -/
theorem window_inj : window f s n = window g t n ↔ ∀ i, i < n → f (s + i) = g (t + i) := by
  unfold window
  rw [List.map_inj_left]
  exact forall_congr' fun i => by rw [List.mem_range]

theorem forall_mem_window {p : α → Prop} : (∀ x ∈ window f s n, p x) ↔ ∀ i, i < n → p (f (s + i)) := by
  unfold window
  rw [List.forall_mem_map]
  exact forall_congr' fun i => by rw [List.mem_range]

/-- An element of a window. -/
theorem getD_window {i : Nat} {d : α} (h : i < n) : (window f s n).getD i d = f (s + i) := by
  unfold window
  rw [List.getD_eq_getElem?_getD, List.getElem?_map, List.getElem?_range h]
  rfl

end Window
