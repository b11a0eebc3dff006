import BimbleOS.Lib.Bytes
import Mathlib.Logic.Function.Basic

/-!
# `Lib.Access` — memory that records its accesses

A memory that keeps the addresses it was read and written at. `Within lo hi` says that all of them are between two
addresses; an operation that only goes to addresses between them keeps it.
-/

namespace Bytes

/-- A memory, with the addresses that were read or written. -/
structure Access where
  memory : Mem
  touched : List Nat := []

namespace Access

/-- The byte at `a` is read. -/
def touch (w : Access) (a : Nat) : Access where
  memory := w.memory
  touched := w.touched ++ [a]

/-- `*a = v`. -/
def store (w : Access) (a : Nat) (v : BitVec 8) : Access where
  memory := Function.update w.memory a v
  touched := w.touched ++ [a]

/-- All accesses were from `lo` to `hi`. -/
def Within (w : Access) (lo hi : Nat) : Prop := ∀ a ∈ w.touched, lo ≤ a ∧ a ≤ hi

variable {w : Access} {a lo hi : Nat} {v : BitVec 8}

@[simp] theorem memory_touch : (w.touch a).memory = w.memory := rfl

theorem Within.touch (h : w.Within lo hi) (hlo : lo ≤ a) (hhi : a ≤ hi) : (w.touch a).Within lo hi := by
  intro b hb
  rcases List.mem_append.mp hb with hold | hnew
  · exact h b hold
  · rw [List.mem_singleton.mp hnew]
    exact ⟨hlo, hhi⟩

theorem Within.store (h : w.Within lo hi) (hlo : lo ≤ a) (hhi : a ≤ hi) : (w.store a v).Within lo hi :=
  Within.touch h hlo hhi

end Access

end Bytes
