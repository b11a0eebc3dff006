import Mathlib.Data.Nat.Basic
import Mathlib.Tactic.IntervalCases

/-!
# `Lib.Bytes` — byte-addressed little-endian memory

A memory gives every address a byte; `load32` and `store32` are the dword accesses over it. The lemmas
say what a load reads after a store: the stored value, or what was there before when the two dwords do
not overlap.
-/

namespace Bytes

/-- Every address holds a byte. -/
abbrev Mem := Nat → BitVec 8

/-- The little-endian word of two bytes. -/
def load16 (m : Mem) (a : Nat) : BitVec 16 :=
  BitVec.ofNat 16 ((m a).toNat + 256 * (m (a + 1)).toNat)

/-- The little-endian dword of four bytes. -/
def load32 (m : Mem) (a : Nat) : BitVec 32 :=
  BitVec.ofNat 32 ((m a).toNat + 256 * (m (a + 1)).toNat + 65536 * (m (a + 2)).toNat
    + 16777216 * (m (a + 3)).toNat)

/-- Write the four bytes of a dword. -/
def store32 (m : Mem) (a : Nat) (v : BitVec 32) : Mem := fun b =>
  if a ≤ b ∧ b < a + 4 then BitVec.ofNat 8 (v.toNat / 256 ^ (b - a)) else m b

/-- Write a list of bytes. -/
def storeBytes (m : Mem) (a : Nat) (bytes : List (BitVec 8)) : Mem := fun b =>
  if a ≤ b ∧ b < a + bytes.length then bytes.getD (b - a) 0 else m b

/-- `memset`. -/
def fill (m : Mem) (a n : Nat) (v : BitVec 8) : Mem := fun b => if a ≤ b ∧ b < a + n then v else m b

variable {m m' : Mem} {a b : Nat} {v : BitVec 32}

theorem store32_of_outside (h : b < a ∨ a + 4 ≤ b) : store32 m a v b = m b :=
  if_neg (by omega)

theorem load16_congr (h : ∀ i, i < 2 → m' (a + i) = m (a + i)) : load16 m' a = load16 m a := by
  have h0 := h 0 (by omega)
  have h1 := h 1 (by omega)
  rw [Nat.add_zero] at h0
  unfold load16
  rw [h0, h1]

theorem load32_congr (h : ∀ i, i < 4 → m' (a + i) = m (b + i)) : load32 m' a = load32 m b := by
  have h0 := h 0 (by omega)
  have h1 := h 1 (by omega)
  have h2 := h 2 (by omega)
  have h3 := h 3 (by omega)
  rw [Nat.add_zero, Nat.add_zero] at h0
  unfold load32
  rw [h0, h1, h2, h3]

/-- Loads from a list of bytes that lies in memory at `a`. -/
theorem load32_of_image {bytes : List (BitVec 8)} {n i : Nat} (h : ∀ j, j < n → m (a + j) = bytes.getD j 0)
    (hi : i + 4 ≤ n) : load32 m (a + i) = load32 (fun j => bytes.getD j 0) i := by
  unfold load32
  simp only [Nat.add_assoc]
  rw [h i (by omega), h (i + 1) (by omega), h (i + 2) (by omega), h (i + 3) (by omega)]

theorem load16_of_image {bytes : List (BitVec 8)} {n i : Nat} (h : ∀ j, j < n → m (a + j) = bytes.getD j 0)
    (hi : i + 2 ≤ n) : load16 m (a + i) = load16 (fun j => bytes.getD j 0) i := by
  unfold load16
  simp only [Nat.add_assoc]
  rw [h i (by omega), h (i + 1) (by omega)]

/-- A load of the dword just stored. -/
theorem load32_store32 : load32 (store32 m a v) a = v := by
  have hbyte : ∀ i, i < 4 → store32 m a v (a + i) = BitVec.ofNat 8 (v.toNat / 256 ^ i) := by
    intro i hi
    unfold store32
    rw [if_pos (by omega), Nat.add_sub_cancel_left]
  have h0 := hbyte 0 (by omega)
  have h1 := hbyte 1 (by omega)
  have h2 := hbyte 2 (by omega)
  have h3 := hbyte 3 (by omega)
  rw [Nat.add_zero] at h0
  apply BitVec.eq_of_toNat_eq
  unfold load32
  rw [h0, h1, h2, h3]
  simp only [BitVec.toNat_ofNat]
  have hv := v.isLt
  omega

/-- A load beside the dword just stored. -/
theorem load32_store32_of_apart (h : b + 4 ≤ a ∨ a + 4 ≤ b) :
    load32 (store32 m a v) b = load32 m b := by
  refine load32_congr fun i hi => store32_of_outside ?_
  omega

end Bytes
