/-!
# `Lib.Word` — 32-bit C arithmetic on `Nat` and `Int`

The development keeps machine words as plain `Nat` (unsigned) and `Int` (signed) values and says
explicitly where a C expression wraps. `u32` is the conversion to a 32-bit unsigned type and `s32` the
conversion to a 32-bit signed type; both are written without a case split, so that `omega` can work
with them once they are unfolded. `checked` is signed arithmetic proper, which must not overflow.
-/

namespace CWord

/-- Conversion of an integer to a 32-bit unsigned type: the residue modulo `2^32`. -/
def u32 (x : Int) : Nat := (x % 4294967296).toNat

/-- Conversion of an integer to a 32-bit signed type (two's complement). -/
def s32 (x : Int) : Int := (x + 2147483648) % 4294967296 - 2147483648

theorem u32_lt (x : Int) : u32 x < 4294967296 := by
  unfold u32; omega

theorem u32_natCast (n : Nat) : u32 (n : Int) = n % 4294967296 := by
  unfold u32; omega

/-- A value that already fits is unchanged by the unsigned conversion. -/
theorem u32_of_lt {n : Nat} (h : n < 4294967296) : u32 (n : Int) = n := by
  unfold u32; omega

/-- A value that already fits is unchanged by the signed conversion. -/
theorem s32_of_range {x : Int} (hlo : -2147483648 ≤ x) (hhi : x < 2147483648) : s32 x = x := by
  unfold s32; omega

theorem s32_natCast_of_lt {n : Nat} (h : n < 2147483648) : s32 (n : Int) = n :=
  s32_of_range (by omega) (by omega)

/-- The result of a signed operation: `none` when it does not fit, where C leaves it undefined. -/
def checked (x : Int) : Option Int :=
  if -2147483648 ≤ x ∧ x < 2147483648 then some x else none

theorem checked_of_range {x : Int} (hlo : -2147483648 ≤ x) (hhi : x < 2147483648) :
    checked x = some x :=
  if_pos ⟨hlo, hhi⟩

theorem checked_of_ge {x : Int} (h : 2147483648 ≤ x) : checked x = none :=
  if_neg (by omega)

/-- A computation that checks a non-negative value and goes on with it. -/
theorem checked_bind {β : Type} {x : Int} {n : Nat} {f : Int → Option β} {q : Option β} (hx : x = n)
    (hbig : 2147483648 ≤ n → q = none) (hok : n < 2147483648 → f n = q) : (checked x).bind f = q := by
  subst hx
  by_cases h : n < 2147483648
  · rw [checked_of_range (by omega) (by omega)]
    exact hok h
  · rw [checked_of_ge (by omega), hbig (by omega)]
    rfl

end CWord
