import Mathlib.Data.Nat.Digits.Lemmas

/-!
# `Lib.Decimal` — numbers as decimal text

A text is canonical if it has no more characters than the number needs: no leading zero, and a sign only in front of a
negative number. `numeral n` are the digits of `n`, the most significant one first, and none for 0, as a loop of
divisions by 10 makes them (`numeral_step`).
-/

namespace Decimal

def minusChar : BitVec 8 := 0x2D
def zeroChar : BitVec 8 := 0x30

/-- The digit `d`. -/
def digitChar (d : Nat) : BitVec 8 := BitVec.ofNat 8 (48 + d)

/-- The number that digits stand for. -/
def digitsValue (s : List (BitVec 8)) : Nat := s.foldl (fun v c => 10 * v + (c.toNat - 48)) 0

/-- The number that a text stands for. -/
def textValue (s : List (BitVec 8)) : Int :=
  if s.head? = some minusChar then -(digitsValue s.tail : Int) else digitsValue s

/-- Digits without a leading zero. -/
structure CanonicalDigits (s : List (BitVec 8)) : Prop where
  nonempty : s ≠ []
  digits : ∀ c ∈ s, 48 ≤ c.toNat ∧ c.toNat ≤ 57
  noLeadingZero : s.head? = some zeroChar → s = [zeroChar]

/-- Canonical digits, behind a sign only where they are not 0. -/
def CanonicalText (s : List (BitVec 8)) : Prop :=
  CanonicalDigits s ∨ ∃ digits, s = minusChar :: digits ∧ CanonicalDigits digits ∧ digits ≠ [zeroChar]

/-- The digits of a number, none for 0. -/
def numeral (n : Nat) : List (BitVec 8) := (Nat.digits 10 n).reverse.map digitChar

/-- The digits of a number, with one for 0. -/
def natText (n : Nat) : List (BitVec 8) := if n = 0 then [zeroChar] else numeral n

/-- The canonical text of a number. -/
def decimalText (i : Int) : List (BitVec 8) :=
  if 0 ≤ i then natText i.natAbs else minusChar :: natText i.natAbs

section Numerals

variable {n k d : Nat} {s : List (BitVec 8)} {c : BitVec 8}

theorem toNat_digitChar (hd : d < 10) : (digitChar d).toNat = 48 + d := by
  rw [digitChar, BitVec.toNat_ofNat]
  omega

/-- The last digit is the remainder. -/
theorem numeral_step (hn : 0 < n) : numeral n = numeral (n / 10) ++ [digitChar (n % 10)] := by
  unfold numeral
  rw [Nat.digits_def' (by decide) hn, List.reverse_cons, List.map_append]
  rfl

theorem length_numeral (hn : n < 10 ^ k) : (numeral n).length ≤ k := by
  unfold numeral
  rw [List.length_map, List.length_reverse]
  exact (Nat.digits_length_le_iff (by decide) n).mpr hn

theorem numeral_digits (hc : c ∈ numeral n) : 48 ≤ c.toNat ∧ c.toNat ≤ 57 := by
  obtain ⟨d, hd, rfl⟩ := List.mem_map.mp hc
  have hten := Nat.digits_lt_base (by decide) (List.mem_reverse.mp hd)
  rw [toNat_digitChar hten]
  omega

theorem numeral_ne_nil (hn : 0 < n) : numeral n ≠ [] := by
  rw [numeral_step hn]
  exact List.append_ne_nil_of_right_ne_nil _ (List.cons_ne_nil _ _)

/-- The first digit is the last one to be made; it is not 0. -/
theorem numeral_head (hn : 0 < n) : (numeral n).head? ≠ some zeroChar := by
  have hne : Nat.digits 10 n ≠ [] := Nat.digits_ne_nil_iff_ne_zero.mpr (Nat.ne_of_gt hn)
  have hlast := Nat.getLast_digit_ne_zero 10 (Nat.ne_of_gt hn)
  have hten := Nat.digits_lt_base (by decide) (List.getLast_mem hne)
  unfold numeral
  rw [List.head?_map, List.head?_reverse, List.getLast?_eq_getLast_of_ne_nil hne, Option.map_some]
  intro h
  have hchar := congrArg BitVec.toNat (Option.some.inj h)
  rw [toNat_digitChar hten] at hchar
  exact hlast (Nat.add_left_cancel hchar)

theorem digitsValue_append : digitsValue (s ++ [c]) = 10 * digitsValue s + (c.toNat - 48) := by
  unfold digitsValue
  rw [List.foldl_append]
  rfl

/-- Reading back the digits of a number. -/
theorem digitsValue_numeral : digitsValue (numeral n) = n := by
  induction n using Nat.strong_induction_on with
  | _ n ih =>
    by_cases hzero : n = 0
    · subst hzero
      rfl
    · rw [numeral_step (Nat.pos_of_ne_zero hzero), digitsValue_append, ih (n / 10) (by omega),
        toNat_digitChar (Nat.mod_lt n (by decide))]
      omega

theorem canonicalDigits_zero : CanonicalDigits [zeroChar] where
  nonempty := List.cons_ne_nil _ _
  digits := by
    intro c hc
    rw [List.mem_singleton.mp hc]
    decide
  noLeadingZero _ := rfl

theorem canonicalDigits_numeral (hn : 0 < n) : CanonicalDigits (numeral n) where
  nonempty := numeral_ne_nil hn
  digits _ hc := numeral_digits hc
  noLeadingZero h := absurd h (numeral_head hn)

/-- Digits are not a sign. -/
theorem textValue_digits (h : CanonicalDigits s) : textValue s = digitsValue s := by
  refine if_neg fun hsign => ?_
  have hdigit := (h.digits minusChar (List.mem_of_mem_head? hsign)).1
  exact absurd hdigit (by decide)

theorem canonicalDigits_natText : CanonicalDigits (natText n) := by
  unfold natText
  split
  · exact canonicalDigits_zero
  · rename_i hzero
    exact canonicalDigits_numeral (Nat.pos_of_ne_zero hzero)

theorem digitsValue_natText : digitsValue (natText n) = n := by
  unfold natText
  split
  · rename_i hzero
    exact hzero ▸ rfl
  · exact digitsValue_numeral

/-- The text of a number is canonical. -/
theorem canonicalText_decimalText {i : Int} : CanonicalText (decimalText i) := by
  unfold decimalText
  split
  · exact Or.inl canonicalDigits_natText
  · rename_i hneg
    have hpos : 0 < i.natAbs := Int.natAbs_pos.mpr (by omega)
    refine Or.inr ⟨natText i.natAbs, rfl, canonicalDigits_natText, fun h => ?_⟩
    rw [natText, if_neg (Nat.ne_of_gt hpos)] at h
    exact numeral_head hpos (by rw [h]; rfl)

theorem decimalText_ne_nil {i : Int} : decimalText i ≠ [] := by
  unfold decimalText
  split
  · exact canonicalDigits_natText.nonempty
  · exact List.cons_ne_nil _ _

/-- Reading back the text of a number. -/
theorem textValue_decimalText {i : Int} : textValue (decimalText i) = i := by
  unfold decimalText
  split
  · rw [textValue_digits canonicalDigits_natText, digitsValue_natText]
    omega
  · rw [textValue, if_pos (by rfl), List.tail_cons, digitsValue_natText]
    omega

end Numerals

end Decimal
