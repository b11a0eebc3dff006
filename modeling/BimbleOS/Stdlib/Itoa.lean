import BimbleOS.Lib.Decimal
import BimbleOS.Lib.Writes
import Mathlib.Data.List.GetD

/-!
# `Stdlib.Itoa` — decimal text in `programs/stdlib/src/stdlib.c`

`itoa` makes the digits from the last one on, downwards in a static buffer of twelve bytes. It works on the negative
number, which does not overflow for the smallest `int`: division and remainder truncate, so the remainders are the
digits with a minus sign. The text at the address that it returns is the canonical one (`itoa_decimal`). It lies at the
end of the buffer, and memory beside the buffer is left alone (`itoa_holds`, `itoa_beside`).
-/

namespace BimbleOS.Stdlib

open Bytes Decimal

/-- The static `text`, and `loc`, the index of what was written last. -/
structure ItoaText where
  loc : Int
  out : Writes

/-- `text[--loc] = c`. -/
def ItoaText.push (text : Nat) (c : BitVec 8) (t : ItoaText) : ItoaText where
  loc := t.loc - 1
  out := t.out.store (text + (t.loc - 1)).toNat c

/-- `while (i)`; division brings `i` nearer to 0. -/
def itoaLoop (text : Nat) (i : Int) (t : ItoaText) : ItoaText :=
  if i = 0 then t
  else itoaLoop text (i.tdiv 10) (t.push text (BitVec.ofInt 8 (48 - i.tmod 10)))
termination_by i.natAbs
decreasing_by
  rw [Int.natAbs_tdiv]
  exact Nat.div_lt_self (by omega) (by decide)

/-- The digits of `itoa`: `i` is turned negative, and 0 has one digit. -/
def itoaDigits (text : Nat) (i : Int) (w : Writes) : ItoaText :=
  let t := itoaLoop text (if 0 ≤ i then -i else i) { loc := 11, out := w.store (text + 11) 0 }
  if t.loc = 11 then t.push text zeroChar else t

/-- `itoa`: the address it returns, and what it wrote. -/
def itoa (text : Nat) (i : Int) (w : Writes) : Nat × Writes :=
  let t := if 0 ≤ i then itoaDigits text i w else (itoaDigits text i w).push text minusChar
  ((text + t.loc).toNat, t.out)

section Text

variable {text n : Nat} {i : Int} {s : List (BitVec 8)} {c : BitVec 8} {w : Writes} {t : ItoaText}

/-- `s` is at the end of the buffer, with its zero, and all writes were in the buffer. -/
structure AtEnd (text : Nat) (w : Writes) (s : List (BitVec 8)) (t : ItoaText) : Prop where
  loc : t.loc = 11 - (s.length : Int)
  short : s.length ≤ 11
  holds : HoldsString t.out.memory (text + (11 - s.length)) s
  inside : ∀ a ∈ t.out.written, a ∈ w.written ∨ (text ≤ a ∧ a < text + 12)

theorem AtEnd.nil : AtEnd text w [] { loc := 11, out := w.store (text + 11) 0 } where
  loc := rfl
  short := Nat.zero_le _
  holds := Function.update_self ..
  inside := by
    intro a ha
    rcases List.mem_append.mp ha with ha | ha
    · exact Or.inl ha
    · rw [List.mem_singleton] at ha
      omega

/-- One character more. -/
theorem AtEnd.push (h : AtEnd text w s t) (hroom : s.length < 11) (hc : c ≠ 0) :
    AtEnd text w (c :: s) (t.push text c) := by
  have hat : ((text : Int) + (t.loc - 1)).toNat = text + (10 - s.length) := by
    rw [h.loc]
    omega
  have hlen : (c :: s).length = s.length + 1 := List.length_cons
  refine ⟨?_, ?_, ?_, ?_⟩
  · show t.loc - 1 = _
    rw [h.loc, hlen]
    omega
  · rwa [hlen]
  · rw [hlen, show 11 - (s.length + 1) = 10 - s.length by omega]
    show HoldsString (Function.update t.out.memory ((text : Int) + (t.loc - 1)).toNat c) _ _
    rw [hat]
    refine ⟨Function.update_self .., hc, ?_⟩
    rw [show text + (10 - s.length) + 1 = text + (11 - s.length) by omega]
    exact h.holds.congr fun b hb => Function.update_of_ne (by omega) ..
  · intro a ha
    rcases List.mem_append.mp ha with ha | ha
    · exact h.inside a ha
    · rw [List.mem_singleton, hat] at ha
      omega

/-- One digit of a number that is not positive. -/
theorem itoa_digit : BitVec.ofInt 8 (48 - (-(n : Int)).tmod 10) = digitChar (n % 10) := by
  have hdigit : 48 - (-(n : Int)).tmod 10 = ((48 + n % 10 : Nat) : Int) := by
    rw [Int.neg_tmod, show (n : Int).tmod 10 = ((n % 10 : Nat) : Int) from (Int.ofNat_tmod n 10).symm]
    omega
  rw [hdigit, BitVec.ofInt_natCast, digitChar]

theorem digitChar_ne_zero : digitChar (n % 10) ≠ 0 := by
  intro h
  have hchar := congrArg BitVec.toNat h
  rw [toNat_digitChar (Nat.mod_lt n (by decide))] at hchar
  exact absurd hchar (by simp)

/-- The loop puts the digits of the number in front. The induction is on the number. -/
theorem itoaLoop_atEnd (h : AtEnd text w s t) (hroom : (numeral n).length + s.length ≤ 11) :
    AtEnd text w (numeral n ++ s) (itoaLoop text (-n) t) := by
  induction n using Nat.strong_induction_on generalizing s t with
  | _ n ih =>
    rw [itoaLoop]
    by_cases hzero : n = 0
    · subst hzero
      rw [if_pos (by rfl)]
      exact h
    · have hpos := Nat.pos_of_ne_zero hzero
      rw [numeral_step hpos] at hroom ⊢
      rw [List.length_append, List.length_singleton] at hroom
      have hnext : (-(n : Int)).tdiv 10 = -((n / 10 : Nat) : Int) := by
        rw [Int.neg_tdiv, show (n : Int).tdiv 10 = ((n / 10 : Nat) : Int) from (Int.ofNat_tdiv n 10).symm]
      rw [if_neg (by omega), itoa_digit, hnext, List.append_assoc]
      apply ih (n / 10) (Nat.div_lt_self hpos (by decide))
      · exact h.push (by omega) digitChar_ne_zero
      · show _ + (s.length + 1) ≤ 11
        omega

/-- A number that is not 0 leaves its digits, and 0 the zero that is put in their place. -/
theorem itoaDigits_atEnd (hsmall : i.natAbs < 10 ^ 10) :
    AtEnd text w (natText i.natAbs) (itoaDigits text i w) ∧ (natText i.natAbs).length ≤ 10 := by
  have hnegative : (if 0 ≤ i then -i else i) = -(i.natAbs : Int) := by
    split
    · omega
    · omega
  have hlen := length_numeral hsmall
  have hend := itoaLoop_atEnd (@AtEnd.nil text w) (Nat.le_succ_of_le hlen)
  rw [List.append_nil] at hend
  unfold itoaDigits natText
  rw [hnegative]
  by_cases hzero : i = 0
  · -- the loop makes no digit, and `loc` is still the index of the zero at the end
    subst hzero
    have hloc : (itoaLoop text (-((0 : Int).natAbs : Int)) { loc := 11, out := w.store (text + 11) 0 }).loc = 11 :=
      hend.loc
    rw [if_pos (by rfl)]
    refine ⟨?_, by decide⟩
    show AtEnd text w [zeroChar] (if _ then _ else _)
    rw [if_pos hloc]
    exact hend.push (by decide) (by decide)
  · have hpos : 0 < i.natAbs := Int.natAbs_pos.mpr hzero
    have hsome := List.length_pos_of_ne_nil (numeral_ne_nil hpos)
    rw [if_neg (Nat.ne_of_gt hpos)]
    refine ⟨?_, hlen⟩
    show AtEnd text w _ (if _ then _ else _)
    rw [if_neg (by rw [hend.loc]; omega)]
    exact hend

/-- The text of an `int` ends up at the end of the buffer, and `itoa` returns its address. -/
theorem itoa_atEnd (hlo : -2147483648 ≤ i) (hhi : i < 2147483648) :
    ∃ t, itoa text i w = (((text : Int) + t.loc).toNat, t.out) ∧ AtEnd text w (decimalText i) t := by
  have hsmall : i.natAbs < 10 ^ 10 := by
    rw [show 10 ^ 10 = 10000000000 from rfl]
    omega
  obtain ⟨hend, hlen⟩ := @itoaDigits_atEnd text i w hsmall
  unfold itoa decimalText
  by_cases hneg : 0 ≤ i
  · rw [if_pos hneg, if_pos hneg]
    exact ⟨_, rfl, hend⟩
  · rw [if_neg hneg, if_neg hneg]
    exact ⟨_, rfl, hend.push (by omega) (by decide)⟩

/-- What a buffer with `s` at its end gives when its address is returned. -/
theorem AtEnd.returned (h : AtEnd text w s t) (hs : s ≠ []) :
    HoldsString t.out.memory (text + t.loc).toNat s ∧ text ≤ (text + t.loc).toNat ∧
      (text + t.loc).toNat < text + 12 := by
  have hpos := List.length_pos_of_ne_nil hs
  have hshort := h.short
  have hat : ((text : Int) + t.loc).toNat = text + (11 - s.length) := by
    rw [h.loc]
    omega
  rw [hat]
  exact ⟨h.holds, by omega, by omega⟩

/-- **Decimal text.** `itoa` returns the canonical text of every `int`, from which the number can be read back, and
    writes inside its buffer. -/
theorem itoa_decimal (hlo : -2147483648 ≤ i) (hhi : i < 2147483648) :
    ∃ s, HoldsString (itoa text i w).2.memory (itoa text i w).1 s ∧ CanonicalText s ∧ textValue s = i ∧
      (text ≤ (itoa text i w).1 ∧ (itoa text i w).1 < text + 12) ∧
      ∀ a ∈ (itoa text i w).2.written, a ∈ w.written ∨ (text ≤ a ∧ a < text + 12) := by
  obtain ⟨t, hitoa, hend⟩ := @itoa_atEnd text i w hlo hhi
  rw [hitoa]
  obtain ⟨hholds, hrange⟩ := hend.returned decimalText_ne_nil
  exact ⟨decimalText i, hholds, canonicalText_decimalText, textValue_decimalText, hrange, hend.inside⟩

/-! ### What other memory sees -/

theorem itoaLoop_follows : Writes.Follows t.out (itoaLoop text i t).out := by
  induction i, t using itoaLoop.induct text with
  | case1 t =>
      rw [itoaLoop, if_pos rfl]
      exact .refl t.out
  | case2 i t hne ih =>
      rw [itoaLoop, if_neg hne]
      exact (Writes.Follows.store ..).trans ih

theorem itoa_follows : Writes.Follows w (itoa text i w).2 := by
  have hdigits : Writes.Follows w (itoaDigits text i w).out := by
    have hloop := (Writes.Follows.store w (text + 11) 0).trans
      (@itoaLoop_follows text (if 0 ≤ i then -i else i) { loc := 11, out := w.store (text + 11) 0 })
    unfold itoaDigits
    generalize (if 0 ≤ i then -i else i) = negative at hloop ⊢
    dsimp only
    split
    · exact hloop.trans (.store ..)
    · exact hloop
  unfold itoa
  dsimp only
  split
  · exact hdigits
  · exact hdigits.trans (.store ..)

theorem itoa_word {m : Mem} (v : BitVec 32) :
    ∃ t, itoa text v.toInt ⟨m, []⟩ = (((text : Int) + t.loc).toNat, t.out) ∧
      AtEnd text ⟨m, []⟩ (decimalText v.toInt) t :=
  itoa_atEnd (BitVec.le_toInt v) (BitVec.toInt_lt (x := v))

/-- The string that `itoa` returns ends where the buffer does. -/
theorem itoa_holds {m : Mem} (v : BitVec 32) :
    HoldsString (itoa text v.toInt ⟨m, []⟩).2.memory (itoa text v.toInt ⟨m, []⟩).1 (decimalText v.toInt) ∧
      (itoa text v.toInt ⟨m, []⟩).1 + (decimalText v.toInt).length = text + 11 := by
  obtain ⟨t, hitoa, hend⟩ := @itoa_word text m v
  have hloc := hend.loc
  have hshort := hend.short
  rw [hitoa]
  refine ⟨(hend.returned decimalText_ne_nil).1, ?_⟩
  dsimp only
  omega

/-- Memory beside the buffer is left alone. -/
theorem itoa_beside {m : Mem} {a : Nat} (v : BitVec 32) (ha : a < text ∨ text + 12 ≤ a) :
    (itoa text v.toInt ⟨m, []⟩).2.memory a = m a := by
  obtain ⟨t, hitoa, hend⟩ := @itoa_word text m v
  apply itoa_follows.memory
  intro hin
  rw [hitoa] at hin
  have hbuffer := (hend.inside a hin).resolve_left List.not_mem_nil
  omega

/-- The last byte of the buffer is zero. -/
theorem itoa_ends {m : Mem} (v : BitVec 32) : (itoa text v.toInt ⟨m, []⟩).2.memory (text + 11) = 0 := by
  obtain ⟨t, hitoa, hend⟩ := @itoa_word text m v
  have hlast := (holdsString_iff.mp hend.holds).2 _ (Nat.le_refl _)
  have hshort := hend.short
  rw [hitoa]
  rw [List.getD_eq_default _ _ (Nat.le_refl _), show text + (11 - (decimalText v.toInt).length)
    + (decimalText v.toInt).length = text + 11 by omega] at hlast
  exact hlast

end Text

/-- The most negative number, which has no positive counterpart. -/
theorem itoa_decimal_lowest :
    ∃ s, HoldsString (itoa 0x400000 (-2147483648) ⟨fun _ => 0, []⟩).2.memory
        (itoa 0x400000 (-2147483648) ⟨fun _ => 0, []⟩).1 s ∧ CanonicalText s ∧ textValue s = -2147483648 ∧
      (0x400000 ≤ (itoa 0x400000 (-2147483648) ⟨fun _ => 0, []⟩).1 ∧
        (itoa 0x400000 (-2147483648) ⟨fun _ => 0, []⟩).1 < 0x400000 + 12) ∧
      ∀ a ∈ (itoa 0x400000 (-2147483648) ⟨fun _ => 0, []⟩).2.written, a ∈ [] ∨ (0x400000 ≤ a ∧ a < 0x400000 + 12) :=
  itoa_decimal (by decide) (by decide)

end BimbleOS.Stdlib
