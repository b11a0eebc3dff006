/-!
# `Lib.Format` — format strings

A format consists of characters that stand for themselves and of conversions, an escape character with the character
behind it. An escape character in the last position has none behind it; there is one exactly when the format ends in
an odd number of escape characters (`escapesAtEnd_conversion`).
-/

namespace Format

/-- A piece of a format: a character, or a conversion with the character that says which. -/
inductive Directive (α : Type) where
  | plain (c : α)
  | conversion (c : α)
deriving DecidableEq

variable {α : Type} [DecidableEq α]

/-- The format, cut from left to right. An escape character in the last position stands for nothing. -/
def directives (e : α) : List α → List (Directive α)
  | [] => []
  | [c] => if c = e then [] else [.plain c]
  | c :: d :: s => if c = e then .conversion d :: directives e s else .plain c :: directives e (d :: s)

/-- How many escape characters a format ends in. -/
def escapesAtEnd (e : α) (s : List α) : Nat := (s.reverse.takeWhile fun c => c = e).length

section Formats

variable {e c d : α} {s : List α}

theorem directives_plain (hc : c ≠ e) : directives e (c :: s) = .plain c :: directives e s := by
  cases s with
  | nil => exact if_neg hc
  | cons d s => exact if_neg hc

theorem directives_conversion : directives e (e :: d :: s) = .conversion d :: directives e s := if_pos rfl

/-- Induction from one directive to the next. -/
@[elab_as_elim]
theorem format_induction {motive : List α → Prop} (e : α) (nil : motive []) (last : motive [e])
    (plain : ∀ c s, c ≠ e → motive s → motive (c :: s)) (conversion : ∀ d s, motive s → motive (e :: d :: s))
    (s : List α) : motive s := by
  induction s using directives.induct e with
  | case1 => exact nil
  | case2 => exact last
  | case3 c hc => exact plain c [] hc nil
  | case4 d s ih => exact conversion d s ih
  | case5 c d s hc ih => exact plain c (d :: s) hc ih

theorem escapesAtEnd_le : escapesAtEnd e s ≤ s.length := by
  have hle := (List.takeWhile_prefix (l := s.reverse) fun c => decide (c = e)).length_le
  rwa [List.length_reverse] at hle

theorem escapesAtEnd_cons :
    escapesAtEnd e (c :: s) = if escapesAtEnd e s = s.length ∧ c = e then s.length + 1 else escapesAtEnd e s := by
  unfold escapesAtEnd
  rw [List.reverse_cons, List.takeWhile_append, List.length_reverse]
  by_cases hall : (s.reverse.takeWhile fun c => c = e).length = s.length
  · rw [if_pos hall, List.length_append, List.length_reverse, hall]
    by_cases hc : c = e
    · rw [if_pos ⟨rfl, hc⟩, List.takeWhile_cons_of_pos (by simpa using hc)]
      rfl
    · rw [if_neg fun h => hc h.2, List.takeWhile_cons_of_neg (by simpa using hc)]
      rfl
  · rw [if_neg hall, if_neg fun h => hall h.1]

/-- A character that stands for itself does not count. -/
theorem escapesAtEnd_plain (hc : c ≠ e) : escapesAtEnd e (c :: s) = escapesAtEnd e s := by
  rw [escapesAtEnd_cons, if_neg fun h => hc h.2]

/-- A conversion takes two escape characters from the end, or none. -/
theorem escapesAtEnd_conversion : escapesAtEnd e (e :: d :: s) % 2 = escapesAtEnd e s % 2 := by
  have hle := @escapesAtEnd_le _ _ e s
  rw [escapesAtEnd_cons, List.length_cons]
  by_cases hall : escapesAtEnd e s = s.length ∧ d = e
  · -- there is nothing else than escape characters
    have htwo : escapesAtEnd e (d :: s) = s.length + 1 := by rw [escapesAtEnd_cons, if_pos hall]
    rw [if_pos ⟨htwo, rfl⟩, hall.1]
    omega
  · have hsame : escapesAtEnd e (d :: s) = escapesAtEnd e s := by rw [escapesAtEnd_cons, if_neg hall]
    rw [if_neg, hsame]
    omega

end Formats

end Format
