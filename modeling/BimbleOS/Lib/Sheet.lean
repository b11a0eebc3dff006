import Mathlib.Data.List.Basic
import Mathlib.Tactic.Common

/-!
# `Lib.Sheet` — text on a typewriter

A sheet is the rows that are finished and the row that is being written, with the carriage behind its last character.
A row is finished by a new line, or when it is as wide as the sheet. The lemmas say what each key does to the
character in each place.
-/

/-- Rows of text, the last of them unfinished. -/
structure Sheet (α : Type) where
  done : List (List α) := []
  line : List α := []
  deriving DecidableEq, Repr

namespace Sheet

variable {α : Type}

def newline (l : Sheet α) : Sheet α := ⟨l.done ++ [l.line], []⟩

/-- A character on a sheet that is `width` wide. -/
def type (width : Nat) (l : Sheet α) (a : α) : Sheet α :=
  if l.line.length + 1 < width then { l with line := l.line ++ [a] } else newline { l with line := l.line ++ [a] }

/-- Take back the last character of the row. -/
def erase (l : Sheet α) : Sheet α := { l with line := l.line.dropLast }

/-- The character in a place. -/
def char (l : Sheet α) (row column : Nat) : Option α := ((l.done ++ [l.line])[row]?).bind fun r => r[column]?

variable {l : Sheet α} {width row column : Nat} {a : α}

theorem char_done (h : row < l.done.length) : l.char row column = (l.done[row]?).bind fun r => r[column]? := by
  unfold char
  rw [List.getElem?_append_left h]

theorem char_line : l.char l.done.length column = l.line[column]? := by
  unfold char
  rw [List.getElem?_append_right (Nat.le_refl _), Nat.sub_self]
  rfl

theorem char_behind (h : l.done.length < row) : l.char row column = none := by
  unfold char
  rw [List.getElem?_eq_none (by rw [List.length_append]; exact h)]
  rfl

/-- A row that is finished keeps its characters. -/
theorem char_newline : l.newline.char row column = l.char row column := by
  have hlen : l.newline.done.length = l.done.length + 1 := by
    unfold newline
    rw [List.length_append]
    rfl
  rcases Nat.lt_trichotomy row (l.done.length + 1) with hrow | rfl | hrow
  · rw [char_done (hlen ▸ hrow)]
    rfl
  · rw [← hlen, char_line, hlen, char_behind (Nat.lt_succ_self _)]
    rfl
  · rw [char_behind (hlen ▸ hrow), char_behind (Nat.lt_trans (Nat.lt_succ_self _) hrow)]

/-- A change of the row that is being written. -/
theorem char_setLine {text : List α} : ({ l with line := text } : Sheet α).char row column
    = if row = l.done.length then text[column]? else l.char row column := by
  by_cases hrow : row = l.done.length
  · rw [if_pos hrow, hrow]
    exact char_line
  · rw [if_neg hrow]
    rcases Nat.lt_or_gt_of_ne hrow with hlt | hgt
    · rw [char_done hlt]
      exact char_done (l := { l with line := text }) hlt
    · rw [char_behind hgt]
      exact char_behind (l := { l with line := text }) hgt

/-- **Typing** changes the character under the carriage. -/
theorem char_type : (l.type width a).char row column
    = if row = l.done.length ∧ column = l.line.length then some a else l.char row column := by
  have hset : ({ l with line := l.line ++ [a] } : Sheet α).char row column
      = if row = l.done.length ∧ column = l.line.length then some a else l.char row column := by
    rw [char_setLine]
    by_cases hrow : row = l.done.length
    · rw [if_pos hrow, hrow, char_line]
      by_cases hcolumn : column = l.line.length
      · rw [if_pos ⟨rfl, hcolumn⟩, hcolumn, List.getElem?_concat_length]
      · rw [if_neg fun h => hcolumn h.2]
        rcases Nat.lt_or_gt_of_ne hcolumn with hlt | hgt
        · exact List.getElem?_append_left hlt
        · rw [List.getElem?_eq_none (by rw [List.length_append]; exact hgt), List.getElem?_eq_none (Nat.le_of_lt hgt)]
    · rw [if_neg hrow, if_neg fun h => hrow h.1]
  unfold type
  split
  · exact hset
  · rw [char_newline, hset]

/-- **Erasing** takes the character in front of the carriage. -/
theorem char_erase (hne : l.line ≠ []) : l.erase.char row column
    = if row = l.done.length ∧ column = l.line.length - 1 then none else l.char row column := by
  have hpos : 0 < l.line.length := List.length_pos_of_ne_nil hne
  unfold erase
  rw [char_setLine]
  by_cases hrow : row = l.done.length
  · rw [if_pos hrow, hrow, char_line, List.getElem?_dropLast]
    by_cases hcolumn : column = l.line.length - 1
    · rw [if_neg (by omega), if_pos ⟨rfl, hcolumn⟩]
    · rw [if_neg (c := _ ∧ _) fun h => hcolumn h.2]
      split
      · rfl
      · exact (List.getElem?_eq_none (by omega)).symm
  · rw [if_neg hrow, if_neg fun h => hrow h.1]

end Sheet
