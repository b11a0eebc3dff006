import Mathlib.Logic.Function.Basic
import BimbleOS.Lib.Word

/-!
# `Kernel.Terminal` — the screen of `kernel.c`

The text screen is an array of character cells in video memory. Printing moves a cursor, given by a row and
a column; nothing scrolls the screen, and nothing stops the cursor at its ends. The ghost list `written`
records the indices `terminal_putchar` wrote to. One character is written to the screen exactly when it finds
the cursor on it (`terminalWritechar_safe`).

A backspace steps back, writes a space as any other character and steps back again. That undoes the last character
unless it was the last one of its row (`terminalWritechar_backspace_iff`).
-/

namespace BimbleOS

open CWord

def vgaWidth : Nat := 80
def vgaHeight : Nat := 25

/-- `terminal_row`, `terminal_column` and the memory behind `video_mem`. -/
structure Terminal where
  row : Int := 0
  column : Int := 0
  videoMem : Int → BitVec 16
  written : List Int := []

/-- `terminal_make_char`; both arguments are promoted to `int` with their sign. -/
def terminalMakeChar (character color : BitVec 8) : BitVec 16 :=
  ((color.signExtend 32 <<< 8) ||| character.signExtend 32).setWidth 16

/-- `terminal_putchar`. -/
def terminalPutchar (t : Terminal) (x y : Int) (character color : BitVec 8) : Terminal :=
  let index := s32 (vgaWidth * y + x)
  { t with
    videoMem := Function.update t.videoMem index (terminalMakeChar character color)
    written := index :: t.written }

/-- The end of `terminal_writechar`, for a character that is no newline and no backspace. -/
def terminalWriteGlyph (t : Terminal) (character color : BitVec 8) : Terminal :=
  let t := terminalPutchar t t.column t.row character color
  let t := { t with column := s32 (t.column + 1) }
  if (vgaWidth : Int) ≤ t.column then { t with row := s32 (t.row + 1), column := 0 } else t

/-- `terminal_backspace`; the space it writes takes the last branch of `terminal_writechar`. -/
def terminalBackspace (t : Terminal) : Terminal :=
  if t.row = 0 ∧ t.column = 0 then t
  else
    let t := if t.column = 0 then { t with row := s32 (t.row - 1), column := vgaWidth } else t
    let t := { t with column := s32 (t.column - 1) }
    let t := terminalWriteGlyph t 0x20 15
    { t with column := s32 (t.column - 1) }

/-- `terminal_writechar`. -/
def terminalWritechar (t : Terminal) (character color : BitVec 8) : Terminal :=
  if character = 0x0A then { t with row := s32 (t.row + 1), column := 0 }
  else if character = 0x08 then terminalBackspace t
  else terminalWriteGlyph t character color

/-- `terminal_initialize`: the screen is filled with spaces. -/
def terminalInitialize (t : Terminal) : Terminal :=
  (List.range vgaHeight).foldl (fun t (y : Nat) =>
    (List.range vgaWidth).foldl (fun t (x : Nat) => terminalPutchar t x y 0x20 0) t)
    { t with row := 0, column := 0 }

/-! ## Output -/

/-- A call of `print` or of `terminal_writechar`. -/
inductive TerminalCall where
  | print (str : List (BitVec 8))
  | writechar (character color : BitVec 8)

/-- The characters a call passes on, each with its colour; a string ends at its first zero. -/
def TerminalCall.chars : TerminalCall → List (BitVec 8 × BitVec 8)
  | .print str => (str.takeWhile fun c => c ≠ 0).map fun c => (c, 15)
  | .writechar character color => [(character, color)]

/-- A series of characters. -/
def terminalWrite (t : Terminal) (chars : List (BitVec 8 × BitVec 8)) : Terminal :=
  chars.foldl (fun t c => terminalWritechar t c.1 c.2) t

/-- A series of calls. -/
def terminalRun (t : Terminal) (calls : List TerminalCall) : Terminal :=
  calls.foldl (fun t call => terminalWrite t call.chars) t

/-- An index of video memory. -/
def OnScreen (index : Int) : Prop := 0 ≤ index ∧ index < vgaWidth * vgaHeight

instance (index : Int) : Decidable (OnScreen index) := inferInstanceAs (Decidable (_ ∧ _))

/-- Every write so far went to the screen. -/
def Terminal.Safe (t : Terminal) : Prop := ∀ index ∈ t.written, OnScreen index

/-- The number of the cell under the cursor. -/
def Terminal.cursor (t : Terminal) : Int := vgaWidth * t.row + t.column

/-- The cursor is where the character may be processed: on the screen for an ordinary character, and behind
    a cell of the screen for a backspace, unless that finds row and column at 0. -/
def Terminal.Takes (t : Terminal) (character : BitVec 8) : Prop :=
  if character = 0x0A then True
  else if character = 0x08 then (t.row = 0 ∧ t.column = 0) ∨ OnScreen (s32 (t.cursor - 1))
  else OnScreen (s32 t.cursor)

section Writes

variable {t : Terminal} {x y : Int} {character color : BitVec 8} {chars : List (BitVec 8 × BitVec 8)}

@[simp] theorem terminalPutchar_row : (terminalPutchar t x y character color).row = t.row := rfl

@[simp] theorem terminalPutchar_column : (terminalPutchar t x y character color).column = t.column := rfl

theorem terminalPutchar_safe :
    (terminalPutchar t x y character color).Safe ↔ OnScreen (s32 (vgaWidth * y + x)) ∧ t.Safe := by
  unfold Terminal.Safe terminalPutchar
  simp only [List.mem_cons, forall_eq_or_imp]

theorem terminalWriteGlyph_written : (terminalWriteGlyph t character color).written
    = (terminalPutchar t t.column t.row character color).written := by
  unfold terminalWriteGlyph
  dsimp only
  split
  · rfl
  · rfl

/-- An ordinary character writes to the cell under the cursor. -/
theorem terminalWriteGlyph_safe :
    (terminalWriteGlyph t character color).Safe ↔ OnScreen (s32 t.cursor) ∧ t.Safe := by
  have hput := @terminalPutchar_safe t t.column t.row character color
  unfold Terminal.Safe at hput ⊢
  rw [terminalWriteGlyph_written]
  exact hput

/-- **A backspace** writes to the cell in front of the cursor, also where that is in the row above. -/
theorem terminalBackspace_safe :
    (terminalBackspace t).Safe ↔ ((t.row = 0 ∧ t.column = 0) ∨ OnScreen (s32 (t.cursor - 1))) ∧ t.Safe := by
  by_cases hhome : t.row = 0 ∧ t.column = 0
  · have hstays : terminalBackspace t = t := if_pos hhome
    rw [hstays]
    exact (and_iff_right (Or.inl hhome)).symm
  · have hglyph : ∀ t' : Terminal, t'.written = t.written → s32 t'.cursor = s32 (t.cursor - 1) →
        ((terminalWriteGlyph t' 0x20 15).Safe ↔ OnScreen (s32 (t.cursor - 1)) ∧ t.Safe) := by
      intro t' hwritten hcursor
      rw [terminalWriteGlyph_safe, hcursor]
      unfold Terminal.Safe
      rw [hwritten]
    have hmoved : ∀ t' : Terminal, ∀ column : Int, ({ t' with column := column } : Terminal).Safe ↔ t'.Safe :=
      fun _ _ => Iff.rfl
    rw [or_iff_right hhome]
    unfold terminalBackspace
    rw [if_neg hhome]
    dsimp only
    rw [hmoved]
    apply hglyph
    · split
      · rfl
      · rfl
    · unfold Terminal.cursor vgaWidth s32
      split
      · next hcolumn =>
        simp only [hcolumn]
        omega
      · dsimp only
        omega

/-- **One character** is written to the screen exactly when the cursor takes it. -/
theorem terminalWritechar_safe :
    (terminalWritechar t character color).Safe ↔ t.Takes character ∧ t.Safe := by
  unfold terminalWritechar Terminal.Takes
  by_cases hnewline : character = 0x0A
  · rw [if_pos hnewline, if_pos hnewline]
    exact (and_iff_right True.intro).symm
  rw [if_neg hnewline, if_neg hnewline]
  by_cases hback : character = 0x08
  · rw [if_pos hback, if_pos hback]
    exact terminalBackspace_safe
  · rw [if_neg hback, if_neg hback]
    exact terminalWriteGlyph_safe

/-- The calls of a run, one after the other, are the series of their characters. -/
theorem terminalRun_eq (calls : List TerminalCall) :
    terminalRun t calls = terminalWrite t (calls.flatMap TerminalCall.chars) := by
  induction calls generalizing t with
  | nil => rfl
  | cons call calls ih =>
      have hsplit : terminalWrite t (call.chars ++ calls.flatMap TerminalCall.chars)
          = terminalWrite (terminalWrite t call.chars) (calls.flatMap TerminalCall.chars) := List.foldl_append
      rw [List.flatMap_cons, hsplit, ← ih]
      rfl

end Writes

/-- **The screen is cleared** within its bounds, and the cursor is in its first cell. -/
theorem terminalInitialize_safe {t : Terminal} (ht : t.Safe) :
    (terminalInitialize t).Safe ∧ (terminalInitialize t).row = 0 ∧ (terminalInitialize t).column = 0 := by
  have hcell : ∀ x y : Nat, x < vgaWidth → y < vgaHeight → OnScreen (s32 (vgaWidth * y + x)) := by
    intro x y hx hy
    unfold vgaWidth at hx ⊢
    unfold vgaHeight at hy
    rw [s32_of_range (by omega) (by omega)]
    unfold OnScreen vgaWidth vgaHeight
    omega
  let Cleared : Terminal → Prop := fun t => t.Safe ∧ t.row = 0 ∧ t.column = 0
  show Cleared (terminalInitialize t)
  refine List.foldlRecOn (motive := Cleared) _ _ ⟨ht, rfl, rfl⟩ fun t ht y hy => ?_
  refine List.foldlRecOn (motive := Cleared) _ _ ht fun t ht x hx => ?_
  have hput := hcell x y (List.mem_range.mp hx) (List.mem_range.mp hy)
  exact ⟨terminalPutchar_safe.mpr ⟨hput, ht.1⟩, ht.2⟩

/-- A terminal that has written nothing. -/
def freshTerminal : Terminal where
  videoMem := fun _ => 0

/-! ## A character and a backspace -/

/-- A printable character. -/
def Printable (character : BitVec 8) : Prop := 0x20 ≤ character.toNat ∧ character.toNat < 0x7F

instance (character : BitVec 8) : Decidable (Printable character) := inferInstanceAs (Decidable (_ ∧ _))

/-- The cursor is in a cell of the screen that is not the last one. -/
structure Terminal.BeforeLast (t : Terminal) : Prop where
  row : 0 ≤ t.row ∧ t.row < vgaHeight
  column : 0 ≤ t.column ∧ t.column < vgaWidth
  notLast : ¬ (t.row = vgaHeight - 1 ∧ t.column = vgaWidth - 1)

/-- A cell without a character, as `terminal_backspace` leaves it. -/
def blankCell : BitVec 16 := terminalMakeChar 0x20 15

/-- The cursor is back, its cell is blank, and the other cells are as before. -/
structure Terminal.Erased (t t' : Terminal) : Prop where
  row : t'.row = t.row
  column : t'.column = t.column
  blank : t'.videoMem t.cursor = blankCell
  others : ∀ index, index ≠ t.cursor → t'.videoMem index = t.videoMem index

section Erase

variable {t : Terminal} {character color : BitVec 8}

theorem Printable.ne (h : Printable character) : character ≠ 0x0A ∧ character ≠ 0x08 := by
  constructor
  · rintro rfl
    exact absurd h (by decide)
  · rintro rfl
    exact absurd h (by decide)

/-- In the middle of a row the cursor moves on by one column. -/
theorem terminalWriteGlyph_inside (hlo : 0 ≤ t.column) (hhi : t.column + 1 < vgaWidth) :
    terminalWriteGlyph t character color
      = { terminalPutchar t t.column t.row character color with column := t.column + 1 } := by
  have hwidth : (vgaWidth : Int) = 80 := rfl
  have hnext : s32 (t.column + 1) = t.column + 1 := s32_of_range (by omega) (by omega)
  unfold terminalWriteGlyph
  simp only [terminalPutchar_column, hnext]
  rw [if_neg (by omega)]

/-- At the end of a row it moves to the next one. -/
theorem terminalWriteGlyph_wraps (hrow : 0 ≤ t.row ∧ t.row < vgaHeight) (hcolumn : t.column = vgaWidth - 1) :
    terminalWriteGlyph t character color
      = { terminalPutchar t t.column t.row character color with row := t.row + 1, column := 0 } := by
  have hwidth : (vgaWidth : Int) = 80 := rfl
  have hheight : (vgaHeight : Int) = 25 := rfl
  have hcol : s32 (t.column + 1) = t.column + 1 := s32_of_range (by omega) (by omega)
  have hnext : s32 (t.row + 1) = t.row + 1 := s32_of_range (by omega) (by omega)
  unfold terminalWriteGlyph
  simp only [terminalPutchar_column, terminalPutchar_row, hcol, hnext]
  rw [if_pos (by omega)]

/-- What is in video memory once a character and then a space were written to the cell under the cursor. -/
theorem terminalPutchar_twice {t' : Terminal} (h : t.BeforeLast)
    (hmem : t'.videoMem = (terminalPutchar t t.column t.row character color).videoMem) :
    (terminalPutchar t' t.column t.row 0x20 15).videoMem = Function.update t.videoMem t.cursor blankCell := by
  obtain ⟨⟨hrow₀, hrow₁⟩, ⟨hcolumn₀, hcolumn₁⟩, _⟩ := h
  have hcell : s32 (vgaWidth * t.row + t.column) = t.cursor := by
    unfold vgaWidth at hcolumn₁ ⊢
    unfold vgaHeight at hrow₁
    exact s32_of_range (by omega) (by omega)
  unfold terminalPutchar at hmem ⊢
  rw [hcell] at hmem ⊢
  rw [hmem]
  exact Function.update_idem ..

theorem terminalWritechar_printable (hprintable : Printable character) :
    terminalWritechar t character color = terminalWriteGlyph t character color := by
  unfold terminalWritechar
  rw [if_neg hprintable.ne.1, if_neg hprintable.ne.2]

/-- A backspace that stays in its row. -/
theorem terminalBackspace_column (hlo : 0 < t.column) (hhi : t.column < vgaWidth) :
    terminalBackspace t = { terminalPutchar t (t.column - 1) t.row 0x20 15 with column := t.column - 1 } := by
  have hwidth : (vgaWidth : Int) = 80 := rfl
  have hback : s32 (t.column - 1) = t.column - 1 := s32_of_range (by omega) (by omega)
  have hnext : t.column - 1 + 1 = t.column := by omega
  unfold terminalBackspace
  rw [if_neg (fun hhome => by omega), if_neg (by omega)]
  simp only [hback]
  rw [terminalWriteGlyph_inside (by show 0 ≤ t.column - 1; omega) (by show t.column - 1 + 1 < _; omega)]
  simp only [hnext, hback]
  rfl

/-- A backspace at the start of a row. The space that it writes at the end of the row above moves the cursor down
    again, so that it ends up in front of the row. -/
theorem terminalBackspace_row (hrow : 0 < t.row) (hrow' : t.row ≤ vgaHeight) (hcolumn : t.column = 0) :
    terminalBackspace t = { terminalPutchar t (vgaWidth - 1) (t.row - 1) 0x20 15 with column := -1 } := by
  have hheight : (vgaHeight : Int) = 25 := rfl
  have hback : s32 (t.row - 1) = t.row - 1 := s32_of_range (by omega) (by omega)
  have hlast : s32 ((vgaWidth : Int) - 1) = vgaWidth - 1 := by decide
  have hfront : s32 (0 - 1) = -1 := by decide
  have hnext : t.row - 1 + 1 = t.row := by omega
  unfold terminalBackspace
  rw [if_neg (fun hhome => by omega), if_pos hcolumn]
  simp only [hback, hlast]
  rw [terminalWriteGlyph_wraps (by show 0 ≤ t.row - 1 ∧ t.row - 1 < _; omega) rfl]
  simp only [hnext, hfront]
  rfl

/-- In the middle of a row the two movements cancel out. -/
theorem terminalErase_inside (h : t.BeforeLast) (hhi : t.column + 1 < vgaWidth) :
    t.Erased (terminalBackspace (terminalWriteGlyph t character color)) := by
  have hlo := h.column.1
  have hcolumn : t.column + 1 - 1 = t.column := by omega
  rw [terminalWriteGlyph_inside hlo hhi, terminalBackspace_column (by show 0 < t.column + 1; omega) hhi]
  simp only [hcolumn]
  have hmem := @terminalPutchar_twice t character color
    { terminalPutchar t t.column t.row character color with column := t.column + 1 } h rfl
  refine ⟨rfl, rfl, ?_, fun index hindex => ?_⟩
  · exact (congrFun hmem _).trans (Function.update_self ..)
  · exact (congrFun hmem _).trans (Function.update_of_ne hindex ..)

/-- At the end of a row they do not: the cursor is left in front of the next row. -/
theorem terminalErase_wraps (h : t.BeforeLast) (hcolumn : t.column = vgaWidth - 1) :
    (terminalBackspace (terminalWriteGlyph t character color)).row = t.row + 1 ∧
      (terminalBackspace (terminalWriteGlyph t character color)).column = -1 := by
  obtain ⟨⟨hrow₀, hrow₁⟩, _, hlast⟩ := h
  have hrow : t.row + 1 < vgaHeight := by omega
  rw [terminalWriteGlyph_wraps ⟨hrow₀, hrow₁⟩ hcolumn,
    terminalBackspace_row (by show 0 < t.row + 1; omega) (by show t.row + 1 ≤ _; omega) rfl]
  exact ⟨rfl, rfl⟩

end Erase

/-- **A backspace takes back the character before it** exactly when the character was not written to the last column. -/
theorem terminalWritechar_backspace_iff {t : Terminal} {character color color' : BitVec 8} (h : t.BeforeLast)
    (hprintable : Printable character) :
    t.Erased (terminalWritechar (terminalWritechar t character color) 0x08 color') ↔ t.column ≠ vgaWidth - 1 := by
  have hback : ∀ t' : Terminal, terminalWritechar t' 0x08 color' = terminalBackspace t' := fun _ => rfl
  rw [hback, terminalWritechar_printable hprintable]
  have hcolumn := h.column.2
  constructor
  · -- the row alone tells that the cursor is not back
    intro herased hlast
    have hrow := herased.row
    rw [(terminalErase_wraps h hlast).1] at hrow
    omega
  · intro hne
    exact terminalErase_inside h (by omega)

theorem terminalWritechar_backspace_iff_home :
    freshTerminal.Erased (terminalWritechar (terminalWritechar freshTerminal 0x41 15) 0x08 15) ↔
      freshTerminal.column ≠ vgaWidth - 1 :=
  terminalWritechar_backspace_iff ⟨by decide, by decide, by decide⟩ (by decide)

/-- The last column of the first row. -/
theorem terminalWritechar_backspace_misses : ¬ ∀ (t : Terminal) (character color color' : BitVec 8), t.BeforeLast →
    Printable character → t.Erased (terminalWritechar (terminalWritechar t character color) 0x08 color') := by
  intro h
  have hlast : ({ freshTerminal with column := 79 } : Terminal).BeforeLast := ⟨by decide, by decide, by decide⟩
  have herased := h { freshTerminal with column := 79 } 0x41 15 15 hlast (by decide)
  exact absurd herased.column (by decide)

end BimbleOS
