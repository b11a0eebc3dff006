import BimbleOS.Kernel.Terminal
import BimbleOS.Lib.Sheet

/-!
# `Kernel.Screen` — what the screen shows

The terminal of `kernel.c` against a sheet of paper that is 80 characters wide (`Shows`). Every character that finds
the cursor on the screen does to the video memory what the same key does to the sheet, a backspace included, as long
as it has a character of its row to take back (`terminalWrite_shows`).
-/

namespace BimbleOS

open CWord

/-- A character of a text, typed on a sheet. -/
def writeOn (l : Sheet (BitVec 8)) (c : BitVec 8) : Sheet (BitVec 8) :=
  if c = 0x0A then l.newline else if c = 0x08 then l.erase else l.type vgaWidth c

/-- A text. -/
def writeAllOn (l : Sheet (BitVec 8)) (text : List (BitVec 8)) : Sheet (BitVec 8) := text.foldl writeOn l

/-- The character finds the cursor on the screen, and a backspace finds a character in its row, or nothing at all. -/
def RoomOn (l : Sheet (BitVec 8)) (c : BitVec 8) : Prop :=
  l.done.length < vgaHeight ∧ (c = 0x08 → l.line ≠ [] ∨ l.done = [])

instance (l : Sheet (BitVec 8)) (c : BitVec 8) : Decidable (RoomOn l c) := inferInstanceAs (Decidable (_ ∧ _))

/-- Every character of the text does. -/
def RoomForAll (l : Sheet (BitVec 8)) : List (BitVec 8) → Prop
  | [] => True
  | c :: text => RoomOn l c ∧ RoomForAll (writeOn l c) text

/-- The cursor is where the carriage is, and each cell shows the character of its place, or a space. -/
structure Shows (t : Terminal) (l : Sheet (BitVec 8)) : Prop where
  row : t.row = l.done.length
  column : t.column = l.line.length
  width : l.line.length < vgaWidth
  cell : ∀ r c : Nat, r < vgaHeight → c < vgaWidth →
    (t.videoMem (vgaWidth * r + c)).setWidth 8 = (l.char r c).getD 0x20

section Steps

variable {t : Terminal} {l : Sheet (BitVec 8)} {text : List (BitVec 8)} {c color : BitVec 8}

theorem terminalMakeChar_low : (terminalMakeChar c color).setWidth 8 = c := by
  unfold terminalMakeChar
  ext i hi
  simp [BitVec.getElem_signExtend, hi, show i < 32 by omega]

/-- A character that is put in a cell of the screen shows there, and the other cells show what they did. -/
theorem terminalPutchar_cell {row column : Nat} (hrow : row < vgaHeight) (hcolumn : column < vgaWidth) {r k : Nat}
    (hk : k < vgaWidth) : ((terminalPutchar t column row c color).videoMem (vgaWidth * r + k)).setWidth 8
      = if r = row ∧ k = column then c else (t.videoMem (vgaWidth * r + k)).setWidth 8 := by
  unfold vgaWidth at hcolumn hk ⊢
  unfold vgaHeight at hrow
  unfold terminalPutchar vgaWidth
  dsimp only
  rw [s32_of_range (by omega) (by omega)]
  by_cases hsame : r = row ∧ k = column
  · rw [if_pos hsame, hsame.1, hsame.2, Function.update_self, terminalMakeChar_low]
  · rw [if_neg hsame, Function.update_of_ne (by omega)]

/-- An ordinary character. -/
theorem terminalWriteGlyph_shows (h : Shows t l) (hroom : l.done.length < vgaHeight) :
    Shows (terminalWriteGlyph t c color) (l.type vgaWidth c) := by
  have hwidth : (vgaWidth : Int) = 80 := rfl
  have hheight : (vgaHeight : Int) = 25 := rfl
  have hwide : vgaWidth = 80 := rfl
  have hhigh : vgaHeight = 25 := rfl
  obtain ⟨hrow, hcolumn, hline, hcell⟩ := h
  have hcells : ∀ r k : Nat, r < vgaHeight → k < vgaWidth →
      ((terminalPutchar t t.column t.row c color).videoMem (vgaWidth * r + k)).setWidth 8
        = ((l.type vgaWidth c).char r k).getD 0x20 := by
    intro r k hr hk
    rw [hrow, hcolumn, terminalPutchar_cell hroom hline hk, Sheet.char_type]
    split
    · rfl
    · exact hcell r k hr hk
  by_cases hin : l.line.length + 1 < vgaWidth
  · rw [terminalWriteGlyph_inside (by omega) (by omega)]
    have htype : l.type vgaWidth c = { l with line := l.line ++ [c] } := if_pos hin
    refine ⟨?_, ?_, ?_, hcells⟩
    · rw [htype]
      exact hrow
    · show t.column + 1 = _
      rw [htype, hcolumn, List.length_append]
      rfl
    · rw [htype, List.length_append]
      exact hin
  · rw [terminalWriteGlyph_wraps (by omega) (by omega)]
    have htype : l.type vgaWidth c = Sheet.newline { l with line := l.line ++ [c] } := if_neg hin
    refine ⟨?_, ?_, ?_, hcells⟩
    · show t.row + 1 = _
      rw [htype, hrow, Sheet.newline, List.length_append]
      rfl
    · rw [htype]
      rfl
    · rw [htype]
      exact Nat.succ_pos _

/-- A backspace. -/
theorem terminalBackspace_shows (h : Shows t l) (hroom : RoomOn l 0x08) : Shows (terminalBackspace t) l.erase := by
  have hwidth : (vgaWidth : Int) = 80 := rfl
  obtain ⟨hrow, hcolumn, hline, hcell⟩ := h
  by_cases hempty : l.line = []
  · have hhome : t.row = 0 ∧ t.column = 0 := by
      have hdone : l.done = [] := (hroom.2 rfl).resolve_left fun h => h hempty
      rw [hrow, hcolumn, hempty, hdone]
      exact ⟨rfl, rfl⟩
    have hstays : terminalBackspace t = t := if_pos hhome
    have herase : l.erase = l := by
      unfold Sheet.erase
      rw [hempty, List.dropLast_nil, ← hempty]
    rw [hstays, herase]
    exact ⟨hrow, hcolumn, hline, hcell⟩
  · have hpos : 0 < l.line.length := List.length_pos_of_ne_nil hempty
    have hback : t.column - 1 = (l.line.length - 1 : Nat) := by omega
    rw [terminalBackspace_column (by omega) (by omega)]
    refine ⟨hrow, ?_, ?_, fun r k hr hk => ?_⟩
    · show t.column - 1 = _
      rw [hback, Sheet.erase, List.length_dropLast]
    · rw [Sheet.erase, List.length_dropLast]
      omega
    · show ((terminalPutchar t (t.column - 1) t.row 0x20 15).videoMem _).setWidth 8 = _
      rw [hback, hrow, terminalPutchar_cell hroom.1 (by omega) hk, Sheet.char_erase hempty]
      split
      · rfl
      · exact hcell r k hr hk

/-- **One character** does to the screen what it does to the sheet. -/
theorem terminalWritechar_shows (h : Shows t l) (hroom : RoomOn l c) :
    Shows (terminalWritechar t c color) (writeOn l c) := by
  unfold terminalWritechar writeOn
  by_cases hnewline : c = 0x0A
  · rw [if_pos hnewline, if_pos hnewline]
    have hlt := hroom.1
    unfold vgaHeight at hlt
    obtain ⟨hrow, _, _, hcell⟩ := h
    refine ⟨?_, rfl, Nat.succ_pos _, fun r k hr hk => ?_⟩
    · show s32 (t.row + 1) = _
      rw [hrow, s32_of_range (by omega) (by omega), Sheet.newline, List.length_append]
      rfl
    · rw [Sheet.char_newline]
      exact hcell r k hr hk
  rw [if_neg hnewline, if_neg hnewline]
  by_cases hback : c = 0x08
  · rw [if_pos hback, if_pos hback]
    exact terminalBackspace_shows h (hback ▸ hroom)
  · rw [if_neg hback, if_neg hback]
    exact terminalWriteGlyph_shows h hroom.1

/-- **A text**, in whatever colours. -/
theorem terminalWrite_shows {chars : List (BitVec 8 × BitVec 8)} (h : Shows t l)
    (hroom : RoomForAll l (chars.map Prod.fst)) :
    Shows (terminalWrite t chars) (writeAllOn l (chars.map Prod.fst)) := by
  induction chars generalizing t l with
  | nil => exact h
  | cons c chars ih => exact ih (terminalWritechar_shows h hroom.1) hroom.2

/-- Clearing the screen leaves the cursor in its first cell. -/
theorem terminalInitialize_home (t : Terminal) :
    (terminalInitialize t).row = 0 ∧ (terminalInitialize t).column = 0 := by
  let Home : Terminal → Prop := fun t => t.row = 0 ∧ t.column = 0
  show Home (terminalInitialize t)
  refine List.foldlRecOn (motive := Home) _ _ ⟨rfl, rfl⟩ fun t ht y _ => ?_
  exact List.foldlRecOn (motive := Home) _ _ ht fun t ht x _ => ht

/-- What one round of a loop brings about, and all the others keep, holds after the loop. -/
theorem foldl_once {σ α : Type} {f : σ → α → σ} {p : σ → Prop} {xs : List α} {a : α} (ha : a ∈ xs)
    (hkeep : ∀ s, ∀ b ∈ xs, p s → p (f s b)) (hround : ∀ s, p (f s a)) (s : σ) : p (xs.foldl f s) := by
  obtain ⟨before, behind, rfl⟩ := List.append_of_mem ha
  rw [List.foldl_append, List.foldl_cons]
  refine List.foldlRecOn (motive := p) behind f (hround _) fun s hs b hb => hkeep s b ?_ hs
  exact List.mem_append_right _ (List.mem_cons_of_mem _ hb)

/-- A screen that has been cleared shows an empty sheet. -/
theorem terminalInitialize_shows (t : Terminal) : Shows (terminalInitialize t) {} := by
  have hput : ∀ (t : Terminal) (x y r k : Nat), x < vgaWidth → y < vgaHeight → k < vgaWidth →
      (r = y ∧ k = x) ∨ (t.videoMem (vgaWidth * r + k)).setWidth 8 = 0x20#8 →
        ((terminalPutchar t x y 0x20 0).videoMem (vgaWidth * r + k)).setWidth 8 = 0x20#8 := by
    intro t x y r k hx hy hk hblank
    rw [terminalPutchar_cell hy hx hk]
    split
    · rfl
    · next hother => exact hblank.resolve_left hother
  obtain ⟨hrow, hcolumn⟩ := terminalInitialize_home t
  refine ⟨hrow, hcolumn, by decide, fun r k hr hk => ?_⟩
  let Blank : Terminal → Prop := fun t => (t.videoMem (vgaWidth * r + k)).setWidth 8 = 0x20#8
  have hblank : Blank (terminalInitialize t) := by
    refine foldl_once (p := Blank) (List.mem_range.mpr hr) (fun t y hy ht => ?_) (fun t => ?_) _
    · refine List.foldlRecOn (motive := Blank) _ _ ht fun t ht x hx => ?_
      exact hput t x y r k (List.mem_range.mp hx) (List.mem_range.mp hy) hk (Or.inr ht)
    · refine foldl_once (p := Blank) (List.mem_range.mpr hk) (fun t x hx ht => ?_) (fun t => ?_) _
      · exact hput t x r r k (List.mem_range.mp hx) hr hk (Or.inr ht)
      · exact hput t k r r k hk hr hk (Or.inl ⟨rfl, rfl⟩)
  have hchar : ({} : Sheet (BitVec 8)).char r k = none := by
    unfold Sheet.char
    cases r <;> rfl
  rw [hchar]
  exact hblank

end Steps

end BimbleOS
