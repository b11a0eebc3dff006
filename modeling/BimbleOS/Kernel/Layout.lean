import BimbleOS.Kernel.Terminal

/-!
# `Kernel.Layout` — which texts stay on the screen

A text is a series of lines. Every character of a line is written to the cell behind the one before it, and a backspace
to the cell in front of it, so a line takes the cells from the lowest to the furthest point that its characters, less
its backspaces, ever come to. A wrap is never taken back: a line takes the rows up to its furthest point
(`lineRows`), and that is where the next one starts.

Nothing scrolls, and nothing stops the cursor. The output stays on the screen exactly as long as every line of the text
lies between the first cell and the last (`terminalRun_onScreen_iff`).
-/

namespace BimbleOS

open CWord

/-! ## Lines -/

/-- A character goes one cell on, a backspace one cell back. -/
def charMove (c : BitVec 8) : Int := if c = 0x08 then -1 else 1

/-- Where a line ends, counted in cells from its start. -/
def lineEnd : List (BitVec 8) → Int
  | [] => 0
  | c :: line => charMove c + lineEnd line

/-- The furthest point of a line. -/
def linePeak : List (BitVec 8) → Int
  | [] => 0
  | c :: line => max 0 (charMove c + linePeak line)

/-- The lowest point of a line. -/
def lineLow : List (BitVec 8) → Int
  | [] => 0
  | c :: line => min 0 (charMove c + lineLow line)

/-- The rows that a line is wrapped into, but for the first. -/
def lineRows (line : List (BitVec 8)) : Int := linePeak line / vgaWidth

/-- The line is back in the first cell of the screen, when it started `above` rows down. -/
def AtHome (above : Int) (line : List (BitVec 8)) : Prop :=
  s32 (above + lineRows line) = 0 ∧ lineEnd line = vgaWidth * lineRows line

instance (above : Int) (line : List (BitVec 8)) : Decidable (AtHome above line) :=
  inferInstanceAs (Decidable (_ ∧ _))

/-- A backspace in the first cell of the screen is not heard. -/
def hearChar (above : Int) (line : List (BitVec 8)) (c : BitVec 8) : List (BitVec 8) :=
  if c = 0x08 ∧ AtHome above line then line else line ++ [c]

/-- What is heard of a line. -/
def heard (above : Int) (line : List (BitVec 8)) : List (BitVec 8) := line.foldl (hearChar above) []

/-- A line that starts `above` rows down lies on the screen. -/
def LineFits (above : Int) (line : List (BitVec 8)) : Prop :=
  line = [] ∨ 0 ≤ s32 (vgaWidth * above) + lineLow line ∧
    s32 (vgaWidth * above) + linePeak line ≤ vgaWidth * vgaHeight

/-- The lines of a text lie on the screen, the first of them `above` rows down. -/
def LinesFit : Int → List (List (BitVec 8)) → Prop
  | _, [] => True
  | above, line :: lines =>
      LineFits above (heard above line) ∧ LinesFit (above + lineRows (heard above line) + 1) lines

/-- The text stays on the screen. -/
def TextFits (text : List (BitVec 8)) : Prop := LinesFit 0 (text.splitOn 0x0A)

section Line

variable {line more : List (BitVec 8)} {c : BitVec 8} {above : Int}

theorem lineEnd_snoc : lineEnd (line ++ [c]) = lineEnd line + charMove c := by
  induction line with
  | nil => exact Int.add_comm _ _
  | cons d line ih => rw [List.cons_append, lineEnd, ih, lineEnd, Int.add_assoc]

/-- The furthest point is where the line has come to, or where it was before. -/
theorem linePeak_snoc : linePeak (line ++ [c]) = max (linePeak line) (lineEnd (line ++ [c])) := by
  induction line with
  | nil => rfl
  | cons d line ih =>
      rw [List.cons_append, linePeak, ih, linePeak, lineEnd]
      omega

theorem lineLow_snoc : lineLow (line ++ [c]) = min (lineLow line) (lineEnd (line ++ [c])) := by
  induction line with
  | nil => rfl
  | cons d line ih =>
      rw [List.cons_append, lineLow, ih, lineLow, lineEnd]
      omega

/-- Start and end of a line lie between its lowest and its furthest point. -/
theorem line_between (line : List (BitVec 8)) : lineLow line ≤ 0 ∧ 0 ≤ linePeak line ∧
    lineLow line ≤ lineEnd line ∧ lineEnd line ≤ linePeak line := by
  induction line with
  | nil => exact ⟨Int.le_refl 0, Int.le_refl 0, Int.le_refl 0, Int.le_refl 0⟩
  | cons c line ih =>
      rw [lineLow, linePeak, lineEnd]
      omega

/-- A line that has left the screen does not come back to it. -/
theorem LineFits.of_snoc (h : LineFits above (line ++ [c])) : LineFits above line := by
  rcases h with hnil | ⟨hlow, hpeak⟩
  · exact absurd hnil (List.append_ne_nil_of_right_ne_nil _ (List.cons_ne_nil c []))
  · rw [lineLow_snoc] at hlow
    rw [linePeak_snoc] at hpeak
    exact Or.inr ⟨by omega, by omega⟩

theorem LineFits.of_hearChar (h : LineFits above (hearChar above line c)) : LineFits above line := by
  unfold hearChar at h
  split at h
  · exact h
  · exact h.of_snoc

theorem LineFits.of_heard (h : LineFits above (more.foldl (hearChar above) line)) : LineFits above line := by
  induction more generalizing line with
  | nil => exact h
  | cons c more ih => exact (ih h).of_hearChar

end Line

/-! ## The cursor on its way through a text -/

/-- The cursor behind `line`, which started `above` rows down. -/
structure Terminal.Behind (t : Terminal) (above : Int) (line : List (BitVec 8)) : Prop where
  row : t.row = s32 (above + lineRows line)
  column : t.column = lineEnd line - vgaWidth * lineRows line
  fits : LineFits above line

section Behind

variable {t : Terminal} {above : Int} {line : List (BitVec 8)} {character color : BitVec 8}

/-- The column of a cursor on the screen, and the cell under it. -/
theorem Terminal.Behind.range (h : t.Behind above line) : -4000 ≤ t.column ∧ t.column < vgaWidth ∧
    s32 t.cursor = s32 (vgaWidth * above + lineEnd line) := by
  obtain ⟨hlow, hpeak, hlo, hhi⟩ := line_between line
  have hrows : lineRows line = linePeak line / 80 := rfl
  have hwidth : (vgaWidth : Int) = 80 := rfl
  have hrow := h.row
  have hcolumn := h.column
  rw [hwidth] at hcolumn ⊢
  have hbound : linePeak line ≤ 2000 ∧ -2000 ≤ lineLow line := by
    rcases h.fits with rfl | ⟨hl, hp⟩
    · exact ⟨by decide, by decide⟩
    · have hheight : ((vgaWidth : Int) * vgaHeight) = 2000 := rfl
      rw [hheight] at hp
      omega
  refine ⟨by omega, by omega, ?_⟩
  unfold Terminal.cursor
  rw [hrow, hcolumn, hwidth]
  unfold s32
  omega

/-- The home test of `terminal_backspace`. -/
theorem Terminal.Behind.home_iff (h : t.Behind above line) :
    (t.row = 0 ∧ t.column = 0) ↔ AtHome above line := by
  unfold AtHome
  rw [h.row, h.column]
  constructor
  · rintro ⟨hrow, hcolumn⟩
    exact ⟨hrow, by omega⟩
  · rintro ⟨hrow, hend⟩
    exact ⟨hrow, by omega⟩

/-- **One character** may be processed exactly when the line still fits with it. -/
theorem Terminal.Behind.takes_iff (h : t.Behind above line) (hnewline : character ≠ 0x0A) :
    t.Takes character ↔ LineFits above (hearChar above line character) := by
  obtain ⟨hlow, hpeak, hlo, hhi⟩ := line_between line
  obtain ⟨_, _, hcursor⟩ := h.range
  have hscreen : ((vgaWidth : Int) * vgaHeight) = 2000 := rfl
  have hne : line ++ [character] ≠ [] := List.append_ne_nil_of_right_ne_nil _ (List.cons_ne_nil _ [])
  have hb : -2147483648 ≤ s32 (vgaWidth * above) ∧ s32 (vgaWidth * above) < 2147483648 := by
    unfold s32
    omega
  have hcell : s32 t.cursor = s32 (s32 (vgaWidth * above) + lineEnd line) := by
    rw [hcursor]
    unfold s32
    omega
  have hback : s32 (t.cursor - 1) = s32 (s32 (vgaWidth * above) + lineEnd line - 1) := by
    unfold s32 at hcell ⊢
    omega
  have hfits := h.fits
  unfold Terminal.Takes hearChar
  rw [if_neg hnewline]
  by_cases hbackspace : character = 0x08
  · rw [if_pos hbackspace, h.home_iff]
    by_cases hhome : AtHome above line
    · rw [if_pos ⟨hbackspace, hhome⟩]
      exact iff_of_true (Or.inl hhome) hfits
    · have hmove : charMove character = -1 := if_pos hbackspace
      rw [if_neg fun hboth => hhome hboth.2, or_iff_right hhome, hback]
      unfold LineFits OnScreen at *
      rw [or_iff_right hne, lineLow_snoc, linePeak_snoc, lineEnd_snoc, hmove, hscreen]
      rw [hscreen] at hfits
      generalize s32 (vgaWidth * above) = b at *
      rcases hfits with rfl | ⟨hl, hp⟩
      · -- the line begins in front of its first cell
        have hzero : lineEnd [] = 0 ∧ lineLow [] = 0 ∧ linePeak [] = 0 := ⟨rfl, rfl, rfl⟩
        unfold s32
        omega
      · rw [s32_of_range (by omega) (by omega)]
        omega
  · have hmove : charMove character = 1 := if_neg hbackspace
    rw [if_neg hbackspace, if_neg fun hboth => hbackspace hboth.1, hcell]
    unfold LineFits OnScreen at *
    rw [or_iff_right hne, lineLow_snoc, linePeak_snoc, lineEnd_snoc, hmove, hscreen]
    rw [hscreen] at hfits
    generalize s32 (vgaWidth * above) = b at *
    rcases hfits with rfl | ⟨hl, hp⟩
    · have hzero : lineEnd [] = 0 ∧ lineLow [] = 0 ∧ linePeak [] = 0 := ⟨rfl, rfl, rfl⟩
      unfold s32
      omega
    · rw [s32_of_range (by omega) (by omega)]
      omega

/-- An ordinary character moves on by a cell, into the next row where the line is further than ever. -/
theorem Terminal.Behind.glyph (h : t.Behind above line) (hbackspace : character ≠ 0x08)
    (hfits : LineFits above (line ++ [character])) :
    (terminalWriteGlyph t character color).Behind above (line ++ [character]) := by
  obtain ⟨hlow, hpeak, hlo, hhi⟩ := line_between line
  obtain ⟨hmin, hmax, _⟩ := h.range
  have hmove : charMove character = 1 := if_neg hbackspace
  have hwidth : (vgaWidth : Int) = 80 := rfl
  have hrow := h.row
  have hcolumn := h.column
  rw [hwidth] at hcolumn hmax
  have hnext : s32 (t.column + 1) = t.column + 1 := s32_of_range (by omega) (by omega)
  have hrows : lineRows line = linePeak line / 80 := rfl
  have hrows' : lineRows (line ++ [character]) = max (linePeak line) (lineEnd line + 1) / 80 := by
    unfold lineRows
    rw [linePeak_snoc, lineEnd_snoc, hmove]
    rfl
  have hend : lineEnd (line ++ [character]) = lineEnd line + 1 := by rw [lineEnd_snoc, hmove]
  unfold terminalWriteGlyph
  simp only [terminalPutchar_column, terminalPutchar_row, hnext]
  by_cases hwraps : (vgaWidth : Int) ≤ t.column + 1
  · rw [hwidth] at hwraps
    -- the cursor was behind the furthest point
    rw [if_pos (show (vgaWidth : Int) ≤ t.column + 1 from hwraps)]
    have hmore : lineRows (line ++ [character]) = lineRows line + 1 := by omega
    refine ⟨?_, ?_, hfits⟩
    · show s32 (t.row + 1) = _
      rw [hmore, hrow]
      unfold s32
      omega
    · show (0 : Int) = _
      rw [hend, hmore, hwidth]
      omega
  · rw [if_neg hwraps]
    rw [hwidth] at hwraps
    have hsame : lineRows (line ++ [character]) = lineRows line := by omega
    refine ⟨?_, ?_, hfits⟩
    · show t.row = _
      rw [hsame, hrow]
    · show t.column + 1 = _
      rw [hend, hsame, hwidth]
      omega

/-- A backspace moves back by a cell and stays in its row, wherever it writes its space. -/
theorem Terminal.Behind.backspace (h : t.Behind above line) (hhome : ¬ AtHome above line)
    (hfits : LineFits above (line ++ [0x08])) : (terminalBackspace t).Behind above (line ++ [0x08]) := by
  obtain ⟨hlow, hpeak, hlo, hhi⟩ := line_between line
  obtain ⟨hmin, hmax, _⟩ := h.range
  have hmove : charMove 0x08 = -1 := rfl
  have hwidth : (vgaWidth : Int) = 80 := rfl
  have hrow := h.row
  have hcolumn := h.column
  rw [hwidth] at hcolumn hmax
  have hrows : lineRows (line ++ [0x08]) = lineRows line := by
    unfold lineRows
    rw [linePeak_snoc, lineEnd_snoc, hmove]
    congr 1
    omega
  have hend : lineEnd (line ++ [0x08]) = lineEnd line - 1 := by
    rw [lineEnd_snoc, hmove]
    omega
  unfold terminalBackspace
  rw [if_neg fun hboth => hhome (h.home_iff.mp hboth)]
  by_cases hzero : t.column = 0
  · -- the space at the end of the row above brings the cursor down again
    have hlast : s32 ((vgaWidth : Int) - 1) = vgaWidth - 1 := by decide
    have hwrap : s32 ((vgaWidth : Int) - 1 + 1) = vgaWidth := by decide
    have hfront : s32 (0 - 1) = -1 := by decide
    rw [if_pos hzero]
    unfold terminalWriteGlyph
    simp only [terminalPutchar_column, terminalPutchar_row, hlast, hwrap, Int.le_refl, if_true, hfront]
    refine ⟨?_, ?_, hfits⟩
    · show s32 (s32 (t.row - 1) + 1) = _
      rw [hrows, hrow]
      unfold s32
      omega
    · show (-1 : Int) = _
      rw [hrows, hend, hwidth]
      omega
  · have hback : s32 (t.column - 1) = t.column - 1 := s32_of_range (by omega) (by omega)
    have hnext : s32 (t.column - 1 + 1) = t.column := by
      rw [Int.sub_add_cancel]
      exact s32_of_range (by omega) (by omega)
    rw [if_neg hzero]
    unfold terminalWriteGlyph
    simp only [terminalPutchar_column, terminalPutchar_row, hback, hnext]
    rw [if_neg (by omega)]
    refine ⟨?_, ?_, hfits⟩
    · show t.row = _
      rw [hrows, hrow]
    · show s32 (t.column - 1) = _
      rw [hrows, hend, hback, hwidth]
      omega

/-- **One character**, and where it leaves the cursor. -/
theorem Terminal.Behind.char (h : t.Behind above line) (hnewline : character ≠ 0x0A)
    (hfits : LineFits above (hearChar above line character)) :
    (terminalWritechar t character color).Behind above (hearChar above line character) := by
  unfold hearChar at hfits ⊢
  unfold terminalWritechar
  rw [if_neg hnewline]
  by_cases hbackspace : character = 0x08
  · rw [if_pos hbackspace]
    by_cases hhome : AtHome above line
    · have hstays : terminalBackspace t = t := if_pos (h.home_iff.mpr hhome)
      rw [if_pos ⟨hbackspace, hhome⟩, hstays]
      exact h
    · rw [if_neg fun hboth => hhome hboth.2] at hfits ⊢
      subst hbackspace
      exact h.backspace hhome hfits
  · have hheard : ¬ (character = 0x08 ∧ AtHome above line) := fun hboth => hbackspace hboth.1
    rw [if_neg hheard] at hfits ⊢
    rw [if_neg hbackspace]
    exact h.glyph hbackspace hfits

/-- A newline goes to the row behind those of the line. -/
theorem Terminal.Behind.newline (h : t.Behind above line) :
    (terminalWritechar t 0x0A color).Behind (above + lineRows line + 1) [] := by
  have hrows : lineRows [] = 0 := rfl
  refine ⟨?_, rfl, Or.inl rfl⟩
  show s32 (t.row + 1) = _
  rw [h.row, hrows]
  unfold s32
  omega

end Behind

/-! ## Texts -/

section Text

variable {t : Terminal} {above : Int} {line : List (BitVec 8)} {chars : List (BitVec 8 × BitVec 8)}

/-- What is left of a text that has come to the end of `line`: the rest of this line, and the lines behind it. -/
def RestFits (above : Int) (line : List (BitVec 8)) : List (List (BitVec 8)) → Prop
  | [] => True
  | more :: lines =>
      LineFits above (more.foldl (hearChar above) line) ∧
        LinesFit (above + lineRows (more.foldl (hearChar above) line) + 1) lines

theorem splitOn_newline (text : List (BitVec 8)) : (0x0A :: text).splitOn 0x0A = [] :: text.splitOn 0x0A := by
  unfold List.splitOn
  rw [List.splitOnP_cons_eq_if_modifyHead, if_pos (by decide)]

theorem splitOn_char {c : BitVec 8} (hc : c ≠ 0x0A) (text : List (BitVec 8)) :
    (c :: text).splitOn 0x0A = (text.splitOn 0x0A).modifyHead (List.cons c) := by
  unfold List.splitOn
  rw [List.splitOnP_cons_eq_if_modifyHead, if_neg (by simpa using hc)]

/-- A text has a first line. -/
theorem splitOn_cons (text : List (BitVec 8)) : ∃ line lines, text.splitOn 0x0A = line :: lines :=
  List.exists_cons_of_ne_nil (List.splitOnP_ne_nil _ text)

theorem Terminal.Safe.of_write (h : (terminalWrite t chars).Safe) : t.Safe := by
  induction chars generalizing t with
  | nil => exact h
  | cons c chars ih => exact (terminalWritechar_safe.mp (ih h)).2

/-- The rest of a text, from the cursor behind a part of its line. The induction is on the characters. -/
theorem terminalWrite_safe (h : t.Behind above line) (hsafe : t.Safe) :
    (terminalWrite t chars).Safe ↔ RestFits above line ((chars.map Prod.fst).splitOn 0x0A) := by
  induction chars generalizing t above line with
  | nil =>
      rw [List.map_nil, List.splitOn_nil]
      exact iff_of_true hsafe ⟨h.fits, True.intro⟩
  | cons c chars ih =>
      obtain ⟨character, color⟩ := c
      show (terminalWrite (terminalWritechar t character color) chars).Safe ↔ _
      rw [List.map_cons]
      obtain ⟨more, lines, hsplit⟩ := splitOn_cons (chars.map Prod.fst)
      by_cases hnewline : character = 0x0A
      · subst hnewline
        have hstep : (terminalWritechar t 0x0A color).Safe := hsafe
        rw [ih h.newline hstep, splitOn_newline, hsplit]
        exact (and_iff_right h.fits).symm
      · have hlines : (character :: chars.map Prod.fst).splitOn 0x0A = (character :: more) :: lines := by
          rw [splitOn_char hnewline, hsplit]
          rfl
        rw [hlines]
        show _ ↔ LineFits above (more.foldl (hearChar above) (hearChar above line character)) ∧ _
        by_cases hfits : LineFits above (hearChar above line character)
        · have hstep : (terminalWritechar t character color).Safe :=
              terminalWritechar_safe.mpr ⟨(h.takes_iff hnewline).mpr hfits, hsafe⟩
          rw [ih (h.char hnewline hfits) hstep, hsplit]
          exact Iff.rfl
        · refine iff_of_false (fun hwritten => ?_) fun hrest => hfits hrest.1.of_heard
          exact hfits ((h.takes_iff hnewline).mp (terminalWritechar_safe.mp hwritten.of_write).1)

/-- The cursor after `terminal_initialize`. -/
theorem terminalInitialize_behind (ht : t.Safe) : (terminalInitialize t).Behind 0 [] := by
  obtain ⟨_, hrow, hcolumn⟩ := terminalInitialize_safe ht
  exact ⟨hrow, hcolumn, Or.inl rfl⟩

end Text

/-- The characters of a series of calls. -/
def printedText (calls : List TerminalCall) : List (BitVec 8) := (calls.flatMap TerminalCall.chars).map Prod.fst

/-- **When all output stays on the screen**: for every series of calls after `terminal_initialize`, all writes go to
    the screen if and only if every line of the text lies on it. -/
theorem terminalRun_onScreen_iff (calls : List TerminalCall) :
    (terminalRun (terminalInitialize freshTerminal) calls).Safe ↔ TextFits (printedText calls) := by
  have hfresh : freshTerminal.Safe := fun _ hmem => absurd hmem List.not_mem_nil
  rw [terminalRun_eq, terminalWrite_safe (terminalInitialize_behind hfresh) (terminalInitialize_safe hfresh).1]
  obtain ⟨line, lines, hsplit⟩ := splitOn_cons (printedText calls)
  unfold TextFits
  rw [hsplit]
  unfold printedText at hsplit
  rw [hsplit]
  exact Iff.rfl

/-- A column of newlines. -/
theorem terminalWrite_newlines {t : Terminal} (hrow : t.row = 0) (hcolumn : t.column = 0) (n : Nat)
    (hn : n < 2147483648) : (terminalWrite t (List.replicate n (0x0A, 15))).row = n ∧
      (terminalWrite t (List.replicate n (0x0A, 15))).column = 0 := by
  induction n with
  | zero => exact ⟨hrow, hcolumn⟩
  | succ n ih =>
      have hlast : terminalWrite t (List.replicate (n + 1) (0x0A, 15))
          = terminalWritechar (terminalWrite t (List.replicate n (0x0A, 15))) 0x0A 15 := by
        rw [List.replicate_succ']
        exact List.foldl_append
      rw [hlast]
      refine ⟨?_, rfl⟩
      show s32 ((terminalWrite t (List.replicate n (0x0A, 15))).row + 1) = _
      rw [(ih (by omega)).1, s32_of_range (by omega) (by omega)]
      rfl

/-- The 26th line is behind the screen. -/
theorem terminalRun_leaves_screen :
    ¬ ∀ calls : List TerminalCall, (terminalRun (terminalInitialize freshTerminal) calls).Safe := by
  intro h
  have hfresh : freshTerminal.Safe := fun _ hmem => absurd hmem List.not_mem_nil
  obtain ⟨_, hrow, hcolumn⟩ := terminalInitialize_safe hfresh
  obtain ⟨hrow', hcolumn'⟩ := terminalWrite_newlines hrow hcolumn 25 (by decide)
  have hchars : [TerminalCall.print (List.replicate 25 0x0A ++ [0x41])].flatMap TerminalCall.chars
      = List.replicate 25 (0x0A, 15) ++ [(0x41, 15)] := by decide
  have hrun := h [.print (List.replicate 25 0x0A ++ [0x41])]
  rw [terminalRun_eq, hchars] at hrun
  have hlast : terminalWrite (terminalInitialize freshTerminal) (List.replicate 25 (0x0A, 15) ++ [(0x41, 15)])
      = terminalWriteGlyph (terminalWrite (terminalInitialize freshTerminal) (List.replicate 25 (0x0A, 15)))
          0x41 15 := List.foldl_append
  rw [hlast, terminalWriteGlyph_safe] at hrun
  have hcell : ¬ OnScreen (s32 (vgaWidth * (25 : Nat) + 0)) := by decide
  apply hcell
  rw [← hrow', ← hcolumn']
  exact hrun.1

end BimbleOS
