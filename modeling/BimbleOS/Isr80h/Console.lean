import BimbleOS.Isr80h.Output
import BimbleOS.Stdlib.Lines

/-!
# `Isr80h.Console` — what the library of the programs puts on the screen

`bimbleos_terminal_realine` echoes every key, a backspace too, and the terminal takes a character back for it. So the
screen shows the line that the call leaves in its array (`realine_shows`).
-/

namespace BimbleOS

open Bytes Stdlib Transition

/-! ## The echo of a line -/

/-- No backspace comes on the empty line, up to the end of the line. -/
def BackspacesFind (size : Nat) : List (BitVec 8) → List (BitVec 8) → Prop
  | _, [] => True
  | line, key :: keys =>
      size ≤ line.length ∨ key = returnKey ∨
        (key = backspaceKey → line ≠ []) ∧ BackspacesFind size (editKey line key) keys

section Echo

variable {size : Nat} {l : Sheet (BitVec 8)} {line result keys text : List (BitVec 8)} {key : BitVec 8}

theorem BackspacesFind.next (h : BackspacesFind size line (key :: keys)) (hfull : ¬ size ≤ line.length)
    (hreturn : key ≠ returnKey) :
    (key = backspaceKey → line ≠ []) ∧ BackspacesFind size (editKey line key) keys :=
  (h.resolve_left hfull).resolve_left hreturn

/-- Then there are none to pair up. -/
theorem BackspacesFind.pairsUp (h : BackspacesFind size line keys) : PairsUp size false line.length keys := by
  induction keys generalizing line with
  | nil => exact fun _ => rfl
  | cons key keys ih =>
      by_cases hfull : size ≤ line.length
      · have hroom : size ≤ line.length + false.toNat := hfull
        rw [PairsUp, if_pos (Or.inl hroom)]
      by_cases hreturn : key = returnKey
      · rw [PairsUp, if_pos (Or.inr hreturn)]
      · obtain ⟨hfind, hrest⟩ := h.next hfull hreturn
        rw [pairsUp_key hfull hreturn, if_neg fun hempty => hfind hempty.1 hempty.2]
        exact ih hrest

theorem writeAllOn_snoc : writeAllOn l (text ++ [key]) = writeOn (writeAllOn l text) key := List.foldl_append

/-- A backspace takes back the character that was written last, if it stands in its row. -/
theorem writeOn_backspace {c : BitVec 8} (hc : c ≠ backspaceKey) (hroom : RoomOn (writeOn l c) backspaceKey) :
    writeOn (writeOn l c) backspaceKey = l := by
  have hrow : (writeOn l c).line ≠ [] ∨ (writeOn l c).done = [] := hroom.2 rfl
  -- nothing is taken back behind a new line
  have hnewline : ∀ l' : Sheet (BitVec 8), ¬ (l'.newline.line ≠ [] ∨ l'.newline.done = []) := by
    rintro l' (hline | hdone)
    · exact hline rfl
    · exact absurd hdone (List.append_ne_nil_of_right_ne_nil _ (List.cons_ne_nil _ _))
  have herase : ∀ l' : Sheet (BitVec 8), writeOn l' backspaceKey = l'.erase := fun _ => rfl
  rw [herase]
  unfold writeOn at hrow ⊢
  split at hrow
  · exact absurd hrow (hnewline l)
  rename_i hchar
  rw [if_neg hchar]
  rw [if_neg (show ¬ c = 0x08 from hc)] at hrow ⊢
  unfold Sheet.type at hrow ⊢
  split at hrow
  · rename_i hfits
    rw [if_pos hfits, Sheet.erase, List.dropLast_concat]
  · exact absurd hrow (hnewline _)

/-- **The echo**: the keys of a line leave on the sheet what the edited line does. The induction is on the keys. -/
theorem writeAllOn_keys (hfind : BackspacesFind size line keys) (hline : backspaceKey ∉ line)
    (hroom : RoomForAll (writeAllOn l line) (lineKeys editKey size line keys))
    (hrun : lineRun editKey size line keys = some result) :
    writeAllOn (writeAllOn l line) (lineKeys editKey size line keys) = writeAllOn l result := by
  induction keys generalizing line with
  | nil =>
      obtain rfl : line = result := lineRun_keys hrun
      rfl
  | cons key keys ih =>
      by_cases hfull : size ≤ line.length
      · rw [lineRun_full hfull] at hrun
        rw [lineKeys_full hfull, Option.some.inj hrun]
        rfl
      by_cases hreturn : key = returnKey
      · subst hreturn
        obtain rfl := lineRun_keys hrun
        rw [lineKeys_return hfull]
        rfl
      obtain ⟨hfind, hrest⟩ := hfind.next hfull hreturn
      rw [lineRun_key hfull hreturn] at hrun
      rw [lineKeys_key hfull hreturn] at hroom ⊢
      have hkey : writeOn (writeAllOn l line) key = writeAllOn l (editKey line key) := by
        unfold editKey
        by_cases hback : key = backspaceKey
        · rw [if_pos hback, hback]
          -- the last character of the line goes
          obtain ⟨init, c, rfl⟩ := List.eq_nil_or_concat' line |>.resolve_left (hfind hback)
          rw [List.dropLast_concat]
          rw [writeAllOn_snoc, hback] at hroom
          rw [writeAllOn_snoc]
          refine writeOn_backspace (fun hc => hline ?_) hroom.1
          rw [hc]
          exact List.mem_append_right _ List.mem_cons_self
        · rw [if_neg hback, writeAllOn_snoc]
      have hstep := ih hrest (backspaceKey_notMem_editKey hline) (hkey ▸ hroom.2) hrun
      rw [← hstep, ← hkey]
      rfl

end Echo

/-- **What is on the screen is what is read.** A line is read with its echo, in which no backspace comes on the empty
    line; the characters that it hands over are written by system calls, between which other tasks may run. Then the
    screen shows, behind what it showed before, the string that the call has left in its array. -/
theorem realine_shows {ds : Nat → Prop} {buf out max : Nat} {l : Sheet (BitVec 8)} {w : Writes}
    {polls : List (BitVec 8)} {input' : LineInput} {s₀ s : Kernel × Terminal}
    {tr : List ((Kernel × Terminal) × List (BitVec 8))} (hmax : 2 ≤ max) (hword : max < 4294967296)
    (hfind : BackspacesFind (max - 1) [] (keysOf polls))
    (hrun : bimbleosTerminalRealine out max true { out := w, polls := polls } = some input')
    (h : Trace (OutputStep ds buf) s₀ tr s) (htext : (tr.map Prod.snd).flatten = input'.put)
    (hshows : Shows s₀.2 l) (hroom : RoomForAll l input'.put) :
    ∃ line, HoldsString input'.out.memory out line ∧ Shows s.2 (writeAllOn l line) := by
  obtain ⟨hwait, hreturns⟩ := @bimbleosTerminalRealine_line out max true { out := w, polls := polls } hmax hword
    hfind.pairsUp
  cases hline : lineRun editKey (max - 1) [] (keysOf polls) with
  | none =>
      rw [hwait hline] at hrun
      cases hrun
  | some line =>
      obtain ⟨input'', hrun', hholds, _, _, hput⟩ := hreturns line hline
      obtain rfl : input'' = input' := Option.some.inj (hrun'.symm.trans hrun)
      have hkeys : input''.put = lineKeys editKey (max - 1) [] (keysOf polls) := hput rfl
      have hwritten := outputSteps_written h hshows
      rw [htext] at hwritten
      refine ⟨line, hholds, ?_⟩
      have hecho := @writeAllOn_keys (max - 1) l [] line (keysOf polls) hfind List.not_mem_nil (hkeys ▸ hroom) hline
      rw [← hecho, ← hkeys]
      exact hwritten hroom

/-- `A` and return are typed, on a screen that has been cleared. -/
theorem realine_shows_letter : ∃ input' k' t',
    bimbleosTerminalRealine 0x100 10 true { out := { memory := fun _ => 0xFF }, polls := [0x41, 0x0D] } = some input' ∧
      isr80hCommand1Print 0x300000 (terminalInitialize freshTerminal) letterKernel = .ok (t', k') ∧
      ∃ line, HoldsString input'.out.memory 0x100 line ∧ Shows t' (writeAllOn {} line) := by
  have htext :
      stringAt (letterKernel.taskMemory letterKernel.tasks.currentTask) 0x400000 (messageSize - 1) = [0x41] := by
    rw [messageSize_eq, show 1024 - 1 = 1022 + 1 from rfl]
    exact letterKernel_string
  have hfind : BackspacesFind 9 [] (keysOf [0x41, 0x0D]) :=
    Or.inr (Or.inr ⟨by decide, Or.inr (Or.inl rfl)⟩)
  have hfresh := terminalInitialize_shows freshTerminal
  generalize terminalInitialize freshTerminal = t at hfresh ⊢
  obtain ⟨k', hprint, _⟩ := @isr80hCommand1Print_writes _ _ _ _ t letterKernel_readsMessage
  refine ⟨_, k', _, rfl, hprint, ?_⟩
  generalize terminalWrite t _ = t' at hprint ⊢
  have htrace := Trace.snoc Trace.nil (OutputStep.print letterKernel_readsMessage hprint)
  rw [htext] at htrace
  exact @realine_shows _ _ 0x100 10 _ _ _ _ _ _ _ (by decide) (by decide) hfind rfl htrace rfl hfresh
    ⟨by decide, True.intro⟩

end BimbleOS
