import BimbleOS.Keyboard.Classic
import BimbleOS.Stdlib.Lines

/-!
# `Stdlib.TypedLine` — from the keyboard to the line

What `bimbleos_getkey` answers is what `keyboard_pop` takes out of the buffer of the process, and what is in there is
what the keyboard interrupts have put there. So the line that a program reads is the line that was typed: the edited
one, letters as caps lock then was, whenever the keys arrive and however often the program asks.
-/

namespace BimbleOS.Stdlib

open Bytes Transition

/-- What `bimbleos_getkey` has answered during a history. -/
def getkeyAnswers (es : List ClassicEvent) : List (BitVec 8) := es.filterMap ClassicEvent.answer

/-- **The line that is read is the line that was typed.** The task of `p` reads a line; its calls of `bimbleos_getkey`
    are answered during a history of the keyboard in which at most 1024 characters wait at any time. Whatever the
    order of interrupts and calls, the call returns once a whole line has been read, and it leaves the typed text as
    it was edited, provided that the backspaces on the empty line come in pairs. -/
theorem typedLine {p out max : Nat} {caps echo : Bool} {s₀ s : KeyboardState} {tr : List (KeyboardState × ClassicEvent)}
    {w : Writes} (hp : p ≠ 0) (hempty : (s₀.kernel.process p).keyboard = {})
    (hcaps : s₀.capslockState = capsState caps) (h : Trace (ClassicStep p) s₀ tr s)
    (hroom : HasRoom caps (tr.map Prod.snd)) (hmax : 2 ≤ max) (hword : max < 4294967296)
    (hpairs : PairsUp (max - 1) false 0 (typedText caps (tr.map Prod.snd))) :
    (∀ line, lineRun editKey (max - 1) [] (readText (tr.map Prod.snd)) = some line →
      (bimbleosTerminalRealine out max echo { out := w, polls := getkeyAnswers (tr.map Prod.snd) }).isSome) ∧
    ∀ input',
      bimbleosTerminalRealine out max echo { out := w, polls := getkeyAnswers (tr.map Prod.snd) } = some input' →
      ∃ line, lineRun editKey (max - 1) [] (typedText caps (tr.map Prod.snd)) = some line ∧
        HoldsString input'.out.memory out line ∧ backspaceKey ∉ line := by
  obtain ⟨unread, htyped, _⟩ := (classicKeyboard_delivered hp hempty hcaps h hroom).unread
  have hread : readText (tr.map Prod.snd) = keysOf (getkeyAnswers (tr.map Prod.snd)) := rfl
  rw [hread] at htyped ⊢
  rw [← htyped] at hpairs ⊢
  obtain ⟨hwait, hreturns⟩ := @bimbleosTerminalRealine_line out max echo
    { out := w, polls := getkeyAnswers (tr.map Prod.snd) } hmax hword hpairs.start
  refine ⟨fun line hline => ?_, fun input' hrun => ?_⟩
  · obtain ⟨input', hrun, _⟩ := hreturns line hline
    rw [hrun]
    rfl
  · cases hline : lineRun editKey (max - 1) [] (keysOf (getkeyAnswers (tr.map Prod.snd))) with
    | none =>
        rw [hwait hline] at hrun
        cases hrun
    | some line =>
        obtain ⟨input'', hrun', hholds, hback, _⟩ := hreturns line hline
        obtain rfl : input'' = input' := Option.some.inj (hrun'.symm.trans hrun)
        exact ⟨line, lineRun_append hline, hholds, hback⟩

/-- `a` and return are typed and read. -/
theorem typedLine_letter : ∃ input',
    bimbleosTerminalRealine 0x100 10 true { out := { memory := fun _ => 0xFF }, polls := [0x61, 0x0D] } = some input' ∧
      ∃ line, lineRun editKey 9 [] [0x61, 0x0D] = some line ∧ HoldsString input'.out.memory 0x100 line ∧
        backspaceKey ∉ line := by
  obtain ⟨tr, s, htrace, hevents⟩ := typing_trace
  have htext : typedText false typingEvents = [0x61, 0x0D] := by decide
  have hedited : lineRun editKey 9 [] (readText typingEvents) = some [0x61] := by decide
  obtain ⟨hreturns, hholds⟩ := @typedLine 4096 0x100 10 false true _ s tr { memory := fun _ => 0xFF } (by decide)
    (withKeyboard_self : ((keyKernel.withKeyboard 4096 {}).process 4096).keyboard = {}) rfl htrace
    (by rw [hevents]; exact typingEvents_hasRoom) (by decide) (by decide)
    (by rw [hevents, htext]; simp [PairsUp, returnKey, backspaceKey])
  rw [hevents] at hreturns hholds
  obtain ⟨input', hrun⟩ := Option.isSome_iff_exists.mp (hreturns [0x61] hedited)
  exact ⟨input', hrun, hholds input' hrun⟩

end BimbleOS.Stdlib
