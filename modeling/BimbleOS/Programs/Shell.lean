import BimbleOS.Isr80h.SystemRun
import BimbleOS.Stdlib.TypedLine

/-!
# `Programs.Shell` — `programs/shell/src/shell.c`

The shell reads a line and runs it as a command, again and again. The keys go through the keyboard interrupts and the
buffer of the process, the line through an array on the stack, its pieces through `strtok` and nodes on the heap, and
system call 7 copies them for the program that it starts. Over any session the program of the `n`-th round is started
with the words of the `n`-th line that was typed (`shell_runsLines`). Two things are kept from one round to the next:
the keys behind the line, and `sp` of `strtok`, which is null again unless memory ran out.
-/

namespace BimbleOS

open Bytes Stdlib Transition

/-- `sizeof(buff)`. -/
def sizeofBuff : Nat := 1024

/-- What a round of the shell finds: the answers of `malloc`, and memory, which anything may have changed. -/
structure ShellRound (own : Nat → Prop) where
  malloc : NodeMalloc own
  memory : Mem

/-- What a round leaves: the result of `bimbleos_system_run` or the list that goes to `bimbleos_system`, the memory with
    this list, and what the shell has written. -/
structure ShellEnd where
  result : Except Int Nat
  memory : Mem
  put : List (BitVec 8)

section Shell

variable {own : Nat → Prop}

/-- A round of the loop in `main`, with the keys and `sp` that are left for the next one. The prompt is written before
    the line is read, a new line before it is run and another one when the call has returned. -/
def shellRound (buff buf scommand : Nat) (round : ShellRound own) (polls : List (BitVec 8)) (sp : Nat) :
    Option (ShellEnd × List (BitVec 8) × Nat) :=
  (bimbleosTerminalRealine buff sizeofBuff true
      { out := { memory := round.memory }, polls := polls, put := [0x3E] }).bind fun input =>
    (bimbleosSystemRun round.malloc buff buf scommand input.out.memory sp).map fun (result, memory, sp) =>
      ({ result := result, memory := memory, put := input.put ++ [0x0A, 0x0A] }, input.polls, sp)

/-- The rounds of a session. -/
def shellRounds (buff buf scommand : Nat) :
    List (ShellRound own) → List (BitVec 8) → Nat → Option (List ShellEnd)
  | [], _, _ => some []
  | round :: rounds, polls, sp =>
      (shellRound buff buf scommand round polls sp).bind fun (e, polls, sp) =>
        (shellRounds buff buf scommand rounds polls sp).map fun ends => e :: ends

/-! ## A session -/

/-- The arrays on the stack of the shell. -/
structure ShellArrays (own : Nat → Prop) (buff buf scommand : Nat) : Prop where
  own : ∀ a, scommand ≤ a → a < scommand + sizeofScommand → own a
  notNull : scommand ≠ 0
  inside : scommand + sizeofScommand ≤ addressSpace
  apart : buf + sizeofBuf ≤ buff ∨ buff + sizeofBuff ≤ buf
  beside : scommand + sizeofScommand ≤ buf ∨ buf + sizeofBuf ≤ scommand

/-- No round but the last runs out of memory for the pieces of its line. -/
def MemoryLasts : List (ShellRound own) → List (BitVec 8) → Prop
  | round :: round' :: rounds, keys =>
      (∀ line, lineRun editKey (sizeofBuff - 1) [] keys = some line →
        ∀ i, i < (pieces line).length → round.malloc.ptr i ≠ 0) ∧
      MemoryLasts (round' :: rounds) (lineRest editKey (sizeofBuff - 1) [] keys)
  | _, _ => True

/-- Every round has run its line. -/
inductive RunLines : List (ShellRound own) → List (List (BitVec 8)) → List ShellEnd → Prop where
  | nil : RunLines [] [] []
  | cons {round : ShellRound own} {rounds : List (ShellRound own)} {line : List (BitVec 8)}
      {lines : List (List (BitVec 8))} {e : ShellEnd} {ends : List ShellEnd} :
      RunsCommand round.malloc line e.result e.memory → RunLines rounds lines ends →
      RunLines (round :: rounds) (line :: lines) (e :: ends)

variable {buff buf scommand : Nat} {round : ShellRound own} {rounds : List (ShellRound own)}
  {polls keys more line : List (BitVec 8)} {lines : List (List (BitVec 8))}

theorem shellRound_waits (hpairs : PairsUp (sizeofBuff - 1) false 0 (keysOf polls))
    (hline : lineRun editKey (sizeofBuff - 1) [] (keysOf polls) = none) {sp : Nat} :
    shellRound buff buf scommand round polls sp = none := by
  unfold shellRound
  rw [(@bimbleosTerminalRealine_line buff sizeofBuff true _ (by decide) (by decide) hpairs).1 hline]
  rfl

/-- **A round** runs its line. -/
theorem shellRound_runs (harrays : ShellArrays own buff buf scommand)
    (hpairs : PairsUp (sizeofBuff - 1) false 0 (keysOf polls))
    (hline : lineRun editKey (sizeofBuff - 1) [] (keysOf polls) = some line) :
    ∃ e polls' sp, shellRound buff buf scommand round polls 0 = some (e, polls', sp) ∧
      RunsCommand round.malloc line e.result e.memory ∧
      keysOf polls' = lineRest editKey (sizeofBuff - 1) [] (keysOf polls) ∧
      ((∀ i, i < (pieces line).length → round.malloc.ptr i ≠ 0) → sp = 0) := by
  obtain ⟨input, hread, hholds, _, hrest, _⟩ :=
    (@bimbleosTerminalRealine_line buff sizeofBuff true
      { out := { memory := round.memory }, polls := polls, put := [0x3E] } (by decide) (by decide) hpairs).2 line hline
  have hshort : line.length ≤ sizeofBuff - 1 := length_lineRun (Nat.zero_le _) hline
  have hsize : sizeofBuff = 1024 := rfl
  have hsize' : sizeofBuf = 1024 := rfl
  have hbuffers := harrays.apart
  obtain ⟨root, m, sp, hrun, hbuilt, hzero⟩ := @bimbleosSystemRun_spec own round.malloc _ buff buf scommand line
    harrays.own harrays.notNull harrays.inside hholds (by omega) harrays.beside
  rw [List.take_of_length_le (show line.length ≤ sizeofBuf - 1 by omega)] at hbuilt hzero
  have hruns := runsCommand_of_built hbuilt
  unfold shellRound
  rw [hread, Option.bind_some, hrun]
  by_cases hroot : root = 0
  · rw [if_pos hroot] at hruns ⊢
    exact ⟨_, _, sp, rfl, hruns, hrest, hzero⟩
  · rw [if_neg hroot] at hruns ⊢
    exact ⟨_, _, sp, rfl, hruns, hrest, hzero⟩

theorem memoryLasts_nil : MemoryLasts rounds [] := by
  induction rounds with
  | nil => exact True.intro
  | cons round rounds ih =>
      cases rounds with
      | nil => exact True.intro
      | cons round' rounds => exact ⟨fun _ hline => (by cases hline), ih⟩

theorem MemoryLasts.start (h : MemoryLasts rounds (keys ++ more)) : MemoryLasts rounds keys := by
  induction rounds generalizing keys with
  | nil => exact True.intro
  | cons round rounds ih =>
      cases rounds with
      | nil => exact True.intro
      | cons round' rounds =>
          refine ⟨fun line hline => h.1 line (lineRun_append hline), ?_⟩
          cases hline : lineRun editKey (sizeofBuff - 1) [] keys with
          | none =>
              rw [lineRest_none hline]
              exact memoryLasts_nil
          | some line =>
              have hrest := h.2
              rw [lineRest_append hline] at hrest
              exact ih hrest

/-- The rounds of a session run the lines that are there, and wait for those that are missing. The induction is on the
    rounds; `sp` is null in front of each. -/
theorem shellRounds_runs (harrays : ShellArrays own buff buf scommand)
    (hpairs : LinesPairUp (sizeofBuff - 1) rounds.length (keysOf polls)) (hlasts : MemoryLasts rounds (keysOf polls)) :
    (editedLines (sizeofBuff - 1) rounds.length (keysOf polls) = none →
      shellRounds buff buf scommand rounds polls 0 = none) ∧
    ∀ lines, editedLines (sizeofBuff - 1) rounds.length (keysOf polls) = some lines →
      ∃ ends, shellRounds buff buf scommand rounds polls 0 = some ends ∧ RunLines rounds lines ends := by
  induction rounds generalizing polls with
  | nil =>
      refine ⟨fun h => ?_, fun lines h => ?_⟩
      · cases h
      · cases h
        exact ⟨[], rfl, .nil⟩
  | cons round rounds ih =>
      rw [List.length_cons, editedLines, shellRounds]
      cases hline : lineRun editKey (sizeofBuff - 1) [] (keysOf polls) with
      | none =>
          rw [shellRound_waits hpairs.1 hline]
          refine ⟨fun _ => rfl, fun lines h => ?_⟩
          cases h
      | some line =>
          obtain ⟨e, polls', sp, hround, hruns, hrest, hzero⟩ := @shellRound_runs own buff buf scommand round polls line
            harrays hpairs.1 hline
          rw [hround, Option.bind_some, Option.bind_some]
          dsimp only
          cases rounds with
          | nil =>
              refine ⟨fun h => ?_, fun lines h => ?_⟩
              · cases h
              · cases h
                exact ⟨[e], rfl, .cons hruns .nil⟩
          | cons round' rounds =>
              obtain rfl := hzero (hlasts.1 line hline)
              obtain ⟨hwait, hreturns⟩ := @ih polls' (hrest ▸ hpairs.2) (hrest ▸ hlasts.2)
              rw [hrest] at hwait hreturns
              refine ⟨fun h => ?_, fun lines h => ?_⟩
              · rw [hwait (Option.map_eq_none_iff.mp h)]
                rfl
              · obtain ⟨lines, hlines, rfl⟩ := Option.map_eq_some_iff.mp h
                obtain ⟨ends, hends, hall⟩ := hreturns lines hlines
                rw [hends]
                exact ⟨e :: ends, rfl, .cons hruns hall⟩

end Shell

/-- **The shell runs what is typed.** Its calls of `bimbleos_getkey` are answered during a history of the keyboard in
    which at most 1024 characters wait at any time, the backspaces on an empty line come in pairs, and no round but the
    last runs out of memory. Whatever the order of interrupts and calls, and whatever happens to the rest of memory
    between two rounds, the session gets as far as whole lines have been read, and the `n`-th round runs the `n`-th line
    of the typed text. -/
theorem shell_runsLines {own : Nat → Prop} {p buff buf scommand : Nat} {caps : Bool} {s₀ s : KeyboardState}
    {tr : List (KeyboardState × ClassicEvent)} {rounds : List (ShellRound own)} (hp : p ≠ 0)
    (hempty : (s₀.kernel.process p).keyboard = {}) (hcaps : s₀.capslockState = capsState caps)
    (h : Trace (ClassicStep p) s₀ tr s) (hroom : HasRoom caps (tr.map Prod.snd))
    (harrays : ShellArrays own buff buf scommand)
    (hpairs : LinesPairUp (sizeofBuff - 1) rounds.length (typedText caps (tr.map Prod.snd)))
    (hlasts : MemoryLasts rounds (typedText caps (tr.map Prod.snd))) :
    (∀ lines, editedLines (sizeofBuff - 1) rounds.length (readText (tr.map Prod.snd)) = some lines →
      (shellRounds buff buf scommand rounds (getkeyAnswers (tr.map Prod.snd)) 0).isSome) ∧
    ∀ ends, shellRounds buff buf scommand rounds (getkeyAnswers (tr.map Prod.snd)) 0 = some ends →
      ∃ lines, editedLines (sizeofBuff - 1) rounds.length (typedText caps (tr.map Prod.snd)) = some lines ∧
        RunLines rounds lines ends := by
  obtain ⟨unread, htyped, _⟩ := (classicKeyboard_delivered hp hempty hcaps h hroom).unread
  have hread : readText (tr.map Prod.snd) = keysOf (getkeyAnswers (tr.map Prod.snd)) := rfl
  rw [hread] at htyped ⊢
  rw [← htyped] at hpairs hlasts ⊢
  obtain ⟨hwait, hreturns⟩ := shellRounds_runs harrays hpairs.start hlasts.start
  refine ⟨fun lines hlines => ?_, fun ends hends => ?_⟩
  · obtain ⟨ends, hends, _⟩ := hreturns lines hlines
    rw [hends]
    rfl
  · cases hlines : editedLines (sizeofBuff - 1) rounds.length (keysOf (getkeyAnswers (tr.map Prod.snd))) with
    | none =>
        rw [hwait hlines] at hends
        cases hends
    | some lines =>
        obtain ⟨ends', hends', hall⟩ := hreturns lines hlines
        obtain rfl : ends' = ends := Option.some.inj (hends'.symm.trans hends)
        exact ⟨lines, editedLines_append hlines, hall⟩

/-! A session of two rounds, in which `a` and `b` are typed. -/

/-- The keys of the second line are struck while the first one is read. -/
def sessionEvents : List ClassicEvent :=
  [.key true 0x1E, .key true 0x1C, .pop 0x61, .key true 0x30, .pop 0x0D, .key true 0x1C, .pop 0x62, .pop 0x0D]

theorem session_trace : ∃ tr s, Trace (ClassicStep 4096) (typingState {}) tr s ∧ tr.map Prod.snd = sessionEvents :=
  ⟨_, _, (((((((Trace.nil.snoc (typingState_key (c := 0x61) {} (by decide) (by decide) (by decide))).snoc
    (typingState_key (c := 0x0D) _ (by decide) (by decide) (by decide))).snoc
    (typingState_pop (c := 0x61) _ (by decide) (by decide))).snoc
    (typingState_key (c := 0x62) _ (by decide) (by decide) (by decide))).snoc
    (typingState_pop (c := 0x0D) _ (by decide) (by decide))).snoc
    (typingState_key (c := 0x0D) _ (by decide) (by decide) (by decide))).snoc
    (typingState_pop (c := 0x62) _ (by decide) (by decide))).snoc
    (typingState_pop (c := 0x0D) _ (by decide) (by decide)), rfl⟩

theorem sessionEvents_hasRoom : HasRoom false sessionEvents := by
  have hall : ∀ es' ∈ sessionEvents.inits, (typedText false es').length ≤ (readText es').length + 1024 := by decide
  exact fun es' hprefix => hall es' ((List.mem_inits es' sessionEvents).mpr hprefix)

/-- In each round there is memory for one node. -/
def sessionRounds : List (ShellRound fun a => 0x2000 ≤ a ∧ a < 0x2000 + sizeofScommand) :=
  [⟨oneNode, fun _ => 0xFF⟩, ⟨oneNode, fun _ => 0⟩]

theorem shell_runsLines_letter : ∃ ends,
    shellRounds 0x4000 0x3000 0x2000 sessionRounds [0x61, 0x0D, 0x62, 0x0D] 0 = some ends ∧
      ∃ lines, editedLines (sizeofBuff - 1) 2 [0x61, 0x0D, 0x62, 0x0D] = some lines ∧
        RunLines sessionRounds lines ends := by
  obtain ⟨tr, s, htrace, hevents⟩ := session_trace
  have htext : typedText false sessionEvents = [0x61, 0x0D, 0x62, 0x0D] := by decide
  have hedited : editedLines (sizeofBuff - 1) 2 (readText sessionEvents) = some [[0x61], [0x62]] := by decide
  have hline : lineRun editKey (sizeofBuff - 1) [] [0x61, 0x0D, 0x62, 0x0D] = some [0x61] := by decide
  have hrest : lineRest editKey (sizeofBuff - 1) [] [0x61, 0x0D, 0x62, 0x0D] = [0x62, 0x0D] := by decide
  have harrays : ShellArrays (fun a => 0x2000 ≤ a ∧ a < 0x2000 + sizeofScommand) 0x4000 0x3000 0x2000 :=
    ⟨fun a hlo hhi => ⟨hlo, hhi⟩, by decide, by decide, by decide, by decide⟩
  have hpairs : LinesPairUp (sizeofBuff - 1) 2 [0x61, 0x0D, 0x62, 0x0D] := by
    refine ⟨by simp [PairsUp, returnKey, backspaceKey], ?_, True.intro⟩
    rw [hrest]
    simp [PairsUp, returnKey, backspaceKey]
  have hlasts : MemoryLasts sessionRounds [0x61, 0x0D, 0x62, 0x0D] := by
    refine ⟨fun line h i hi => ?_, True.intro⟩
    obtain rfl : [0x61] = line := Option.some.inj (hline.symm.trans h)
    have hone : (pieces [0x61]).length = 1 := by decide
    obtain rfl : i = 0 := by omega
    decide
  obtain ⟨hreturns, hruns⟩ := @shell_runsLines _ 4096 0x4000 0x3000 0x2000 false _ s tr sessionRounds
    (by decide) (withKeyboard_self : ((keyKernel.withKeyboard 4096 {}).process 4096).keyboard = {}) rfl htrace
    (by rw [hevents]; exact sessionEvents_hasRoom) harrays (by rw [hevents, htext]; exact hpairs)
    (by rw [hevents, htext]; exact hlasts)
  rw [hevents] at hreturns hruns
  obtain ⟨ends, hends⟩ := Option.isSome_iff_exists.mp (hreturns [[0x61], [0x62]] hedited)
  exact ⟨ends, hends, hruns ends hends⟩

end BimbleOS
