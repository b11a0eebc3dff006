import BimbleOS.Isr80h.CopyString
import BimbleOS.Isr80h.KernelPath
import BimbleOS.Kernel.Screen
import BimbleOS.Lib.Simulation

/-!
# `Isr80h.Output` — what programs put on the screen

The system calls of `isr80h/io.c` that write to the terminal. A message is copied out of the memory of the task first,
up to 1023 characters of it. Over any run of system calls the screen shows what the tasks have written, in the order
of their calls (`output_shows`).
-/

namespace BimbleOS

open Bytes CWord Exec Transition

/-- `print` of the string at `str`. -/
def terminalPrint (t : Terminal) (m : Mem) (str : Nat) : Terminal :=
  terminalWrite t (TerminalCall.print (stringAt m str (4294967296 - str))).chars

/-- The size of the array that a message is copied to. -/
@[irreducible] def messageSize : Nat := 1024

theorem messageSize_eq : messageSize = 1024 := by
  unfold messageSize
  rfl

/-- `isr80h_command1_print`; `buf` is its array on the stack. The result of the copy is not looked at. -/
def isr80hCommand1Print (buf : Nat) (t : Terminal) : KM Terminal := do
  let k ← get
  let userSpaceMsgBuffer ← taskGetStackItem k.tasks.currentTask 0
  let _ ← copyStringFromTask k.tasks.currentTask userSpaceMsgBuffer buf messageSize
  let k ← get
  return terminalPrint t k.memory buf

/-- `isr80h_command3_putchar`. -/
def isr80hCommand3Putchar (t : Terminal) : KM Terminal := do
  let k ← get
  let c ← taskGetStackItem k.tasks.currentTask 0
  return terminalWritechar t (BitVec.ofNat 8 c) 15

/-- The running task passes the address of a message that it can read, and the kernel has a block to copy it through. -/
structure ReadsMessage (ds : Nat → Prop) (k : Kernel) (virt buf : Nat) : Prop where
  item : taskGetStackItem k.tasks.currentTask 0 k = .ok (virt, k)
  view : OwnDirectory ds k k.tasks.currentTask
  runs : k.RunsWith k.tasks.currentTask
  ready : k.heap.Ready
  answered : (heapMalloc k.heap messageSize).1 ≠ 0
  source : SourceApart k k.tasks.currentTask virt (messageSize - 1) (heapMalloc k.heap messageSize).1
  apart : buf + messageSize ≤ (heapMalloc k.heap messageSize).1 ∨ (heapMalloc k.heap messageSize).1 + messageSize ≤ buf
  inside : buf + messageSize ≤ 4294967296

/-- A system call, with the text that the task wants written: the two calls above, or anything that leaves the terminal
    alone. -/
inductive OutputStep (ds : Nat → Prop) (buf : Nat) :
    Kernel × Terminal → List (BitVec 8) → Kernel × Terminal → Prop where
  | print {k k' : Kernel} {t t' : Terminal} {virt : Nat} (hreads : ReadsMessage ds k virt buf)
      (hrun : isr80hCommand1Print buf t k = .ok (t', k')) :
      OutputStep ds buf (k, t) (stringAt (k.taskMemory k.tasks.currentTask) virt (messageSize - 1)) (k', t')
  | putchar {k k' : Kernel} {t t' : Terminal} {c : Nat} (hitem : taskGetStackItem k.tasks.currentTask 0 k = .ok (c, k))
      (hrun : isr80hCommand3Putchar t k = .ok (t', k')) : OutputStep ds buf (k, t) [BitVec.ofNat 8 c] (k', t')
  | other {k k' : Kernel} {t : Terminal} : OutputStep ds buf (k, t) [] (k', t)

section Output

variable {ds : Nat → Prop} {buf virt : Nat} {k k' : Kernel} {t t' : Terminal} {l : Sheet (BitVec 8)}
  {text text' : List (BitVec 8)}

theorem print_chars (h : ∀ c ∈ text, c ≠ 0) : (TerminalCall.print text).chars = text.map fun c => (c, 15) := by
  show ((text.takeWhile fun c => decide (c ≠ 0)).map fun c => (c, 15)) = _
  rw [List.takeWhile_eq_self_iff.mpr fun c hc => decide_eq_true (h c hc)]

/-- **Printing a message**: what is written is what the task sees at the address it passes, and the tasks, the page
    tables and the blocks of the heap are as before. -/
theorem isr80hCommand1Print_writes (h : ReadsMessage ds k virt buf) :
    ∃ k', isr80hCommand1Print buf t k
        = .ok (terminalWrite t
          ((stringAt (k.taskMemory k.tasks.currentTask) virt (messageSize - 1)).map fun c => (c, 15)), k') ∧
      k'.tasks = k.tasks ∧ k'.pages.word = k.pages.word ∧ k'.heap.taken = k.heap.taken := by
  obtain ⟨k', hcopy, hholds, hkept⟩ := copyStringFromTask_copies h.view h.runs h.ready (by rw [messageSize_eq]; decide)
    (by rw [messageSize_eq]; decide) rfl h.answered h.source h.apart
  refine ⟨k', ?_, hkept⟩
  have hlength : _ ≤ messageSize - 1 := @length_stringAt (k.taskMemory k.tasks.currentTask) virt (messageSize - 1)
  generalize stringAt (k.taskMemory k.tasks.currentTask) virt (messageSize - 1) = text at hholds hlength ⊢
  have hprints : terminalPrint t k'.memory buf = terminalWrite t (text.map fun c => (c, 15)) := by
    have hinside := h.inside
    rw [messageSize_eq] at hinside hlength
    unfold terminalPrint
    rw [hholds.stringAt, List.take_of_length_le (by omega), print_chars (holdsString_iff.mp hholds).1]
  unfold isr80hCommand1Print
  rw [get_bind, bind_of_ok h.item, bind_of_ok hcopy, get_bind, hprints]
  rfl

/-- One call. -/
theorem outputStep_shows (hstep : OutputStep ds buf (k, t) text (k', t')) (hshows : Shows t l)
    (hroom : RoomForAll l text) :
    Shows t' (writeAllOn l text) := by
  generalize hs : (k, t) = s at hstep
  generalize hs' : (k', t') = s' at hstep
  cases hstep with
  | print hreads hrun =>
      cases hs
      cases hs'
      obtain ⟨k'', hwrites, _⟩ := isr80hCommand1Print_writes hreads
      obtain ⟨rfl, rfl⟩ := Prod.mk.inj (Except.ok.inj (hrun.symm.trans hwrites))
      have hfst : ∀ text : List (BitVec 8), (text.map fun c => (c, (15 : BitVec 8))).map Prod.fst = text := by
        intro text
        rw [List.map_map]
        exact List.map_id text
      have hwritten := @terminalWrite_shows t l _ hshows (by rw [hfst]; exact hroom)
      rwa [hfst] at hwritten
  | @putchar _ _ _ _ c hitem hrun =>
      cases hs
      cases hs'
      have hputs : isr80hCommand3Putchar t k = .ok (terminalWritechar t (BitVec.ofNat 8 c) 15, k) := by
        unfold isr80hCommand3Putchar
        rw [get_bind, bind_of_ok hitem]
        rfl
      obtain ⟨rfl, rfl⟩ := Prod.mk.inj (Except.ok.inj (hrun.symm.trans hputs))
      exact terminalWritechar_shows hshows hroom.1
  | other =>
      cases hs
      cases hs'
      exact hshows

theorem roomForAll_append :
    RoomForAll l (text ++ text') ↔ RoomForAll l text ∧ RoomForAll (writeAllOn l text) text' := by
  induction text generalizing l with
  | nil => exact (and_iff_right True.intro).symm
  | cons c text ih =>
      show RoomOn l c ∧ RoomForAll (writeOn l c) (text ++ text') ↔ _
      rw [ih, ← and_assoc]
      rfl

/-- The text was written behind what the screen showed, if there was room for it. -/
def Written (l : Sheet (BitVec 8)) (s : Kernel × Terminal) (text : List (BitVec 8)) : Prop :=
  RoomForAll l text → Shows s.2 (writeAllOn l text)

/-- One more call writes behind what was written. -/
theorem outputStep_written {s s' : Kernel × Terminal} (h : Written l s text) (hstep : OutputStep ds buf s text' s') :
    Written l s' (text ++ text') := by
  intro hroom
  obtain ⟨hbefore, hroom'⟩ := roomForAll_append.mp hroom
  rw [writeAllOn, List.foldl_append]
  exact outputStep_shows hstep (h hbefore) hroom'

/-- What a run of calls has written. -/
theorem outputSteps_written {s₀ s : Kernel × Terminal} {tr : List ((Kernel × Terminal) × List (BitVec 8))}
    (h : Trace (OutputStep ds buf) s₀ tr s) (hshows : Shows s₀.2 l) :
    Written l s (tr.map Prod.snd).flatten := by
  have hrun := @Trace.simulation _ _ _ _ (fun text text' : List (BitVec 8) => text ++ id text') (Written l) _ _ [] _
    (fun _ _ _ _ hwritten hstep => outputStep_written hwritten hstep) h fun _ => hshows
  rwa [List.foldl_append_eq_append, List.nil_append, List.map_id] at hrun

end Output

/-- **The screen shows what the tasks have written.** What a run of system calls has written is one text, which may go
    over the ends of rows and take back characters of its row, as long as all of it is on the screen. -/
theorem output_shows {ds : Nat → Prop} {buf : Nat} {l : Sheet (BitVec 8)} {s₀ s : Kernel × Terminal}
    {tr : List ((Kernel × Terminal) × List (BitVec 8))} (h : Trace (OutputStep ds buf) s₀ tr s) (hshows : Shows s₀.2 l)
    (hroom : RoomForAll l (tr.map Prod.snd).flatten) : Shows s.2 (writeAllOn l (tr.map Prod.snd).flatten) := by
  exact outputSteps_written h hshows hroom

/-! The task of `letterKernel` prints its string, on a screen that has been cleared. -/

theorem letterKernel_readsMessage : ReadsMessage twoKernel.IsDirectory letterKernel 0x400000 0x300000 where
  item := letterKernel_readsFilename.item
  view := letterKernel_view
  runs := letterKernel_runsWith
  ready := ⟨rfl, by decide⟩
  answered := by
    rw [messageSize_eq, letterKernel_malloc (by decide) (by decide)]
    decide
  source := by
    rw [messageSize_eq, letterKernel_malloc (by decide) (by decide)]
    exact letterKernel_source (by decide)
  apart := by
    rw [messageSize_eq, letterKernel_malloc (by decide) (by decide)]
    exact Or.inl (by decide)
  inside := by
    rw [messageSize_eq]
    decide

theorem output_shows_letter : ∃ k' t', isr80hCommand1Print 0x300000 (terminalInitialize freshTerminal) letterKernel
    = .ok (t', k') ∧ Shows t' ⟨[], [0x41]⟩ := by
  have htext :
      stringAt (letterKernel.taskMemory letterKernel.tasks.currentTask) 0x400000 (messageSize - 1) = [0x41] := by
    rw [messageSize_eq, show 1024 - 1 = 1022 + 1 from rfl]
    exact letterKernel_string
  have hfresh := terminalInitialize_shows freshTerminal
  generalize terminalInitialize freshTerminal = t at hfresh ⊢
  obtain ⟨k', hrun, _⟩ := @isr80hCommand1Print_writes _ _ _ _ t letterKernel_readsMessage
  refine ⟨k', _, hrun, ?_⟩
  generalize terminalWrite t _ = t' at hrun ⊢
  have htrace := Trace.snoc Trace.nil (OutputStep.print letterKernel_readsMessage hrun)
  rw [htext] at htrace
  exact output_shows htrace hfresh ⟨by decide, True.intro⟩

end BimbleOS
