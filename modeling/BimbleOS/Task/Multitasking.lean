import BimbleOS.Idt.Entry
import BimbleOS.Lib.Simulation
import BimbleOS.Task.RoundRobin

/-!
# `Task.Multitasking` — one processor for all tasks

The machine is the processor, on which the current task runs, and the task list of the kernel; the registers of the
other tasks are in their structures in memory. The abstract machine (`Turns`) gives every task registers of its own,
of which those of the running task change, and lets the tasks run in turn.

Whatever the order of timer interrupts, of programs that are started and that exit, and of what the tasks do in
between, the machine does what the abstract one does (`multitasking_refines`): a task goes on with the registers it was
interrupted with (`multitasking_resumes`), except for the two that `task_return` does not give back, `ebp` and the
flags. The tasks exit in the reverse order of their creation: `task_list_remove` leaves a stale `prev` behind otherwise.
-/

namespace BimbleOS

open Bytes Links Transition X86

/-! ## Every task has registers of its own -/

/-- The registers that a task keeps. -/
def keptRegs : List SavedReg := [.edi, .esi, .ebx, .edx, .ecx, .eax, .ip, .esp]

abbrev TaskRegs := SavedReg → BitVec 32

/-- What `task_init` sets; the structure was cleared. -/
def initialRegs (ip : BitVec 32) : TaskRegs
  | .ip => ip
  | .ss => BitVec.ofNat 32 userDataSegment
  | .cs => BitVec.ofNat 32 userCodeSegment
  | .esp => BitVec.ofNat 32 bimbleosProgramVirtualStackAddressStart
  | _ => 0

/-- The registers behind an `int 0x80`. -/
def behindInt (regs : TaskRegs) : TaskRegs := Function.update regs .ip (regs .ip + 1)

/-- The tasks in the order of their creation, whose turn it is, and the registers of each. -/
structure Turns where
  live : List Nat
  turn : Nat
  regs : Nat → TaskRegs

/-- The task whose turn it is. -/
def Turns.current (a : Turns) : Nat := a.live.getD a.turn 0

inductive TurnEvent where
  /-- The running task goes on, and gets to other registers. -/
  | run (regs : TaskRegs)
  | timer
  /-- The running task starts a program. -/
  | load (task : Nat) (ip : BitVec 32)
  /-- The running task ends. -/
  | exit

/-- The abstract machine. -/
def turnStep (a : Turns) : TurnEvent → Turns
  | .run regs => { a with regs := Function.update a.regs a.current regs }
  | .timer => { a with turn := (a.turn + 1) % a.live.length }
  | .load task ip => {
      live := a.live ++ [task]
      turn := a.live.length
      regs := Function.update (Function.update a.regs a.current (behindInt (a.regs a.current))) task (initialRegs ip) }
  -- the next task becomes the current one, and `task_next` goes on from there
  | .exit => { a with live := a.live.dropLast, turn := 1 % a.live.dropLast.length }

/-! ## The machine -/

/-- The processor in user mode and the task list; the tasks that are live are a ghost. -/
structure Machine where
  cpu : Cpu
  tasks : TaskList
  live : List Nat

/-- The register structures of these tasks are alike. -/
def SameRegs (tasks : List Nat) (m m' : Mem) : Prop :=
  ∀ t ∈ tasks, ∀ a, t + taskRegisters ≤ a → a < t + taskRegisters + 48 → m' a = m a

/-- The kernel enters `task` through `task_return`: its stack is in use up to some place, and since it has saved the
    running task it has left the register structures alone. The page directory `d` of the task maps its structure to
    itself. -/
structure Enters (alu : BitVec 32 → BitVec 32 → BitVec 32 → BitVec 32) (own : List Nat) (live : List Nat) (saved : Mem)
    (d : PageFrames) (task : Nat) (k c : Cpu) : Prop where
  stack : KernelStack own k
  regs : SameRegs live saved k.mem
  self : d.Self (task + taskRegisters) 48
  returns : ∃ back, enterTask alu own d k task back = some c

/-- Memory once `isr80h_handler` has saved the task that has made a system call. The wrapper runs with the directory `d`
    that is loaded, `isr80h_handler` loads the kernel's. -/
def systemCall (alu : BitVec 32 → BitVec 32 → BitVec 32 → BitVec 32) (own : List Nat) (d : PageFrames) (u : Cpu)
    (task : Nat) : Option Mem :=
  (u.under own d fun c => some (isr80hEntry alu c)).map fun c =>
    taskSaveState c.mem task (load32 c.mem (c.addr .esp 4)).toNat

/-- The place of a new task in memory. -/
structure FreshTask (live : List Nat) (task : Nat) : Prop where
  heap : bimbleosHeapAddress ≤ task
  top : task + 64 ≤ 4294967296
  apart : ∀ t ∈ live, task + 64 ≤ t ∨ t + 64 ≤ task

inductive MachineStep (alu : BitVec 32 → BitVec 32 → BitVec 32 → BitVec 32) (own : List Nat) (s : Machine) :
    TurnEvent → Machine → Prop where
  /-- The running task, with the interrupts and system calls that return to it. -/
  | run {c : Cpu} (hregs : SameRegs (s.live.erase s.tasks.currentTask) s.cpu.mem c.mem) :
      MachineStep alu own s (.run (userReg c)) { s with cpu := c }
  /-- `idt_clock`. -/
  | timer {k c : Cpu} {l : TaskList} {d₀ d : PageFrames} {saved : Mem}
      (hsaved : timerInterrupt alu own d₀ s.cpu s.tasks.currentTask = some saved) (hnext : taskNext s.tasks = some l)
      (henters : Enters alu own s.live saved d l.currentTask k c) :
      MachineStep alu own s .timer { s with cpu := c, tasks := l }
  /-- System calls 6 and 7, from `isr80h_handler` on: `task_new`, `task_switch` and `task_return`. -/
  | load {k c : Cpu} {task process pageDirectory : Nat} {ip : BitVec 32} {d₀ d : PageFrames} {saved : Mem}
      (hsaved : systemCall alu own d₀ s.cpu s.tasks.currentTask = some saved) (hfresh : FreshTask s.live task)
      (henters : Enters alu own s.live saved d task k c) (hinit : ∀ f, savedReg k.mem task f = initialRegs ip f) :
      MachineStep alu own s (.load task ip) {
        cpu := c
        tasks := { taskNew s.tasks task process pageDirectory ip with currentTask := task }
        live := s.live ++ [task] }
  /-- `process_terminate` and `task_next`, for the newest of several tasks. -/
  | exit {k c : Cpu} {l : TaskList} {d : PageFrames} (hlast : s.live.getLast? = some s.tasks.currentTask)
      (hothers : 1 < s.live.length) (hnext : taskNext (taskFree s.tasks s.tasks.currentTask) = some l)
      (henters : Enters alu own s.live.dropLast s.cpu.mem d l.currentTask k c) :
      MachineStep alu own s .exit { cpu := c, tasks := l, live := s.live.dropLast }

/-- The machine does what the abstract machine does. -/
structure Refines (s : Machine) (a : Turns) : Prop where
  live : s.live = a.live
  linked : WellLinked s.tasks a.live
  turn : a.live[a.turn]? = some s.tasks.currentTask
  place : ∀ t ∈ a.live, bimbleosHeapAddress ≤ t ∧ t + 64 ≤ 4294967296
  apart : ∀ t ∈ a.live, ∀ t' ∈ a.live, t ≠ t' → t + 64 ≤ t' ∨ t' + 64 ≤ t
  running : ∀ f ∈ keptRegs, userReg s.cpu f = a.regs s.tasks.currentTask f
  waiting : ∀ t ∈ a.live, t ≠ s.tasks.currentTask → ∀ f ∈ keptRegs, savedReg s.cpu.mem t f = a.regs t f

section Steps

variable {alu : BitVec 32 → BitVec 32 → BitVec 32 → BitVec 32} {s s' : Machine} {a : Turns} {k c : Cpu}
  {m saved : Mem} {live own : List Nat} {task : Nat} {d₀ d : PageFrames}

/-! ### Memory -/

/-- What the wrapper leaves in memory when it has run with the directory of the running task. -/
theorem systemCall_stack {u : Cpu} (hsaved : systemCall alu own d u task = some saved)
    (hstack : kernelStackPage ∈ own) :
    ∃ (c : Cpu) (frame esp : BitVec 32), frame.toNat = tssEsp0 - 52 ∧ Stack tssEsp0 u.mem [u.reg .eax, frame,
      u.reg .edi, u.reg .esi, u.reg .ebp, esp, u.reg .ebx, u.reg .edx, u.reg .ecx, u.reg .eax, u.eip + 1, u.cs,
      u.eflags, u.reg .esp, u.ss] c ∧ taskSaveState c.mem task (load32 c.mem (c.addr .esp 4)).toNat = saved := by
  obtain ⟨c, hrun, hm⟩ := Option.map_eq_some_iff.mp hsaved
  obtain ⟨howns, c₁, hentry, rfl⟩ := Cpu.under_eq_some.mp hrun
  obtain rfl := Option.some.inj hentry
  obtain ⟨frame, esp, hframe, hseen⟩ := isr80hEntry_stack alu { u with mem := d.see u.mem }
  have hesp : ((isr80hEntry alu { u with mem := d.see u.mem }).reg .esp).toNat + 4 * 15 = tssEsp0 := hseen.esp
  exact ⟨_, frame, esp, hframe, hseen.under howns fun _ hlo hhi => onStackPage hstack hesp hlo hhi, hm⟩

/-- **Saving a task at a system call.** It goes on behind its `int 0x80`. -/
theorem savedReg_systemCall {u : Cpu} (hsaved : systemCall alu own d u task = some saved)
    (hstack : kernelStackPage ∈ own) (htask : bimbleosHeapAddress ≤ task) (f : SavedReg) :
    savedReg saved task f = userReg { u with eip := u.eip + 1 } f := by
  obtain ⟨c, frame, esp, hframe, hstack, rfl⟩ := systemCall_stack hsaved hstack
  exact @savedReg_frame { u with eip := u.eip + 1 } c u.mem _ frame esp task hframe hstack htask f

/-- Saving a task at a system call writes to the kernel stack and to the structure of the task. -/
theorem systemCall_outside {u : Cpu} (hsaved : systemCall alu own d u task = some saved)
    (hstack : kernelStackPage ∈ own) {b : Nat} (hstackTop : tssEsp0 ≤ b)
    (hb : b < task + taskRegisters ∨ task + taskRegisters + 48 ≤ b) : saved b = u.mem b := by
  obtain ⟨c, frame, esp, hframe, hstack, rfl⟩ := systemCall_stack hsaved hstack
  exact (taskSaveState_outside hb).trans (hstack.above b hstackTop)

theorem savedReg_congr {m' : Mem} (h : SameRegs live m m') (ht : task ∈ live) (f : SavedReg) :
    savedReg m' task f = savedReg m task f := by
  have hf := f.inRegisters_lt
  exact load32_congr fun i hi => h task ht _ (by omega) (by omega)

/-- What a change that spares the structures of other tasks leaves of a saved register. -/
theorem savedReg_kept {t : Nat} {u : Cpu} (hsaved : ∀ b, tssEsp0 ≤ b →
      (b < task + taskRegisters ∨ task + taskRegisters + 48 ≤ b) → saved b = u.mem b)
    (ht : bimbleosHeapAddress ≤ t) (hapart : task + 64 ≤ t ∨ t + 64 ≤ task) (f : SavedReg) :
    savedReg saved t f = savedReg u.mem t f := by
  have hf := f.inRegisters_lt
  have hheap : tssEsp0 ≤ bimbleosHeapAddress := by decide
  refine load32_congr fun i hi => hsaved _ (by omega) ?_
  unfold taskRegisters
  omega

/-- **Entering a task** gives it the registers of its structure, and writes to the kernel stack only. -/
theorem Enters.regs_eq (h : Enters alu own live saved d task k c) (hheap : bimbleosHeapAddress ≤ task)
    (htop : task + 64 ≤ 4294967296) : (∀ f ∈ keptRegs, userReg c f = savedReg k.mem task f) ∧
      ∀ b, tssEsp0 ≤ b → c.mem b = k.mem b := by
  obtain ⟨back, hreturns⟩ := h.returns
  have hshows : ShowsRegisters d k.mem task := ShowsRegisters.of_self h.self
  obtain ⟨howns, _⟩ := enterTask_shown hreturns
  obtain ⟨c', hrun, hedi, hesi, hebx, hedx, hecx, heax, hesp, heip, _, _, _, _, hmem⟩ :=
    enterTask_run alu back howns hshows.present h.stack hheap htop
  obtain rfl := Option.some.inj (hrun.symm.trans hreturns)
  refine ⟨fun f hf => ?_, hmem⟩
  have hne : f ≠ .ebp ∧ f ≠ .flags := by
    constructor <;> rintro rfl <;> exact absurd hf (by decide)
  rw [← hshows.words f hne.1 hne.2]
  cases f with
  | edi => exact hedi
  | esi => exact hesi
  | ebx => exact hebx
  | edx => exact hedx
  | ecx => exact hecx
  | eax => exact heax
  | ip => exact heip
  | esp => exact hesp
  | ebp | cs | flags | ss => exact absurd hf (by decide)

/-- From a saved task to the entry of another one: the registers of both, and of those that wait. -/
theorem Enters.saved_kept (h : Enters alu own live saved d task k c) {t : Nat} (ht : t ∈ live)
    (hheap : bimbleosHeapAddress ≤ task) (htop : task + 64 ≤ 4294967296) (hplace : bimbleosHeapAddress ≤ t)
    (f : SavedReg) : savedReg c.mem t f = savedReg saved t f := by
  have hbase : tssEsp0 ≤ bimbleosHeapAddress := by decide
  obtain ⟨_, hmem⟩ := h.regs_eq hheap htop
  rw [← savedReg_congr h.regs ht f]
  exact load32_congr fun i _ => hmem _ (by omega)

/-! ### The task list -/

theorem Refines.current_mem (h : Refines s a) : s.tasks.currentTask ∈ a.live := List.mem_of_getElem? h.turn

theorem Refines.current_eq (h : Refines s a) : a.current = s.tasks.currentTask := by
  unfold Turns.current
  rw [List.getD_eq_getElem?_getD, h.turn]
  rfl

/-- **The turn of the next task.** -/
theorem WellLinked.next {l l' : TaskList} {tasks : List Nat} {i : Nat} (h : WellLinked l tasks)
    (hcurrent : tasks[i]? = some l.currentTask) (hnext : taskNext l = some l') :
    WellLinked l' tasks ∧ tasks[(i + 1) % tasks.length]? = some l'.currentTask := by
  have hlt : i < tasks.length := (List.getElem?_eq_some_iff.mp hcurrent).1
  have hturn := TurnOrder.of_path h.linked.path hlt hcurrent
  obtain ⟨l'', hnext', hround⟩ := hturn.next
  obtain rfl := Option.some.inj (hnext'.symm.trans hnext)
  have hfirst : tasks[(i + 1) % tasks.length]? = some l''.currentTask := by
    have hhead := hround.first
    rw [List.rotate_rotate, ← List.rotate_mod] at hhead
    rwa [List.head?_rotate (Nat.mod_lt _ (by omega))] at hhead
  refine ⟨?_, hfirst⟩
  -- `task_next` changes nothing but the current task
  obtain ⟨others, hothers⟩ := hturn.cons
  have hlist := (hothers ▸ hturn).taskNext_eq
  obtain rfl := Option.some.inj (hnext'.symm.trans hlist)
  exact ⟨h.linked, h.nodup, h.tail, List.mem_of_getElem? hfirst⟩

theorem Refines.next {l : TaskList} (h : Refines s a) (hnext : taskNext s.tasks = some l) :
    WellLinked l a.live ∧ a.live[(a.turn + 1) % a.live.length]? = some l.currentTask :=
  h.linked.next h.turn hnext

/-- The task list that a running task is in, as `task_new` and `task_free` know it. -/
theorem WellLinked.ok {l : TaskList} {tasks : List Nat} (h : WellLinked l tasks) :
    TaskListOk { list := l, live := tasks } where
  linked := h.linked
  nodup := h.nodup
  tail := h.tail
  currentZero := ⟨fun hzero => absurd hzero (h.linked.path.ne_null _ h.current), fun hnil => by
    have hmem := h.current
    rw [show tasks = [] from hnil] at hmem
    exact absurd hmem List.not_mem_nil⟩
  currentLive := fun _ => h.current
  wild := rfl

/-- The newest task is removed while it runs: the first task is the current one then. -/
theorem WellLinked.removed {l : TaskList} {tasks : List Nat} (h : WellLinked l tasks)
    (hlast : tasks.getLast? = some l.currentTask) (hothers : 1 < tasks.length) :
    WellLinked (taskFree l l.currentTask) tasks.dropLast ∧
      tasks.dropLast[0]? = some (taskFree l l.currentTask).currentTask := by
  obtain ⟨others, rfl⟩ := List.getLast?_eq_some_iff.mp hlast
  cases others with
  | nil => exact absurd hothers (Nat.lt_irrefl 1)
  | cons t others =>
  have hnotmem : l.currentTask ∉ t :: others := fun hmem =>
    (List.nodup_append.mp h.nodup).2.2 _ hmem _ (List.mem_singleton_self _) rfl
  have hok := h.ok.free hlast
  have hlive : (TaskState.after { list := l, live := t :: others ++ [l.currentTask] } (.free l.currentTask)).live
      = t :: others := by
    show (t :: others ++ [l.currentTask]).erase l.currentTask = _
    rw [List.erase_append_right _ hnotmem, List.erase_cons_head, List.append_nil]
  -- the accesses that are counted are nothing to the links
  obtain ⟨hhead, htail, hcurrent⟩ := taskFree_pointers l l.currentTask
  obtain ⟨hhead', htail', _⟩ := taskFree_pointers { l with touched := [] } l.currentTask
  obtain ⟨hlinked, hnodup, hlastTask, _, _, _⟩ := hok
  rw [hlive] at hlinked hnodup hlastTask
  have hlinked' : DLinked (taskFree l l.currentTask).nextOf (taskFree l l.currentTask).prevOf 0
      (taskFree l l.currentTask).taskHead (t :: others) := by
    have hnext := (taskFree_nextOf l l.currentTask).trans (taskFree_nextOf { l with touched := [] } l.currentTask).symm
    have hprev := (taskFree_prevOf l l.currentTask).trans (taskFree_prevOf { l with touched := [] } l.currentTask).symm
    rw [hnext, hprev, hhead.trans hhead'.symm]
    exact hlinked
  have hfirst : t = (taskFree l l.currentTask).currentTask := by
    have hnull : l.nextOf l.currentTask = 0 := h.linked.path.next_last
    have hne : l.currentTask ≠ l.taskHead := by
      rw [h.linked.path.head_eq]
      exact fun heq => hnotmem (heq ▸ List.mem_cons_self)
    rw [hcurrent, currentAfter, if_pos rfl, if_pos hnull, headAfter, if_neg hne]
    exact (h.linked.path.head_eq).symm
  rw [List.dropLast_concat]
  refine ⟨⟨hlinked', hnodup, fun u hu => ?_, hfirst ▸ List.mem_cons_self⟩, congrArg some hfirst⟩
  exact (htail.trans htail'.symm).trans (hlastTask u hu)

/-- A task that is created is the last one. -/
theorem WellLinked.created {l : TaskList} {tasks : List Nat} (h : WellLinked l tasks) {process pageDirectory : Nat}
    {ip : BitVec 32} (hne : task ≠ 0) (hfresh : task ∉ tasks) :
    WellLinked { taskNew l task process pageDirectory ip with currentTask := task } (tasks ++ [task]) := by
  obtain ⟨hlinked, hnodup, htail, _, _, _⟩ := @TaskListOk.new _ h.ok task process pageDirectory ip hne hfresh
  -- the accesses that are counted are nothing to the links
  have hsame : ∃ touched, taskNew { l with touched := [] } task process pageDirectory ip
      = { taskNew l task process pageDirectory ip with touched := touched } := by
    have hnull : l.taskHead ≠ 0 := by
      intro hnull
      rcases h.linked.path.head_mem with _ | hmem
      · have hnil : tasks = [] := h.linked.path.unique hnull
        exact absurd (hnil ▸ h.current) List.not_mem_nil
      · exact h.linked.path.ne_null _ hmem hnull
    simp only [taskNew, taskNewLink, TaskList.store, TaskList.touch, hnull, if_false]
    exact ⟨_, rfl⟩
  obtain ⟨touched, htouched⟩ := hsame
  have hlist : (TaskState.after { list := l, live := tasks } (.new task process pageDirectory ip)).list
      = { taskNew l task process pageDirectory ip with touched := touched } := htouched
  rw [hlist] at hlinked htail
  exact ⟨hlinked, hnodup, htail, List.mem_append_right _ (List.mem_singleton_self task)⟩

/-! ### One step -/

/-- The running task goes on. -/
theorem Refines.run (h : Refines s a) (hregs : SameRegs (s.live.erase s.tasks.currentTask) s.cpu.mem c.mem) :
    Refines { s with cpu := c } (turnStep a (.run (userReg c))) := by
  rw [h.live] at hregs
  refine ⟨h.live, h.linked, h.turn, h.place, h.apart, fun f hf => ?_, fun t ht hne f hf => ?_⟩
  · show _ = Function.update a.regs a.current (userReg c) s.tasks.currentTask f
    rw [h.current_eq, Function.update_self]
  · show _ = Function.update a.regs a.current (userReg c) t f
    rw [h.current_eq, Function.update_of_ne hne, ← h.waiting t ht hne f hf]
    exact savedReg_congr hregs ((List.mem_erase_of_ne hne).mpr ht) f

/-- **A timer interrupt** gives the turn to the next task. -/
theorem Refines.timer {l : TaskList} (h : Refines s a)
    (hsaved : timerInterrupt alu own d₀ s.cpu s.tasks.currentTask = some saved) (hnext : taskNext s.tasks = some l)
    (henters : Enters alu own s.live saved d l.currentTask k c) :
    Refines { s with cpu := c, tasks := l } (turnStep a .timer) := by
  obtain ⟨hlinked, hturn⟩ := h.next hnext
  have hmem := List.mem_of_getElem? hturn
  obtain ⟨hheap, htop⟩ := h.place _ hmem
  obtain ⟨hcurrent, _⟩ := h.place _ h.current_mem
  rw [h.live] at henters
  -- every task has its registers in memory once the running one is saved
  have hregs₀ : ∀ t ∈ a.live, ∀ f ∈ keptRegs, savedReg saved t f = a.regs t f := by
    intro t ht f hf
    by_cases hthis : t = s.tasks.currentTask
    · rw [hthis, savedReg_timerInterrupt hsaved henters.stack.base hcurrent, h.running f hf]
    · rw [savedReg_kept (fun b => timerInterrupt_outside hsaved henters.stack.base) (h.place t ht).1
        (h.apart _ h.current_mem _ ht (Ne.symm hthis)), h.waiting t ht hthis f hf]
  obtain ⟨hregs, _⟩ := henters.regs_eq hheap htop
  refine ⟨h.live, hlinked, hturn, h.place, h.apart, fun f hf => ?_, fun t ht _ f hf => ?_⟩
  · show userReg c f = a.regs l.currentTask f
    rw [hregs f hf, savedReg_congr henters.regs hmem, hregs₀ _ hmem f hf]
  · show savedReg c.mem t f = a.regs t f
    rw [henters.saved_kept ht hheap htop (h.place t ht).1, hregs₀ t ht f hf]

/-- **A program is started**: the new task runs, and the one that has started it waits behind its system call. -/
theorem Refines.load {process pageDirectory : Nat} {ip : BitVec 32} (h : Refines s a) (hfresh : FreshTask s.live task)
    (hsaved : systemCall alu own d₀ s.cpu s.tasks.currentTask = some saved)
    (henters : Enters alu own s.live saved d task k c)
    (hinit : ∀ f, savedReg k.mem task f = initialRegs ip f) :
    Refines { cpu := c, tasks := { taskNew s.tasks task process pageDirectory ip with currentTask := task },
              live := s.live ++ [task] } (turnStep a (.load task ip)) := by
  rw [h.live] at hfresh henters
  obtain ⟨hheap, htop, hapart⟩ := hfresh
  have hbase : 0 < bimbleosHeapAddress := by decide
  have hnew : task ∉ a.live := fun hmem => by
    have hself := hapart task hmem
    omega
  obtain ⟨hcurrent, _⟩ := h.place _ h.current_mem
  have hregs₀ : ∀ t ∈ a.live, ∀ f ∈ keptRegs, savedReg saved t f
      = Function.update a.regs a.current (behindInt (a.regs a.current)) t f := by
    intro t ht f hf
    rw [h.current_eq]
    by_cases hthis : t = s.tasks.currentTask
    · rw [hthis, savedReg_systemCall hsaved henters.stack.base hcurrent, Function.update_self, behindInt]
      have hrunning := h.running f hf
      cases f with
      | ip =>
          rw [Function.update_self, ← h.running .ip (by decide)]
          rfl
      | edi | esi | ebx | edx | ecx | eax | esp =>
          rw [Function.update_of_ne (by decide)]
          exact hrunning
      | ebp | cs | flags | ss => exact absurd hf (by decide)
    · rw [savedReg_kept (fun b => systemCall_outside hsaved henters.stack.base) (h.place t ht).1
        (h.apart _ h.current_mem _ ht (Ne.symm hthis)), h.waiting t ht hthis f hf, Function.update_of_ne hthis]
  have hafter : (turnStep a (.load task ip)).regs
      = Function.update (Function.update a.regs a.current (behindInt (a.regs a.current))) task (initialRegs ip) := rfl
  obtain ⟨hregs, _⟩ := henters.regs_eq hheap htop
  refine ⟨?_, h.linked.created (by omega) hnew, ?_, ?_, ?_, fun f hf => ?_, fun t ht hne f hf => ?_⟩
  · show s.live ++ [task] = a.live ++ [task]
    rw [h.live]
  · exact List.getElem?_concat_length
  · intro t ht
    rcases List.mem_append.mp ht with ht | ht
    · exact h.place t ht
    · rw [List.mem_singleton.mp ht]
      exact ⟨hheap, htop⟩
  · intro t ht t' ht' hne
    rcases List.mem_append.mp ht with ht | ht
    · rcases List.mem_append.mp ht' with ht' | ht'
      · exact h.apart t ht t' ht' hne
      · rw [List.mem_singleton.mp ht']
        exact (hapart t ht).symm
    · rw [List.mem_singleton.mp ht] at hne ⊢
      rcases List.mem_append.mp ht' with ht' | ht'
      · exact hapart t' ht'
      · exact absurd (List.mem_singleton.mp ht').symm hne
  · show userReg c f = (turnStep a (.load task ip)).regs task f
    rw [hregs f hf, hinit, hafter, Function.update_self]
  · show savedReg c.mem t f = (turnStep a (.load task ip)).regs t f
    have ht' : t ∈ a.live := (List.mem_append.mp ht).resolve_right fun h => hne (List.mem_singleton.mp h)
    rw [henters.saved_kept ht' hheap htop (h.place t ht').1, hregs₀ t ht' f hf, hafter, Function.update_of_ne hne]

/-- **The newest task ends**: the others keep their registers, and one of them has its turn. -/
theorem Refines.exit {l : TaskList} (h : Refines s a) (hlast : s.live.getLast? = some s.tasks.currentTask)
    (hothers : 1 < s.live.length) (hnext : taskNext (taskFree s.tasks s.tasks.currentTask) = some l)
    (henters : Enters alu own s.live.dropLast s.cpu.mem d l.currentTask k c) :
    Refines { cpu := c, tasks := l, live := s.live.dropLast } (turnStep a .exit) := by
  rw [h.live] at hlast hothers henters ⊢
  obtain ⟨hremoved, hfirst⟩ := h.linked.removed hlast hothers
  obtain ⟨hlinked, hturn⟩ := hremoved.next hfirst hnext
  rw [Nat.zero_add] at hturn
  have hsub : ∀ t ∈ a.live.dropLast, t ∈ a.live := fun t ht => List.mem_of_mem_dropLast ht
  have hne : ∀ t ∈ a.live.dropLast, t ≠ s.tasks.currentTask := by
    obtain ⟨others, heq⟩ := List.getLast?_eq_some_iff.mp hlast
    have hnodup := h.linked.nodup
    rw [heq] at hnodup ⊢
    rw [List.dropLast_concat]
    exact fun t ht => (List.nodup_append.mp hnodup).2.2 t ht _ (List.mem_singleton_self _)
  have hmem := List.mem_of_getElem? hturn
  obtain ⟨hheap, htop⟩ := h.place _ (hsub _ hmem)
  obtain ⟨hregs, _⟩ := henters.regs_eq hheap htop
  refine ⟨rfl, hlinked, hturn, fun t ht => h.place t (hsub t ht),
    fun t ht t' ht' => h.apart t (hsub t ht) t' (hsub t' ht'), fun f hf => ?_, fun t ht _ f hf => ?_⟩
  · show userReg c f = a.regs l.currentTask f
    rw [hregs f hf, savedReg_congr henters.regs hmem, h.waiting _ (hsub _ hmem) (hne _ hmem) f hf]
  · show savedReg c.mem t f = a.regs t f
    rw [henters.saved_kept ht hheap htop (h.place t (hsub t ht)).1, h.waiting t (hsub t ht) (hne t ht) f hf]

theorem machineStep_refines {e : TurnEvent} (h : Refines s a) (hstep : MachineStep alu own s e s') :
    Refines s' (turnStep a e) := by
  cases hstep with
  | run hregs => exact h.run hregs
  | timer hsaved hnext henters => exact h.timer hsaved hnext henters
  | load hsaved hfresh henters hinit => exact h.load hfresh hsaved henters hinit
  | exit hlast hothers hnext henters => exact h.exit hlast hothers hnext henters

/-- A task can be entered whose directory leaves the kernel's pages to the kernel. -/
theorem enters_of_stack (alu : BitVec 32 → BitVec 32 → BitVec 32 → BitVec 32) (hheap : bimbleosHeapAddress ≤ task)
    (htop : task + 64 ≤ 4294967296) (howns : d.Owns own)
    (hself : d.Self (task + taskRegisters) 48)
    (hstack : KernelStack own k) (hregs : SameRegs live saved k.mem) : ∃ c, Enters alu own live saved d task k c := by
  have hshows : ShowsRegisters d k.mem task := ShowsRegisters.of_self hself
  obtain ⟨c, hreturns, _⟩ := enterTask_run alu (0 : BitVec 32) howns hshows.present hstack hheap htop
  exact ⟨c, hstack, hregs, hself, 0, hreturns⟩

/-- There is a next task. -/
theorem WellLinked.taskNext_some {l : TaskList} {tasks : List Nat} {i : Nat} (h : WellLinked l tasks)
    (hcurrent : tasks[i]? = some l.currentTask) : ∃ l', taskNext l = some l' := by
  have hlt : i < tasks.length := (List.getElem?_eq_some_iff.mp hcurrent).1
  obtain ⟨l', hnext, _⟩ := (TurnOrder.of_path h.linked.path hlt hcurrent).next
  exact ⟨l', hnext⟩

/-- The page directory of each of these tasks maps the kernel's pages and the structure of the task to themselves. -/
structure ShowsTasks (own : List Nat) (frames : Nat → PageFrames) (live : List Nat) : Prop where
  owns : ∀ t ∈ live, (frames t).Owns own
  self : ∀ t ∈ live, (frames t).Self (t + taskRegisters) 48

/-- **The turns never end**: at every timer interrupt there is a next task, and it is entered. -/
theorem Refines.timer_total (h : Refines s a) (alu : BitVec 32 → BitVec 32 → BitVec 32 → BitVec 32)
    {frames : Nat → PageFrames} (hframes : ShowsTasks own frames s.live)
    (hkernel : ∀ saved, timerInterrupt alu own (frames s.tasks.currentTask) s.cpu s.tasks.currentTask = some saved →
      ∃ k, KernelStack own k ∧ SameRegs s.live saved k.mem) : ∃ s', MachineStep alu own s .timer s' := by
  obtain ⟨saved, hsaved⟩ : ∃ saved,
      timerInterrupt alu own (frames s.tasks.currentTask) s.cpu s.tasks.currentTask = some saved := by
    unfold timerInterrupt Cpu.under
    rw [if_pos (hframes.owns _ (h.live ▸ h.current_mem))]
    exact ⟨_, rfl⟩
  obtain ⟨k, hstack, hregs⟩ := hkernel saved hsaved
  obtain ⟨l, hnext⟩ := h.linked.taskNext_some h.turn
  have hmem := List.mem_of_getElem? (h.next hnext).2
  obtain ⟨hheap, htop⟩ := h.place _ hmem
  rw [← h.live] at hmem
  obtain ⟨c, henters⟩ := enters_of_stack alu hheap htop (hframes.owns _ hmem) (hframes.self _ hmem) hstack hregs
  exact ⟨_, .timer hsaved hnext henters⟩

/-- Where the newest task ends, another one is entered. -/
theorem Refines.exit_total (h : Refines s a) (alu : BitVec 32 → BitVec 32 → BitVec 32 → BitVec 32)
    {frames : Nat → PageFrames} (hframes : ShowsTasks own frames s.live)
    (hlast : s.live.getLast? = some s.tasks.currentTask) (hothers : 1 < s.live.length) (hstack : KernelStack own k)
    (hregs : SameRegs s.live.dropLast s.cpu.mem k.mem) : ∃ s', MachineStep alu own s .exit s' := by
  obtain ⟨hremoved, hfirst⟩ := h.linked.removed (h.live ▸ hlast) (h.live ▸ hothers)
  obtain ⟨l, hnext⟩ := hremoved.taskNext_some hfirst
  have hmem := List.mem_of_mem_dropLast (List.mem_of_getElem? (hremoved.next hfirst hnext).2)
  obtain ⟨hheap, htop⟩ := h.place _ hmem
  rw [← h.live] at hmem
  obtain ⟨c, henters⟩ := enters_of_stack alu hheap htop (hframes.owns _ hmem) (hframes.self _ hmem) hstack hregs
  exact ⟨_, .exit hlast hothers hnext henters⟩

end Steps

section Runs

variable {alu : BitVec 32 → BitVec 32 → BitVec 32 → BitVec 32} {s₀ s : Machine} {a : Turns}
  {own : List Nat} {tr : List (Machine × TurnEvent)}

/-- **Multitasking.** In every run, whatever the order of timer interrupts, of programs that are started and that exit,
    and of what the tasks do in between, the machine is where the abstract machine is that goes through the same
    events. -/
theorem multitasking_refines (h : Trace (MachineStep alu own) s₀ tr s) (h₀ : Refines s₀ a) :
    Refines s ((tr.map Prod.snd).foldl turnStep a) :=
  h.simulation (fun _ _ _ _ => machineStep_refines) h₀

/-- A task has no turn in these events. -/
def Waits (t : Nat) : Turns → List TurnEvent → Prop
  | _, [] => True
  | a, e :: events => (e = .timer ∨ a.current ≠ t ∧ ∀ ip, e ≠ .load t ip) ∧ Waits t (turnStep a e) events

/-- The registers of a task that waits. -/
theorem Waits.regs_eq {t : Nat} {events : List TurnEvent} (h : Waits t a events) :
    (events.foldl turnStep a).regs t = a.regs t := by
  induction events generalizing a with
  | nil => rfl
  | cons e events ih =>
      obtain ⟨hfirst, hrest⟩ := h
      rw [List.foldl_cons, ih hrest]
      cases e with
      | timer => rfl
      | run regs =>
          rcases hfirst with hfirst | ⟨hne, _⟩
          · cases hfirst
          · exact Function.update_of_ne (Ne.symm hne) _ _
      | exit => rfl
      | load task ip =>
          rcases hfirst with hfirst | ⟨hne, hother⟩
          · cases hfirst
          · have htask : t ≠ task := by
              rintro rfl
              exact hother ip rfl
            exact (Function.update_of_ne htask _ _).trans (Function.update_of_ne (Ne.symm hne) _ _)

/-- **A task does not notice that it waits**: when it has its next turn, however many interrupts, other tasks and
    started programs later, it goes on with the registers that it was interrupted with. -/
theorem multitasking_resumes (h : Trace (MachineStep alu own) s₀ tr s) (h₀ : Refines s₀ a)
    (hwaits : Waits s₀.tasks.currentTask a (tr.map Prod.snd)) (hturn : s.tasks.currentTask = s₀.tasks.currentTask)
    (f : SavedReg) (hf : f ∈ keptRegs) : userReg s.cpu f = userReg s₀.cpu f := by
  rw [(multitasking_refines h h₀).running f hf, hturn, hwaits.regs_eq, h₀.running f hf]

end Runs

/-! Two tasks, the first of them interrupted where it has just begun. -/

def pairCalls : List TaskCall :=
  [.new 0x1000000 0x2000000 0x3000000 0x400000#32, .new 0x1001000 0x2001000 0x3001000 0x400000#32]

def pairMachine : Machine where
  cpu := idleTask
  tasks := (pairCalls.foldl TaskState.after (noTasks fun _ => {})).list
  live := [0x1000000, 0x1001000]

def pairTurns : Turns where
  live := [0x1000000, 0x1001000]
  turn := 0
  regs := fun t => if t = 0x1000000 then userReg idleTask else savedReg idleTask.mem t

theorem pairMachine_refines : Refines pairMachine pairTurns where
  live := rfl
  linked := by
    have hfirst := @TaskListOk.new _ (noTasks_ok fun _ => {}) 0x1000000 0x2000000 0x3000000 0x400000#32 (by decide)
      (by decide)
    have hboth := @TaskListOk.new _ hfirst 0x1001000 0x2001000 0x3001000 0x400000#32 (by decide) (by decide)
    exact hboth.wellLinked (List.cons_ne_nil _ _)
  turn := by decide
  place := by decide
  apart := by decide
  running := fun f _ => rfl
  waiting := by
    intro t ht hne f _
    have hcurrent : pairMachine.tasks.currentTask = 0x1000000 := by decide
    rw [hcurrent] at hne
    exact congrFun (if_neg hne : pairTurns.regs t = savedReg idleTask.mem t).symm f

theorem idleFrames_shows : ShowsTasks idlePages (fun _ => idleFrames) [0x1000000, 0x1001000] where
  owns := fun _ _ => idleFrames_owns
  self := fun t ht i hi => by
    simp only [List.mem_cons, List.not_mem_nil, or_false] at ht
    refine idleFrames_self ?_
    unfold taskRegisters
    rcases ht with rfl | rfl <;> omega

/-- The second task has its turn, and ends. -/
theorem pairMachine_trace :
    ∃ s s', Trace (MachineStep keepFlags idlePages) pairMachine [(pairMachine, .timer), (s, .exit)] s' := by
  obtain ⟨s, hfirst⟩ := pairMachine_refines.timer_total keepFlags idleFrames_shows
    fun saved _ => ⟨idleCpu 0x5FFF00 saved, idleStack saved, fun _ _ _ _ _ => rfl⟩
  have hrefines := machineStep_refines pairMachine_refines hfirst
  have hlive : s.live = [0x1000000, 0x1001000] := hrefines.live
  have hcurrent : some s.tasks.currentTask = some 0x1001000 := hrefines.turn.symm.trans rfl
  obtain ⟨s', hsecond⟩ := hrefines.exit_total keepFlags (hlive ▸ idleFrames_shows)
    (by rw [hlive, hcurrent]; rfl) (by rw [hlive]; decide) (idleStack s.cpu.mem) (fun _ _ _ _ _ => rfl)
  exact ⟨s, s', Trace.snoc (Trace.snoc Trace.nil hfirst) hsecond⟩

theorem multitasking_refines_pair : ∃ s s',
    Trace (MachineStep keepFlags idlePages) pairMachine [(pairMachine, .timer), (s, .exit)] s' ∧
      Refines s' ([.timer, .exit].foldl turnStep pairTurns) := by
  obtain ⟨s, s', htrace⟩ := pairMachine_trace
  exact ⟨s, s', htrace, multitasking_refines htrace pairMachine_refines⟩

theorem multitasking_resumes_pair : ∃ s s', Trace (MachineStep keepFlags idlePages) pairMachine
    [(pairMachine, .timer), (s, .exit)] s' ∧ userReg s'.cpu .esp = userReg idleTask .esp := by
  obtain ⟨s, s', htrace⟩ := pairMachine_trace
  have hturn : some s'.tasks.currentTask = some pairMachine.tasks.currentTask :=
    (htrace.simulation (fun _ _ _ _ => machineStep_refines) pairMachine_refines).turn.symm.trans rfl
  exact ⟨s, s', htrace, multitasking_resumes htrace pairMachine_refines
    ⟨Or.inl rfl, Or.inr ⟨by decide, fun ip h => by cases h⟩, True.intro⟩ (Option.some.inj hturn) .esp (by decide)⟩

end BimbleOS
