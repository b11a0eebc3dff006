import BimbleOS.Isr80h.Process
import BimbleOS.Task.ProcessEnd
import BimbleOS.Task.RoundRobin

/-!
# `Isr80h.Exit` — the end of the running task

`isr80h_command9_exit` of `isr80h/process.c` and `idt_handle_exception` of `idt/idt.c` terminate the process of the
current task and call `task_next`. Terminating it removes the task from the list, and with that makes the next task
the current one; `task_next` then goes one further.
-/

namespace BimbleOS

open Exec Links Transition

/-- `task_next`: the task that it switches to. -/
def Kernel.taskNext : KM Nat := do
  let k ← get
  deref k.tasks.currentTask
  match BimbleOS.taskNext k.tasks with
  | none => throw .panic
  | some tasks =>
      modify fun k => { k with tasks := tasks }
      return tasks.currentTask

/-- `process_terminate(task_current()->process)` and `task_next()`. -/
def endCurrentTask : KM CallEnd := do
  let k ← get
  deref k.tasks.currentTask
  let _ ← processTerminate (k.tasks.task k.tasks.currentTask).process
  let task ← Kernel.taskNext
  return .entered task

/-- `isr80h_command9_exit`. -/
def isr80hCommand9Exit : KM CallEnd := endCurrentTask

/-- `idt_handle_exception`; the line that it prints is on the screen, which is no part of `Kernel`. -/
def idtHandleException : KM CallEnd := endCurrentTask

/-! ## Who runs next -/

section Next

variable {k : Kernel} {tasks rest : List Nat} {s : Nat}

/-- The task that runs when the current one has ended. -/
theorem endCurrentTask_ok (hlinked : WellLinked k.tasks tasks)
    (hprocess : (k.process (k.tasks.task k.tasks.currentTask).process).task = k.tasks.currentTask)
    (hends : k.CanTerminate (k.tasks.task k.tasks.currentTask).process)
    (hturn : TurnOrder k.tasks (k.tasks.currentTask :: s :: rest)) (hnodup : (s :: rest).Nodup) :
    ∃ task k', endCurrentTask k = .ok (.entered task, k') ∧ k'.tasks.currentTask = task ∧ (task = s ↔ rest = []) := by
  obtain ⟨k₁, hterminate, htasks⟩ := processTerminate_ok hends
  rw [hprocess] at htasks
  obtain ⟨l', hnext, _, hiff⟩ := hturn.free_next_iff hlinked hnodup
  have hcurrent : k.tasks.currentTask ≠ 0 := hlinked.linked.path.ne_null _ hlinked.current
  -- the task that the removal has made the current one
  have hs : k₁.tasks.currentTask ≠ 0 := by
    have hfirst := (hturn.free hlinked).first
    rw [htasks, ← Option.some.inj hfirst]
    exact hturn.ring.ne_null s (List.mem_cons_of_mem _ List.mem_cons_self)
  have hrun : Kernel.taskNext k₁ = .ok (l'.currentTask, { k₁ with tasks := l' }) := by
    unfold Kernel.taskNext
    rw [get_bind, bind_of_ok (deref_of_ne hs), htasks, hnext]
    rfl
  refine ⟨l'.currentTask, { k₁ with tasks := l' }, ?_, rfl, hiff⟩
  unfold endCurrentTask
  rw [get_bind, bind_of_ok (deref_of_ne hcurrent), bind_of_ok hterminate, bind_of_ok hrun]
  rfl

/-- **The successor of an ended task runs next exactly where it is the only task left.** The removal of the ended
    task makes its successor the current task, and `task_next` passes over it to the one after. -/
theorem endCurrentTask_next_iff (hlinked : WellLinked k.tasks tasks) (hlen : 2 ≤ tasks.length)
    (hprocess : (k.process (k.tasks.task k.tasks.currentTask).process).task = k.tasks.currentTask)
    (hends : k.CanTerminate (k.tasks.task k.tasks.currentTask).process) :
    ∀ call ∈ [isr80hCommand9Exit, idtHandleException], ∃ task k', call k = .ok (.entered task, k') ∧
      k'.tasks.currentTask = task ∧
      (task = ringNext k.tasks.nextOf 0 k.tasks.taskHead k.tasks.currentTask ↔ tasks.length = 2) := by
  intro call hcall
  obtain rfl : call = endCurrentTask := by
    rcases List.mem_cons.mp hcall with rfl | hcall
    · rfl
    · exact List.mem_singleton.mp hcall
  obtain ⟨others, hturn, hothers, hnodup⟩ := hlinked.turnOrder
  rw [hturn.ring.next_eq]
  cases others with
  | nil =>
      rw [← hothers] at hlen
      exact absurd hlen (by decide)
  | cons s rest =>
      obtain ⟨task, k', hrun, hcurrent, hiff⟩ := endCurrentTask_ok hlinked hprocess hends hturn hnodup
      refine ⟨task, k', hrun, hcurrent, ?_⟩
      rw [List.headD_cons, hiff, ← hothers, List.length_cons]
      constructor
      · rintro rfl
        rfl
      · intro hrest
        exact List.eq_nil_of_length_eq_zero (by omega)

end Next

/-! Tasks created at boot, each with a process, and the first one running. -/

def createdState (calls : List TaskCall) : TaskState := calls.foldl TaskState.after (noTasks fun _ => {})

def createdKernel (calls : List TaskCall) : Kernel := { bootKernel with
  tasks := (createdState calls).list
  process := fun p => { id := (p - 0x2000) / 0x4000, task := p - 0x1000 }
  processes := fun i => if i < calls.length then 0x2000 + 0x4000 * i else 0 }

theorem twoTasks_linked : WellLinked (createdKernel twoTaskCalls).tasks [0x1000, 0x5000] :=
  (createdTasks_spec twoTasks_trace (by decide)).1.wellLinked (List.cons_ne_nil _ _)

theorem twoTasks_terminate : (createdKernel twoTaskCalls).CanTerminate 0x2000 where
  process_ne := by decide
  task_ne := by decide
  directory_ne := by decide
  filetype := Or.inr rfl
  id_lt := by decide
  other := ⟨1, by decide, by decide, by decide⟩

theorem endCurrentTask_next_iff_two : ∃ task k',
    isr80hCommand9Exit (createdKernel twoTaskCalls) = .ok (.entered task, k') ∧ k'.tasks.currentTask = task ∧
      (task = ringNext (createdKernel twoTaskCalls).tasks.nextOf 0 0x1000 0x1000 ↔ [0x1000, 0x5000].length = 2) :=
  endCurrentTask_next_iff twoTasks_linked (by decide) rfl twoTasks_terminate isr80hCommand9Exit List.mem_cons_self

def threeTaskCalls : List TaskCall := twoTaskCalls ++ [.new 0x9000 0xa000 0xb000 0x400000#32]

theorem threeTasks_linked : WellLinked (createdKernel threeTaskCalls).tasks [0x1000, 0x5000, 0x9000] := by
  have htrace := Trace.snoc twoTasks_trace (TaskStep.new 0x9000 0xa000 0xb000 0x400000#32 (by decide) (by decide))
  exact (createdTasks_spec htrace (by decide)).1.wellLinked (List.cons_ne_nil _ _)

theorem threeTasks_terminate : (createdKernel threeTaskCalls).CanTerminate 0x2000 where
  process_ne := by decide
  task_ne := by decide
  directory_ne := by decide
  filetype := Or.inr rfl
  id_lt := by decide
  other := ⟨1, by decide, by decide, by decide⟩

/-- With three tasks, the first one ends and the second one loses its turn. -/
theorem endCurrentTask_passes_over : ¬ ∀ (k : Kernel) (tasks : List Nat), WellLinked k.tasks tasks → 2 ≤ tasks.length →
    (k.process (k.tasks.task k.tasks.currentTask).process).task = k.tasks.currentTask →
    k.CanTerminate (k.tasks.task k.tasks.currentTask).process →
    ∀ call ∈ [isr80hCommand9Exit, idtHandleException], ∀ task k', call k = .ok (.entered task, k') →
      task = ringNext k.tasks.nextOf 0 k.tasks.taskHead k.tasks.currentTask := by
  intro h
  have hturn : TurnOrder (createdKernel threeTaskCalls).tasks [0x1000, 0x5000, 0x9000] :=
    ⟨Ring.of_path threeTasks_linked.linked.path, rfl⟩
  obtain ⟨task, k', hrun, _, hiff⟩ := endCurrentTask_ok threeTasks_linked rfl threeTasks_terminate hturn (by decide)
  have hsame : task = 0x5000 := h (createdKernel threeTaskCalls) _ threeTasks_linked (by decide) rfl
    threeTasks_terminate isr80hCommand9Exit List.mem_cons_self task k' hrun
  exact absurd (hiff.mp hsame) (List.cons_ne_nil _ _)

end BimbleOS
