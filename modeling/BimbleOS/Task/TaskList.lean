import Mathlib.Logic.Function.Basic
import BimbleOS.Config

/-!
# `Task.TaskList` — the task list of `task/task.c`

`struct Task` and the functions of `task.c` that work on the linked list of tasks: `task_get_next`,
`task_list_remove` and the part of `task_new` that links the new task. Tasks are named by their
address; `task` is the memory that holds the structures, and it keeps the contents of a freed one, as
the heap does. The ghost list `touched` records every task structure that is read or written.
-/

namespace BimbleOS

/-- `struct Registers`. -/
structure Registers where
  edi : BitVec 32 := 0
  esi : BitVec 32 := 0
  ebp : BitVec 32 := 0
  ebx : BitVec 32 := 0
  edx : BitVec 32 := 0
  ecx : BitVec 32 := 0
  eax : BitVec 32 := 0
  ip : BitVec 32 := 0
  cs : BitVec 32 := 0
  flags : BitVec 32 := 0
  esp : BitVec 32 := 0
  ss : BitVec 32 := 0
  deriving DecidableEq, Repr

/-- `struct Task`; pointers are addresses, 0 is the null pointer. -/
structure Task where
  process : Nat := 0
  pageDirectory : Nat := 0
  registers : Registers := {}
  next : Nat := 0
  prev : Nat := 0
  deriving DecidableEq, Repr

/-- `task_head`, `task_tail` and `current_task`, with the memory of the task structures. -/
structure TaskList where
  task : Nat → Task
  taskHead : Nat := 0
  taskTail : Nat := 0
  currentTask : Nat := 0
  touched : List Nat := []

namespace TaskList

/-- The structure at `a` is accessed. -/
def touch (l : TaskList) (a : Nat) : TaskList := { l with touched := a :: l.touched }

/-- Store a whole structure at `a`. -/
def store (l : TaskList) (a : Nat) (t : Task) : TaskList :=
  { l.touch a with task := Function.update l.task a t }

end TaskList

/-- `task_get_next`: the successor of the current task, or the head. -/
def taskGetNext (l : TaskList) : TaskList × Nat :=
  let l := l.touch l.currentTask
  if (l.task l.currentTask).next = 0 then (l, l.taskHead) else (l, (l.task l.currentTask).next)

/-- `task_list_remove`. -/
def taskListRemove (l : TaskList) (task : Nat) : TaskList :=
  let l := l.touch task
  let l := if (l.task task).prev ≠ 0 then
      l.store (l.task task).prev { l.task (l.task task).prev with next := (l.task task).next }
    else l
  let l := if task = l.taskHead then { l with taskHead := (l.task task).next } else l
  let l := if task = l.taskTail then { l with taskTail := (l.task task).prev } else l
  if task = l.currentTask then
    let (l, next) := taskGetNext l
    { l with currentTask := next }
  else l

/-- The part of `task_new` after `task_init`: link `task` behind the tail, or make it the only task. -/
def taskNewLink (l : TaskList) (task : Nat) : TaskList :=
  if l.taskHead = 0 then { l with taskHead := task, taskTail := task, currentTask := task }
  else
    let l := l.store l.taskTail { l.task l.taskTail with next := task }
    let l := l.store task { l.task task with prev := l.taskTail }
    { l with taskTail := task }

/-- What `task_init` leaves in the structure it has cleared: `ip` is the program address, or the entry
    point of an ELF program. -/
def taskInit (process pageDirectory : Nat) (ip : BitVec 32) : Task where
  process := process
  pageDirectory := pageDirectory
  registers := {
    ip := ip
    ss := BitVec.ofNat 32 userDataSegment
    cs := BitVec.ofNat 32 userCodeSegment
    esp := BitVec.ofNat 32 bimbleosProgramVirtualStackAddressStart }

/-- `task_new` where nothing fails: `kzalloc` returned `task`, which `task_init` fills. -/
def taskNew (l : TaskList) (task process pageDirectory : Nat) (ip : BitVec 32) : TaskList :=
  taskNewLink (l.store task (taskInit process pageDirectory ip)) task

/-- `task_free` on the task list: the page directory is read from the structure, then the task is
    unlinked. Freeing the structure leaves its contents in memory. -/
def taskFree (l : TaskList) (task : Nat) : TaskList := taskListRemove (l.touch task) task

/-! ## What linking changes -/

/-- The same task, linked elsewhere. -/
def Task.SameBut (t t' : Task) : Prop := ∃ next prev, t' = { t with next := next, prev := prev }

theorem Task.SameBut.refl (t : Task) : t.SameBut t := ⟨t.next, t.prev, rfl⟩

theorem Task.SameBut.trans {t t' t'' : Task} (h : t.SameBut t') (h' : t'.SameBut t'') : t.SameBut t'' := by
  obtain ⟨next, prev, rfl⟩ := h
  obtain ⟨next', prev', rfl⟩ := h'
  exact ⟨next', prev', rfl⟩

/-- Storing a task that is linked elsewhere. -/
theorem TaskList.store_sameBut {l : TaskList} {a : Nat} {t : Task} (h : (l.task a).SameBut t) (b : Nat) :
    (l.task b).SameBut ((l.store a t).task b) := by
  show (l.task b).SameBut (Function.update l.task a t b)
  by_cases hb : b = a
  · rw [hb, Function.update_self]
    exact h
  · rw [Function.update_of_ne hb]
    exact Task.SameBut.refl _

/-- Linking a task changes only where tasks are linked. -/
theorem taskNewLink_sameBut (l : TaskList) (t a : Nat) : (l.task a).SameBut ((taskNewLink l t).task a) := by
  unfold taskNewLink
  split
  · exact Task.SameBut.refl _
  · have hback := TaskList.store_sameBut (l := l) (a := l.taskTail)
      (t := { l.task l.taskTail with next := t }) ⟨_, _, rfl⟩ a
    exact hback.trans (TaskList.store_sameBut ⟨_, _, rfl⟩ a)

/-- The page directories of the tasks are left alone. -/
theorem taskNewLink_pageDirectory (l : TaskList) (t a : Nat) :
    ((taskNewLink l t).task a).pageDirectory = (l.task a).pageDirectory := by
  obtain ⟨next, prev, hnew⟩ := taskNewLink_sameBut l t a
  rw [hnew]

end BimbleOS
