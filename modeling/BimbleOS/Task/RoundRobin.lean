import Mathlib.Data.List.Rotate
import BimbleOS.Task.TaskQueue

/-!
# `Task.RoundRobin` — whose turn it is

`task_next` runs the task after the current one, and the head after the tail. So the list of tasks is a ring that
starts at the current task (`TurnOrder`), which `task_next` turns by one place, and which loses its first place when
the current task is removed.
-/

namespace BimbleOS

open Links Transition

/-- `task_next` as far as the task list goes: `task_switch` reads the page directory of the next task. `none` is the
    panic when there is no task. -/
def taskNext (l : TaskList) : Option TaskList :=
  let (l, nextTask) := taskGetNext l
  if nextTask = 0 then none else some { l.touch nextTask with currentTask := nextTask }

/-- `task_next` time after time, with the tasks that it runs. -/
def taskNextRun : Nat → TaskList → Option (List Nat × TaskList)
  | 0, l => some ([], l)
  | n + 1, l => (taskNext l).bind fun l' => (taskNextRun n l').map fun r => (l'.currentTask :: r.1, r.2)

/-- The tasks in the order of their turns, from the current one on. -/
structure TurnOrder (l : TaskList) (tasks : List Nat) : Prop where
  ring : Ring l.nextOf 0 l.taskHead tasks
  first : tasks.head? = some l.currentTask

section Turns

variable {l : TaskList} {tasks others : List Nat} {task n : Nat}

theorem TurnOrder.cons (h : TurnOrder l tasks) : ∃ others, tasks = l.currentTask :: others := by
  have hfirst := h.first
  cases tasks with
  | nil => cases hfirst
  | cons t others =>
      obtain rfl := Option.some.inj hfirst
      exact ⟨others, rfl⟩

/-- `task_get_next` follows the ring. -/
theorem taskGetNext_eq (l : TaskList) :
    taskGetNext l = (l.touch l.currentTask, ringNext l.nextOf 0 l.taskHead l.currentTask) := by
  unfold taskGetNext ringNext
  by_cases hnext : l.nextOf l.currentTask = 0
  · rw [if_pos hnext]
    exact if_pos hnext
  · rw [if_neg hnext]
    exact if_neg hnext

/-- The task that `task_next` runs: the one after the current one, or the current one if it is alone. -/
theorem TurnOrder.taskNext_eq (h : TurnOrder l (l.currentTask :: others)) : taskNext l
    = some { (l.touch l.currentTask).touch (others.headD l.currentTask) with
        currentTask := others.headD l.currentTask } := by
  unfold taskNext
  rw [taskGetNext_eq, h.ring.next_eq]
  apply if_neg
  apply h.ring.ne_null
  cases others with
  | nil => exact List.mem_cons_self
  | cons t others => exact List.mem_cons_of_mem _ List.mem_cons_self

/-- **One turn**: the ring turns by one place. -/
theorem TurnOrder.next (h : TurnOrder l tasks) : ∃ l', taskNext l = some l' ∧ TurnOrder l' (tasks.rotate 1) := by
  obtain ⟨others, rfl⟩ := h.cons
  refine ⟨_, h.taskNext_eq, ?_, ?_⟩
  · rw [List.rotate_cons_succ, List.rotate_zero]
    exact h.ring.turn
  · rw [List.rotate_cons_succ, List.rotate_zero]
    cases others with
    | nil => rfl
    | cons t others => rfl

/-- **A series of turns**, of one round at most: each task runs at its place in the ring. -/
theorem TurnOrder.run (h : TurnOrder l tasks) (hn : n ≤ tasks.length) :
    ∃ l', taskNextRun n l = some ((tasks.rotate 1).take n, l') ∧ TurnOrder l' (tasks.rotate n) := by
  induction n generalizing l tasks with
  | zero =>
      refine ⟨l, rfl, ?_⟩
      rwa [List.rotate_zero]
  | succ n ih =>
      obtain ⟨l', hnext, hturn⟩ := h.next
      have hlen : n ≤ (tasks.rotate 1).length := by
        rw [List.length_rotate]
        omega
      obtain ⟨l'', hrun, hturn'⟩ := ih hturn hlen
      obtain ⟨others, hothers⟩ := hturn.cons
      refine ⟨l'', ?_, ?_⟩
      · have hshort : n ≤ others.length := by
          rw [← List.length_rotate tasks 1, hothers, List.length_cons] at hn
          omega
        rw [hothers, List.rotate_cons_succ, List.rotate_zero, List.take_append_of_le_length hshort] at hrun
        rw [taskNextRun, hnext, Option.bind_some, hrun, hothers]
        rfl
      · rwa [List.rotate_rotate, Nat.add_comm] at hturn'

/-- Any task of the list may be the current one. -/
theorem TurnOrder.of_path {i : Nat} (h : Path l.nextOf 0 l.taskHead tasks) (hi : i < tasks.length)
    (hcurrent : tasks[i]? = some l.currentTask) : TurnOrder l (tasks.rotate i) where
  ring := by
    refine ⟨tasks.take i, tasks.drop i, ?_, ?_⟩
    · rwa [List.take_append_drop]
    · exact List.rotate_eq_drop_append_take (Nat.le_of_lt hi)
  first := by
    rw [List.head?_rotate hi]
    exact hcurrent

end Turns

/-! ## A list that `task_new` has built -/

/-- The task that a call creates. -/
def TaskCall.created : TaskCall → Option Nat
  | .new task _ _ _ => some task
  | .free _ => none

/-- The tasks that were created, in order. -/
def createdTasks (tr : List (TaskState × TaskCall)) : List Nat := tr.filterMap fun q => q.2.created

section Created

variable {task : Nat → Task} {tr : List (TaskState × TaskCall)} {s : TaskState}

/-- Where nothing was freed, the tasks of the list are those that were created. -/
theorem createdTasks_spec (htr : Trace TaskStep (noTasks task) tr s) (hnew : ∀ q ∈ tr, q.2.created ≠ none) :
    TaskListOk s ∧ s.live = createdTasks tr ∧ (createdTasks tr).length = tr.length := by
  induction htr with
  | nil => exact ⟨noTasks_ok task, rfl, rfl⟩
  | @snoc tr s s' c _ hstep ih =>
      obtain ⟨hok, hlive, hlen⟩ := ih fun q hq => hnew q (List.mem_append_left _ hq)
      have hlast := hnew (s, c) (List.mem_append_right _ (List.mem_singleton.mpr rfl))
      unfold createdTasks at *
      cases hstep with
      | new t process pageDirectory ip hne hfresh =>
          refine ⟨hok.new hne hfresh, ?_, ?_⟩
          · rw [List.filterMap_append, ← hlive]
            rfl
          · rw [List.filterMap_append, List.length_append, List.length_append, hlen]
            rfl
      | free t => exact absurd rfl hlast

/-- **Round robin.** After any number of `task_new` calls and from any of the tasks, as many turns as there are tasks
    run each of them once, in the order of their creation, and come back to the first one. -/
theorem taskNextRun_spec (htr : Trace TaskStep (noTasks task) tr s) (hnew : ∀ q ∈ tr, q.2.created ≠ none)
    {current : Nat} (hcurrent : current ∈ createdTasks tr) : ∃ i ran l',
    taskNextRun tr.length { s.list with currentTask := current } = some (ran, l') ∧
      (∀ t ∈ createdTasks tr, ran.count t = 1) ∧ ran.length = tr.length ∧
      (createdTasks tr)[i]? = some current ∧ ran = (createdTasks tr).rotate (i + 1) ∧ l'.currentTask = current := by
  obtain ⟨hok, hlive, hlen⟩ := createdTasks_spec htr hnew
  obtain ⟨i, hi, hget⟩ := List.mem_iff_getElem.mp hcurrent
  have hat : (createdTasks tr)[i]? = some current := by
    rw [List.getElem?_eq_getElem hi, hget]
  have hpath : Path s.list.nextOf 0 s.list.taskHead (createdTasks tr) := hlive ▸ hok.linked.path
  have hturn : TurnOrder { s.list with currentTask := current } ((createdTasks tr).rotate i) :=
    TurnOrder.of_path hpath hi hat
  have hnodup : (createdTasks tr).Nodup := hlive ▸ hok.nodup
  obtain ⟨l', hrun, hround⟩ := hturn.run (n := tr.length) (by rw [List.length_rotate, hlen])
  rw [List.rotate_rotate, List.take_of_length_le (by rw [List.length_rotate, hlen])] at hrun
  refine ⟨i, _, l', hrun, ?_, ?_, hat, rfl, ?_⟩
  · intro t ht
    exact List.count_eq_one_of_mem (List.nodup_rotate.mpr hnodup) (List.mem_rotate.mpr ht)
  · rw [List.length_rotate, hlen]
  · -- a whole round leaves the ring as it was
    have hsame : (createdTasks tr).rotate i = ((createdTasks tr).rotate i).rotate tr.length := by
      rw [← hlen, ← List.length_rotate (createdTasks tr) i, List.rotate_length]
    have hfirst := hround.first
    rw [← hsame, hturn.first] at hfirst
    exact (Option.some.inj hfirst).symm

end Created

/-! Two tasks, created at boot; the second one is the current one. -/

def twoTaskCalls : List TaskCall :=
  [.new 0x1000 0x2000 0x3000 0x400000#32, .new 0x5000 0x6000 0x7000 0x400000#32]

/-- The states that a list of calls goes through, with the calls. -/
def TaskState.trace (s : TaskState) : List TaskCall → List (TaskState × TaskCall)
  | [] => []
  | c :: calls => (s, c) :: (s.after c).trace calls

theorem twoTasks_trace : Trace TaskStep (noTasks fun _ => {}) ((noTasks fun _ => {}).trace twoTaskCalls)
    (twoTaskCalls.foldl TaskState.after (noTasks fun _ => {})) :=
  Trace.snoc (Trace.snoc Trace.nil (TaskStep.new _ _ _ _ (by decide) (by decide)))
    (TaskStep.new _ _ _ _ (by decide) (by decide))

theorem taskNextRun_spec_two : ∃ i ran l', taskNextRun 2
    { (twoTaskCalls.foldl TaskState.after (noTasks fun _ => {})).list with currentTask := 0x5000 } = some (ran, l') ∧
      (∀ t ∈ [0x1000, 0x5000], ran.count t = 1) ∧ ran.length = 2 ∧ [0x1000, 0x5000][i]? = some 0x5000 ∧
      ran = [0x1000, 0x5000].rotate (i + 1) ∧ l'.currentTask = 0x5000 :=
  taskNextRun_spec twoTasks_trace (by decide) (by decide)

/-! ## The end of a task -/

/-- A task list as `task_new` builds it. -/
structure WellLinked (l : TaskList) (tasks : List Nat) : Prop where
  linked : DLinked l.nextOf l.prevOf 0 l.taskHead tasks
  nodup : tasks.Nodup
  tail : ∀ t, tasks.getLast? = some t → l.taskTail = t
  current : l.currentTask ∈ tasks

theorem TaskListOk.wellLinked {s : TaskState} (h : TaskListOk s) (hne : s.live ≠ []) : WellLinked s.list s.live :=
  ⟨h.linked, h.nodup, h.tail, h.currentLive hne⟩

section Remove

variable {l : TaskList} {tasks rest : List Nat} {t s : Nat}

/-- The ring of a well linked list. -/
theorem WellLinked.turnOrder (h : WellLinked l tasks) :
    ∃ others, TurnOrder l (l.currentTask :: others) ∧ others.length + 1 = tasks.length ∧ others.Nodup := by
  obtain ⟨i, hi, hget⟩ := List.mem_iff_getElem.mp h.current
  have hturn := TurnOrder.of_path h.linked.path hi (by rw [List.getElem?_eq_getElem hi, hget])
  obtain ⟨others, heq⟩ := hturn.cons
  refine ⟨others, heq ▸ hturn, ?_, ?_⟩
  · rw [← List.length_rotate tasks i, heq, List.length_cons]
  · have hnodup := List.nodup_rotate (n := i) |>.mpr h.nodup
    rw [heq] at hnodup
    exact (List.nodup_cons.mp hnodup).2

/-- **Removing the current task** drops it from the ring: the next task is the current one then. -/
theorem TurnOrder.free (h : TurnOrder l (l.currentTask :: s :: rest)) (hl : WellLinked l tasks) :
    TurnOrder (taskFree l l.currentTask) (s :: rest) := by
  obtain ⟨xs, ys, hpath, hring⟩ := h.ring.split
  obtain rfl : tasks = xs ++ l.currentTask :: ys := hl.linked.path.unique hpath
  obtain ⟨hhead, _, hcurrent⟩ := taskFree_pointers l l.currentTask
  refine ⟨⟨xs, ys, ?_, hring⟩, ?_⟩
  · rw [taskFree_nextOf, hhead]
    exact hl.linked.unlink hl.nodup
  · have hnext := h.ring.next_eq
    unfold ringNext at hnext
    rw [hcurrent]
    unfold currentAfter headAfter
    rw [if_pos rfl]
    by_cases hlast : l.nextOf l.currentTask = 0
    · -- the tail is removed, which is not the head as well
      rw [if_pos hlast] at hnext ⊢
      have hne : l.currentTask ≠ l.taskHead := by
        intro heq
        have hsame : s = l.currentTask := hnext.symm.trans heq.symm
        have hmem : s ∈ ys ++ xs := hring ▸ List.mem_cons_self
        rw [hsame, List.mem_append, or_comm, ← List.mem_append] at hmem
        exact (List.nodup_cons.mp (List.nodup_middle.mp hl.nodup)).1 hmem
      rw [if_neg hne]
      exact congrArg some hnext.symm
    · rw [if_neg hlast] at hnext ⊢
      exact congrArg some hnext.symm

/-- **The turn after the end of the current task.** The removal has made the next task the current one, and
    `task_next` goes on from there: the next task keeps its turn only where no other one is left. -/
theorem TurnOrder.free_next_iff (h : TurnOrder l (l.currentTask :: s :: rest)) (hl : WellLinked l tasks)
    (hnodup : (s :: rest).Nodup) : ∃ l', taskNext (taskFree l l.currentTask) = some l' ∧
      TurnOrder l' (rest ++ [s]) ∧ (l'.currentTask = s ↔ rest = []) := by
  obtain ⟨l', hnext, hturn⟩ := (h.free hl).next
  rw [List.rotate_cons_succ, List.rotate_zero] at hturn
  refine ⟨l', hnext, hturn, ?_⟩
  have hfirst := hturn.first
  cases rest with
  | nil => exact iff_of_true (Option.some.inj hfirst).symm rfl
  | cons u rest =>
      have hne : u ≠ s := fun hsame => (List.nodup_cons.mp hnodup).1 (hsame ▸ List.mem_cons_self)
      rw [← Option.some.inj hfirst]
      exact iff_of_false hne (List.cons_ne_nil u rest)

end Remove

end BimbleOS
