import BimbleOS.Task.TaskList
import BimbleOS.Lib.Links
import BimbleOS.Lib.Trace

/-!
# `Task.TaskQueue` — the task list over histories of `task_new` and `task_free`

`task_list_remove` repairs the `next` link of the predecessor, the head, the tail and the current task,
but not the `prev` link of the successor. The list stays well linked as long as only tail tasks are
freed (they have no successor), and the first removal anywhere else breaks it: the successor keeps
pointing at the freed task.
-/

namespace BimbleOS

open Links Transition

namespace TaskList

/-- The `next` links as a function on addresses. -/
def nextOf (l : TaskList) (a : Nat) : Nat := (l.task a).next

/-- The `prev` links as a function on addresses. -/
def prevOf (l : TaskList) (a : Nat) : Nat := (l.task a).prev

@[simp] theorem nextOf_touch (l : TaskList) (a : Nat) : (l.touch a).nextOf = l.nextOf := rfl

@[simp] theorem prevOf_touch (l : TaskList) (a : Nat) : (l.touch a).prevOf = l.prevOf := rfl

theorem nextOf_store (l : TaskList) (a : Nat) (t : Task) :
    (l.store a t).nextOf = Function.update l.nextOf a t.next := by
  funext b
  by_cases h : b = a
  · subst h; simp [nextOf, store]
  · simp [nextOf, store, touch, Function.update_of_ne h]

theorem prevOf_store (l : TaskList) (a : Nat) (t : Task) :
    (l.store a t).prevOf = Function.update l.prevOf a t.prev := by
  funext b
  by_cases h : b = a
  · subst h; simp [prevOf, store]
  · simp [prevOf, store, touch, Function.update_of_ne h]

end TaskList

/-! ## What `task_list_remove` does -/

section Remove

variable (l : TaskList) (t : Nat)

/-- The list after the first statement of `task_list_remove`. -/
def unlinkNext : TaskList :=
  if l.prevOf t ≠ 0 then l.store (l.prevOf t) { l.task (l.prevOf t) with next := l.nextOf t } else l

/-- The head after `task_list_remove`. -/
def headAfter : Nat := if t = l.taskHead then l.nextOf t else l.taskHead

/-- The current task after `task_list_remove`. -/
def currentAfter : Nat :=
  if t = l.currentTask then (if l.nextOf t = 0 then headAfter l t else l.nextOf t) else l.currentTask

theorem unlinkNext_nextOf : (unlinkNext l t).nextOf =
    if l.prevOf t ≠ 0 then Function.update l.nextOf (l.prevOf t) (l.nextOf t) else l.nextOf := by
  unfold unlinkNext
  split
  · rw [TaskList.nextOf_store]
  · rfl

theorem unlinkNext_prevOf : (unlinkNext l t).prevOf = l.prevOf := by
  unfold unlinkNext
  split
  · rw [TaskList.prevOf_store]; exact Function.update_eq_self _ _
  · rfl

/-- The removed task itself still shows its own successor. -/
theorem unlinkNext_nextOf_self : (unlinkNext l t).nextOf t = l.nextOf t := by
  rw [unlinkNext_nextOf]
  split
  · by_cases h : t = l.prevOf t
    · rw [← h, Function.update_self]
    · rw [Function.update_of_ne h]
  · rfl

theorem unlinkNext_pointers : (unlinkNext l t).taskHead = l.taskHead ∧
    (unlinkNext l t).taskTail = l.taskTail ∧ (unlinkNext l t).currentTask = l.currentTask := by
  unfold unlinkNext
  split <;> exact ⟨rfl, rfl, rfl⟩

/-- `task_list_remove` accesses the removed task, and its predecessor if it has one. -/
theorem unlinkNext_touched {a : Nat} (ha : a ∈ (unlinkNext l t).touched) :
    a ∈ l.touched ∨ (a = l.prevOf t ∧ l.prevOf t ≠ 0) := by
  unfold unlinkNext at ha
  split at ha
  · next hprev =>
      rcases List.mem_cons.mp ha with ha | ha
      · exact Or.inr ⟨ha, hprev⟩
      · exact Or.inl ha
  · exact Or.inl ha

/-- The rest of `task_list_remove`, in a list whose removed task shows the successor `n` and the
    predecessor `p`. -/
theorem removePointers_eq (m : TaskList) {n p h k c : Nat} (hn : (m.task t).next = n)
    (hp : (m.task t).prev = p) (hh : m.taskHead = h) (hk : m.taskTail = k) (hc : m.currentTask = c) :
    ∃ touched : List Nat,
    (let m := if t = m.taskHead then { m with taskHead := (m.task t).next } else m
     let m := if t = m.taskTail then { m with taskTail := (m.task t).prev } else m
     if t = m.currentTask then
       let (m, next) := taskGetNext m
       { m with currentTask := next }
     else m) = { m with
       taskHead := if t = h then n else h
       taskTail := if t = k then p else k
       currentTask := if t = c then (if n = 0 then (if t = h then n else h) else n) else c
       touched := touched } ∧
    ∀ a ∈ touched, a ∈ m.touched ∨ a = t := by
  subst hn hp hh hk hc
  by_cases hc : t = m.currentTask
  · -- the current task is removed: `task_get_next` reads its structure once more
    refine ⟨t :: m.touched, ?_, fun a ha => (List.mem_cons.mp ha).symm⟩
    unfold taskGetNext
    rcases Classical.propComplete (t = m.taskHead) with hhead | hhead <;>
      rcases Classical.propComplete (t = m.taskTail) with htail | htail <;>
      rcases Classical.propComplete ((m.task t).next = 0) with hn | hn <;>
      simp only [← hc, hhead, htail, hn, TaskList.touch, if_true, if_false]
  · refine ⟨m.touched, ?_, fun a ha => Or.inl ha⟩
    rcases Classical.propComplete (t = m.taskHead) with hhead | hhead <;>
      rcases Classical.propComplete (t = m.taskTail) with htail | htail <;>
      simp only [if_neg hc, hhead, htail, if_true, if_false]

/-- `task_list_remove` as one record: only the three pointers change after the first statement. -/
theorem taskListRemove_eq : ∃ touched : List Nat,
    taskListRemove l t = { unlinkNext (l.touch t) t with
      taskHead := headAfter l t
      taskTail := if t = l.taskTail then l.prevOf t else l.taskTail
      currentTask := currentAfter l t
      touched := touched } ∧
    ∀ a ∈ touched, a ∈ l.touched ∨ a = t ∨ (a = l.prevOf t ∧ l.prevOf t ≠ 0) := by
  have hnext : ((unlinkNext (l.touch t) t).task t).next = l.nextOf t :=
    unlinkNext_nextOf_self (l.touch t) t
  have hprev : ((unlinkNext (l.touch t) t).task t).prev = l.prevOf t :=
    congrFun (unlinkNext_prevOf (l.touch t) t) t
  obtain ⟨hhead, htail, hcur⟩ := unlinkNext_pointers (l.touch t) t
  obtain ⟨touched, heq, htouched⟩ := removePointers_eq t (unlinkNext (l.touch t) t) hnext hprev
    hhead htail hcur
  refine ⟨touched, heq, fun a ha => ?_⟩
  rcases htouched a ha with ha | rfl
  · rcases unlinkNext_touched (l.touch t) t ha with ha | ha
    · rcases List.mem_cons.mp ha with rfl | ha
      · exact Or.inr (Or.inl rfl)
      · exact Or.inl ha
    · exact Or.inr (Or.inr ha)
  · exact Or.inr (Or.inl rfl)

end Remove

/-- `task_free` touches only the `next` links. -/
theorem taskFree_prevOf (l : TaskList) (t : Nat) : (taskFree l t).prevOf = l.prevOf := by
  obtain ⟨touched, heq, _⟩ := taskListRemove_eq (l.touch t) t
  have hprev : (taskFree l t).prevOf = (unlinkNext ((l.touch t).touch t) t).prevOf := by
    unfold taskFree; rw [heq]; rfl
  rw [hprev, unlinkNext_prevOf]
  rfl

theorem taskFree_nextOf (l : TaskList) (t : Nat) : (taskFree l t).nextOf =
    if l.prevOf t ≠ 0 then Function.update l.nextOf (l.prevOf t) (l.nextOf t) else l.nextOf := by
  obtain ⟨touched, heq, _⟩ := taskListRemove_eq (l.touch t) t
  have hnext : (taskFree l t).nextOf = (unlinkNext ((l.touch t).touch t) t).nextOf := by
    unfold taskFree; rw [heq]; rfl
  rw [hnext, unlinkNext_nextOf]
  rfl

theorem taskFree_pointers (l : TaskList) (t : Nat) : (taskFree l t).taskHead = headAfter l t ∧
    (taskFree l t).taskTail = (if t = l.taskTail then l.prevOf t else l.taskTail) ∧
    (taskFree l t).currentTask = currentAfter l t := by
  obtain ⟨touched, heq, _⟩ := taskListRemove_eq (l.touch t) t
  unfold taskFree
  rw [heq]
  exact ⟨rfl, rfl, rfl⟩

/-- `task_free` accesses the freed task and its predecessor. -/
theorem taskFree_touched {l : TaskList} {t a : Nat} (ha : a ∈ (taskFree l t).touched) :
    a ∈ l.touched ∨ a = t ∨ (a = l.prevOf t ∧ l.prevOf t ≠ 0) := by
  obtain ⟨touched, heq, htouched⟩ := taskListRemove_eq (l.touch t) t
  have hmem : a ∈ touched := by
    unfold taskFree at ha; rw [heq] at ha; exact ha
  rcases htouched a hmem with ha | ha
  · rcases List.mem_cons.mp ha with ha | ha
    · exact Or.inr (Or.inl ha)
    · exact Or.inl ha
  · exact Or.inr ha

/-! ## What the linking part of `task_new` does -/

section New

variable {l : TaskList} (t : Nat)

theorem taskNewLink_nextOf (h : l.taskHead ≠ 0) :
    (taskNewLink l t).nextOf = Function.update l.nextOf l.taskTail t := by
  have hlink : (l.store l.taskTail { l.task l.taskTail with next := t }).nextOf
      = Function.update l.nextOf l.taskTail t := TaskList.nextOf_store ..
  unfold taskNewLink
  rw [if_neg h, ← hlink]
  show ((l.store l.taskTail _).store t _).nextOf = _
  rw [TaskList.nextOf_store]
  exact Function.update_eq_self _ _

theorem taskNewLink_prevOf (h : l.taskHead ≠ 0) :
    (taskNewLink l t).prevOf = Function.update l.prevOf t l.taskTail := by
  have hkeep : (l.store l.taskTail { l.task l.taskTail with next := t }).prevOf = l.prevOf := by
    rw [TaskList.prevOf_store]; exact Function.update_eq_self _ _
  unfold taskNewLink
  rw [if_neg h]
  show ((l.store l.taskTail _).store t _).prevOf = _
  rw [TaskList.prevOf_store, hkeep]
  rfl

theorem taskNewLink_pointers (h : l.taskHead ≠ 0) : (taskNewLink l t).taskHead = l.taskHead ∧
    (taskNewLink l t).taskTail = t ∧ (taskNewLink l t).currentTask = l.currentTask ∧
    (taskNewLink l t).touched = t :: l.taskTail :: l.touched := by
  unfold taskNewLink
  rw [if_neg h]
  exact ⟨rfl, rfl, rfl, rfl⟩

end New

/-! ## Histories -/

/-- The task list with two ghosts: the live tasks in creation order, and the accesses so far to a
    structure that was not allocated at that moment. -/
structure TaskState where
  list : TaskList
  live : List Nat := []
  wild : List Nat := []

inductive TaskCall where
  | new (task process pageDirectory : Nat) (ip : BitVec 32)
  | free (task : Nat)
  deriving DecidableEq, Repr

/-- The accesses of one call to structures outside `allocated`. -/
def TaskList.wildIn (l : TaskList) (allocated : List Nat) : List Nat :=
  l.touched.filter (fun a => a ∉ allocated)

/-- The state after a call. -/
def TaskState.after (s : TaskState) : TaskCall → TaskState
  | .new task process pageDirectory ip =>
      let list := taskNew { s.list with touched := [] } task process pageDirectory ip
      { list := list, live := s.live ++ [task], wild := s.wild ++ list.wildIn (s.live ++ [task]) }
  | .free task =>
      let list := taskFree { s.list with touched := [] } task
      { list := list, live := s.live.erase task, wild := s.wild ++ list.wildIn s.live }

/-- One call: a `task_new` that succeeds, whose structure is some free piece of heap, or a `task_free`
    of a live task. -/
inductive TaskStep (s : TaskState) : TaskCall → TaskState → Prop where
  | new (task process pageDirectory : Nat) (ip : BitVec 32) (hne : task ≠ 0) (hfresh : task ∉ s.live) :
      TaskStep s (.new task process pageDirectory ip) (s.after (.new task process pageDirectory ip))
  | free (task : Nat) (hlive : task ∈ s.live) : TaskStep s (.free task) (s.after (.free task))

/-- What a well-kept task list is: linked both ways through the live tasks in creation order, with the
    three pointers in place, and no access to a task that is not allocated. -/
structure TaskListOk (s : TaskState) : Prop where
  linked : DLinked s.list.nextOf s.list.prevOf 0 s.list.taskHead s.live
  nodup : s.live.Nodup
  tail : ∀ t, s.live.getLast? = some t → s.list.taskTail = t
  currentZero : s.list.currentTask = 0 ↔ s.live = []
  currentLive : s.live ≠ [] → s.list.currentTask ∈ s.live
  wild : s.wild = []

/-- The condition on a call: a freed task is the newest one. -/
def TaskCall.Ok (s : TaskState) : TaskCall → Prop
  | .new .. => True
  | .free task => s.live.getLast? = some task

theorem wildIn_eq_nil {l : TaskList} {allocated : List Nat} (h : ∀ a ∈ l.touched, a ∈ allocated) :
    l.wildIn allocated = [] :=
  List.filter_eq_nil_iff.mpr fun a ha => by simp [h a ha]

/-- Creating a task keeps the list. -/
theorem TaskListOk.new {s : TaskState} (h : TaskListOk s) {task process pageDirectory : Nat}
    {ip : BitVec 32} (hne : task ≠ 0) (hfresh : task ∉ s.live) :
    TaskListOk (s.after (.new task process pageDirectory ip)) := by
  obtain ⟨list, live, wild⟩ := s
  obtain ⟨hlinked, hnodup, htail, hzero, hcur, hwild⟩ := h
  simp only at hlinked hnodup htail hzero hcur hwild hfresh
  subst hwild
  have hnodup' : (live ++ [task]).Nodup :=
    List.nodup_append.mpr ⟨hnodup, List.pairwise_singleton _ _, fun a ha b hb => by
      rw [List.mem_singleton.mp hb]; rintro rfl; exact hfresh ha⟩
  have hlast : ∀ t, (live ++ [task]).getLast? = some t → t = task := by
    intro t ht
    rw [List.getLast?_append] at ht
    exact (Option.some.inj ht).symm
  -- the list once `task_init` has filled the new structure
  have hinit : ({ list with touched := [] } : TaskList).store task (taskInit process pageDirectory ip)
      = { list with
          task := Function.update list.task task (taskInit process pageDirectory ip)
          touched := [task] } := rfl
  simp only [TaskState.after, taskNew, hinit]
  generalize hm : ({ list with
    task := Function.update list.task task (taskInit process pageDirectory ip)
    touched := [task] } : TaskList) = m
  have hnext : m.nextOf = Function.update list.nextOf task 0 := by
    rw [← hm]; exact TaskList.nextOf_store list task (taskInit process pageDirectory ip)
  have hprev : m.prevOf = Function.update list.prevOf task 0 := by
    rw [← hm]; exact TaskList.prevOf_store list task (taskInit process pageDirectory ip)
  have hhead : m.taskHead = list.taskHead := by rw [← hm]
  have hmtail : m.taskTail = list.taskTail := by rw [← hm]
  have hmcur : m.currentTask = list.currentTask := by rw [← hm]
  have htouched : m.touched = [task] := by rw [← hm]
  have hlinked' : DLinked m.nextOf m.prevOf 0 m.taskHead live := by
    rw [hnext, hprev, hhead]
    refine hlinked.congr (fun x hx => ?_) (fun x hx => ?_)
    · exact Function.update_of_ne (fun he : x = task => hfresh (he ▸ hx)) _ _
    · exact Function.update_of_ne (fun he : x = task => hfresh (he ▸ hx)) _ _
  rcases List.eq_nil_or_concat live with rfl | ⟨ys, p, rfl⟩
  · -- the first task
    have hnull : m.taskHead = 0 := hlinked'.path
    have hlink : taskNewLink m task
        = { m with taskHead := task, taskTail := task, currentTask := task } := if_pos hnull
    simp only [hlink, List.nil_append]
    refine ⟨DLinked.single hne ?_ ?_, List.pairwise_singleton _ _, fun t ht => ?_, ?_, fun _ => ?_, ?_⟩
    · show m.nextOf task = 0
      rw [hnext]; exact Function.update_self ..
    · show m.prevOf task = 0
      rw [hprev]; exact Function.update_self ..
    · exact Option.some.inj ht
    · exact ⟨fun he => absurd he hne, fun he => absurd he (List.cons_ne_nil _ _)⟩
    · exact List.mem_singleton.mpr rfl
    · refine wildIn_eq_nil (fun a ha => ?_)
      rw [show a = task from List.mem_singleton.mp (htouched ▸ ha)]
      exact List.mem_singleton.mpr rfl
  · -- behind the tail `p`
    rw [List.concat_eq_append] at *
    have hp : p ∉ ys := fun hmem => by
      have := (List.nodup_append.mp hnodup).2.2 p hmem p (List.mem_singleton.mpr rfl)
      exact this rfl
    have hptail : m.taskTail = p := hmtail.trans (htail p (by rw [List.getLast?_append]; rfl))
    have hheadne : m.taskHead ≠ 0 := by
      intro he
      have hpath := hlinked'.path
      cases ys with
      | nil => exact hpath.2.1 (hpath.1 ▸ he)
      | cons y ys => exact hpath.2.1 (hpath.1 ▸ he)
    obtain ⟨hhead', htail', hcur', htouched'⟩ := taskNewLink_pointers task hheadne
    have hnexttask : m.nextOf task = 0 := by rw [hnext]; exact Function.update_self ..
    refine ⟨?_, hnodup', fun t ht => htail'.trans (hlast t ht).symm, ?_, fun _ => ?_, ?_⟩
    · show DLinked (taskNewLink m task).nextOf (taskNewLink m task).prevOf 0 _ _
      rw [hhead', taskNewLink_nextOf task hheadne, taskNewLink_prevOf task hheadne, hptail,
        List.append_assoc]
      exact hlinked'.snoc hp hne hfresh hnexttask
    · show (taskNewLink m task).currentTask = 0 ↔ ys ++ [p] ++ [task] = []
      rw [hcur', hmcur, hzero]
      simp
    · show (taskNewLink m task).currentTask ∈ _
      rw [hcur', hmcur]
      exact List.mem_append_left _ (hcur (by simp))
    · refine wildIn_eq_nil (fun a ha => ?_)
      rw [htouched', htouched, hptail] at ha
      simp only [List.mem_cons, List.not_mem_nil, or_false] at ha
      rcases ha with rfl | rfl | rfl <;> simp

/-- Freeing the newest task keeps the list. -/
theorem TaskListOk.free {s : TaskState} (h : TaskListOk s) {task : Nat}
    (hlastTask : s.live.getLast? = some task) :
    TaskListOk (s.after (.free task)) := by
  obtain ⟨list, live, wild⟩ := s
  obtain ⟨hlinked, hnodup, htail, hzero, hcur, hwild⟩ := h
  simp only at hlinked hnodup htail hzero hcur hwild hlastTask
  subst hwild
  obtain ⟨ys, rfl⟩ : ∃ ys, live = ys ++ [task] := by
    obtain ⟨ys, hys⟩ := List.getLast?_eq_some_iff.mp hlastTask
    exact ⟨ys, hys⟩
  generalize hm : ({ list with touched := [] } : TaskList) = m
  have hlinked' : DLinked m.nextOf m.prevOf 0 m.taskHead (ys ++ [task]) := by rw [← hm]; exact hlinked
  have hmtail : m.taskTail = task := by rw [← hm]; exact htail task hlastTask
  have hmcur : m.currentTask ∈ ys ++ [task] := by rw [← hm]; exact hcur (by simp)
  have hmtouched : m.touched = [] := by rw [← hm]
  have hnotmem : task ∉ ys := fun hmem =>
    (List.nodup_append.mp hnodup).2.2 task hmem task (List.mem_singleton.mpr rfl) rfl
  have hne : task ≠ 0 := hlinked'.path.ne_null task (by simp)
  have hnext : m.nextOf task = 0 := hlinked'.path.next_last
  have herase : (ys ++ [task]).erase task = ys := by
    rw [List.erase_append_right _ hnotmem]; simp
  obtain ⟨hhead', htail', hcur'⟩ := taskFree_pointers m task
  rw [if_pos hmtail.symm] at htail'
  have hwild : (taskFree m task).wildIn (ys ++ [task]) = [] := by
    refine wildIn_eq_nil (fun a ha => ?_)
    rcases taskFree_touched ha with ha | rfl | ⟨rfl, hprev⟩
    · rw [hmtouched] at ha; exact absurd ha List.not_mem_nil
    · simp
    · exact (hlinked'.prev_mem (by simp)).resolve_left hprev
  simp only [TaskState.after, hm, herase, hwild, List.append_nil]
  rcases List.eq_nil_or_concat ys with rfl | ⟨zs, p, rfl⟩
  · -- the only task
    have hhead : m.taskHead = task := hlinked'.path.1
    have hheadAfter : headAfter m task = 0 := by
      unfold headAfter; rw [if_pos hhead.symm]; exact hnext
    have hcurTask : m.currentTask = task := List.mem_singleton.mp hmcur
    have hcurAfter : currentAfter m task = 0 := by
      unfold currentAfter; rw [if_pos hcurTask.symm, if_pos hnext]; exact hheadAfter
    refine ⟨?_, List.nodup_nil, fun t ht => ?_, ?_, fun he => absurd rfl he, rfl⟩
    · show DLinked _ _ 0 (taskFree m task).taskHead []
      rw [hhead', hheadAfter]
      exact DLinked.nil
    · exact absurd ht (by simp)
    · show (taskFree m task).currentTask = 0 ↔ [] = []
      rw [hcur', hcurAfter]
      simp
  · -- the new last task is `p`
    rw [List.concat_eq_append] at *
    rw [List.append_assoc] at hlinked' hmcur
    have hnodup' : (zs ++ [p]).Nodup := (List.nodup_append.mp hnodup).1
    have hp : p ∉ zs := fun hmem =>
      (List.nodup_append.mp hnodup').2.2 p hmem p (List.mem_singleton.mpr rfl) rfl
    have hprev : m.prevOf task = p := hlinked'.prev_last
    have hpne : p ≠ 0 := hlinked'.path.ne_null p (by simp)
    have hheadmem : m.taskHead ∈ zs ++ [p] := by
      have hpath := hlinked'.path
      cases zs with
      | nil => rw [hpath.1]; simp
      | cons z zs => rw [hpath.1]; simp
    have hheadAfter : headAfter m task = m.taskHead := by
      unfold headAfter
      exact if_neg (fun he : task = m.taskHead => hnotmem (he ▸ hheadmem))
    have hcurAfter : currentAfter m task ∈ zs ++ [p] := by
      unfold currentAfter
      by_cases hc : task = m.currentTask
      · rw [if_pos hc, if_pos hnext, hheadAfter]; exact hheadmem
      · rw [if_neg hc]
        simp only [List.mem_append, List.mem_cons, List.not_mem_nil, or_false] at hmcur ⊢
        tauto
    refine ⟨?_, hnodup', fun t ht => ?_, ?_, fun _ => ?_, rfl⟩
    · show DLinked (taskFree m task).nextOf (taskFree m task).prevOf 0 (taskFree m task).taskHead _
      rw [taskFree_nextOf, taskFree_prevOf, hhead', hheadAfter, hprev, if_pos hpne, hnext]
      exact hlinked'.dropLast hp
    · show (taskFree m task).taskTail = t
      rw [List.getLast?_append] at ht
      rw [htail', hprev]
      exact Option.some.inj ht
    · show (taskFree m task).currentTask = 0 ↔ _
      rw [hcur']
      refine ⟨fun he => ?_, fun he => absurd he (by simp)⟩
      have hlive := hlinked'.path.ne_null _ (show currentAfter m task ∈ zs ++ [p, task] by
        simp only [List.mem_append, List.mem_cons, List.not_mem_nil, or_false] at hcurAfter ⊢
        tauto)
      exact absurd he hlive
    · show (taskFree m task).currentTask ∈ _
      rw [hcur']; exact hcurAfter

/-- Freeing a task that has a successor leaves the successor's `prev` at the freed task. -/
theorem TaskListOk.last_of_free {s : TaskState} (h : TaskListOk s) {task : Nat}
    (hmem : task ∈ s.live)
    (h' : TaskListOk (s.after (.free task))) :
    s.live.getLast? = some task := by
  obtain ⟨xs, ys, hsplit⟩ := List.append_of_mem hmem
  cases ys with
  | nil => rw [hsplit, List.getLast?_append]; rfl
  | cons u ys =>
      exfalso
      have hnodup := h.nodup
      have htask : task ≠ 0 := h.linked.path.ne_null task hmem
      have hnext : s.list.nextOf task = u := (hsplit ▸ h.linked.path).next_mid
      have humem : u ∈ s.live := by rw [hsplit]; simp
      have hu : u ≠ 0 := h.linked.path.ne_null u humem
      have hprevu : s.list.prevOf u = task := by
        rw [← hnext]; exact h.linked.back task hmem (by rw [hnext]; exact hu)
      have hut : u ≠ task := by
        rw [hsplit] at hnodup
        intro he
        have := (List.nodup_append.mp hnodup).2.1
        rw [he] at this
        exact (List.nodup_cons.mp this).1 List.mem_cons_self
      have hprev' : (taskFree { s.list with touched := [] } task).prevOf u = task := by
        rw [taskFree_prevOf]; exact hprevu
      have humem' : u ∈ s.live.erase task := (List.mem_erase_of_ne hut).mpr humem
      -- in the new list `u` is the head or has a predecessor, and its `prev` is neither null nor live
      rcases h'.linked.path.pred u humem' with he | ⟨p, hpmem, hpu⟩
      · have hfirst := h'.linked.first (he ▸ hu)
        rw [← he] at hfirst
        exact htask (hprev'.symm.trans hfirst)
      · have hback := h'.linked.back p hpmem (by rw [hpu]; exact hu)
        rw [hpu] at hback
        have hpt : p = task := hback.symm.trans hprev'
        rw [hpt] at hpmem
        exact hnodup.not_mem_erase hpmem

/-- The task list at boot: no task. -/
def noTasks (task : Nat → Task) : TaskState where
  list := { task := task }

theorem noTasks_ok (task : Nat → Task) : TaskListOk (noTasks task) where
  linked := DLinked.nil
  nodup := List.nodup_nil
  tail := fun t ht => absurd ht (by simp [noTasks])
  currentZero := by simp [noTasks]
  currentLive := fun he => absurd rfl he
  wild := rfl

/-- **The task list is well kept throughout a history exactly when every freed task was the newest
    one.** -/
theorem taskHistory_ok_iff {task : Nat → Task} {tr : List (TaskState × TaskCall)} {s : TaskState}
    (htr : Trace TaskStep (noTasks task) tr s) :
    Throughout TaskListOk tr s ↔ ∀ q ∈ tr, q.2.Ok q.1 := by
  constructor
  · intro hsafe
    refine (Trace.guard_of_safe (fun _ _ _ _ _ => trivial) ?_ trivial htr hsafe).2
    intro s c s' _ hok hstep hok'
    cases hstep with
    | new => exact trivial
    | free _ hlive => exact hok.last_of_free hlive hok'
  · intro hg
    refine Trace.invariant ?_ (noTasks_ok task) htr hg
    intro s c s' hok hcall hstep
    cases hstep with
    | new _ _ _ _ hne hfresh => exact hok.new hne hfresh
    | free => exact hok.free hcall

/-- Three tasks, of which the newest is freed and then one in the middle. -/
theorem taskHistory_ok_iff_one : ∃ tr s, Trace TaskStep (noTasks fun _ => {}) tr s ∧
    tr.map Prod.snd = [.new 0x1000 0x2000 0x3000 0x400000#32, .new 0x5000 0x6000 0x7000 0x400000#32,
      .new 0x9000 0xA000 0xB000 0x400000#32, .free 0x9000, .free 0x5000] ∧
    (Throughout TaskListOk tr s ↔ ∀ q ∈ tr, q.2.Ok q.1) := by
  have htrace :=
    Trace.snoc (Trace.snoc (Trace.snoc (Trace.snoc (Trace.snoc (@Trace.nil _ _ TaskStep (noTasks fun _ => {}))
    (TaskStep.new 0x1000 0x2000 0x3000 0x400000#32 (by decide) (by decide)))
    (TaskStep.new 0x5000 0x6000 0x7000 0x400000#32 (by decide) (by decide)))
    (TaskStep.new 0x9000 0xA000 0xB000 0x400000#32 (by decide) (by decide)))
    (TaskStep.free 0x9000 (by decide))) (TaskStep.free 0x5000 (by decide))
  exact ⟨_, _, htrace, rfl, taskHistory_ok_iff htrace⟩

/-- Two tasks, the older one freed: the new head still shows the freed task as its predecessor. -/
theorem taskFree_head_keeps_prev :
    ¬ ∀ (task : Nat → Task) (tr : List (TaskState × TaskCall)) (s : TaskState),
      Trace TaskStep (noTasks task) tr s → Throughout TaskListOk tr s := by
  intro h
  have hrun := h (fun _ => {}) _ _
    (Trace.snoc (Trace.snoc (Trace.snoc Trace.nil
      (TaskStep.new 0x1000 0x2000 0x3000 0x400000#32 (by decide) (by decide)))
      (TaskStep.new 0x5000 0x6000 0x7000 0x400000#32 (by decide) (by decide)))
      (TaskStep.free 0x1000 (by decide)))
  have hfirst := hrun.2.linked.first (by decide)
  exact absurd hfirst (by decide)

end BimbleOS
