import BimbleOS.Fs.FileBlocks
import BimbleOS.Task.LoadRuns
import BimbleOS.Task.TaskQueue

/-!
# `Task.LoadFailure` — what a failed load leaves behind

A load that fails puts nothing into `processes[]`, and takes the task it has linked out of the list again
(`LoadUndone.kept`). Of the heap it gives back the task and its page directory only: below the comment
"Free the process data" in `process_load_for_slot` there is no code. So the process structure stays taken,
whatever fails behind it (`processLoad_unchanged_iff`).
-/

namespace BimbleOS

open Exec Links

/-- The same tasks in the same order, with the same contents. -/
structure TaskList.Same (l l' : TaskList) : Prop where
  taskHead : l'.taskHead = l.taskHead
  taskTail : l'.taskTail = l.taskTail
  currentTask : l'.currentTask = l.currentTask
  tasks : ∀ live, Path l.nextOf 0 l.taskHead live →
    Path l'.nextOf 0 l'.taskHead live ∧ ∀ t ∈ live, l'.task t = l.task t

theorem TaskList.Same.refl (l : TaskList) : l.Same l where
  taskHead := rfl
  taskTail := rfl
  currentTask := rfl
  tasks := fun _ hlive => ⟨hlive, fun _ _ => rfl⟩

/-- A task list whose tasks are `live`. -/
structure TaskList.Lists (l : TaskList) (live : List Nat) : Prop where
  path : Path l.nextOf 0 l.taskHead live
  tail : live.getLast? = some l.taskTail
  current : l.currentTask ∈ live

section Undone

variable {Ok : Nat → Prop} {P : Heap → Prop} {l l' : TaskList} {live : List Nat} {t : Nat} {s : Task}

theorem TaskList.Lists.tail_mem (h : l.Lists live) : l.taskTail ∈ live := List.mem_of_getLast? h.tail

theorem TaskList.Lists.tail_next (h : l.Lists live) : l.nextOf l.taskTail = 0 := by
  obtain ⟨xs, hlive⟩ := List.getLast?_eq_some_iff.mp h.tail
  have hpath := h.path
  rw [hlive] at hpath
  exact hpath.next_last

theorem TaskList.Lists.head_ne (h : l.Lists live) : l.taskHead ≠ 0 := by
  intro hzero
  have hmem := h.tail_mem
  cases live with
  | nil => exact absurd hmem List.not_mem_nil
  | cons x xs => exact h.path.2.1 (h.path.1.symm.trans hzero)

/-- The structures after `task_free`: the predecessor has a new successor. -/
theorem taskFree_task (l : TaskList) (t : Nat) (h : l.prevOf t ≠ 0) : (taskFree l t).task
    = Function.update l.task (l.prevOf t) { l.task (l.prevOf t) with next := l.nextOf t } := by
  obtain ⟨touched, heq, _⟩ := taskListRemove_eq (l.touch t) t
  unfold taskFree
  rw [heq]
  have hprev : ((l.touch t).touch t).prevOf t ≠ 0 := h
  show (unlinkNext ((l.touch t).touch t) t).task = _
  unfold unlinkNext
  rw [if_pos hprev]
  rfl

/-- The structures after a task was linked. -/
theorem taskNewLink_task (l : TaskList) (t : Nat) (h : l.taskHead ≠ 0) (ht : t ≠ l.taskTail) :
    (taskNewLink l t).task = Function.update (Function.update l.task l.taskTail { l.task l.taskTail with next := t }) t
      { l.task t with prev := l.taskTail } := by
  have hold : (l.store l.taskTail { l.task l.taskTail with next := t }).task t = l.task t := Function.update_of_ne ht ..
  unfold taskNewLink
  rw [if_neg h, ← hold]
  rfl

/-- **Linking a task and freeing it again** gives the list back. -/
theorem TaskList.Lists.undone (h : l.Lists live) (hfresh : t ∉ live) (hnext : s.next = 0) :
    l.Same (taskFree (taskNewLink (l.store t s) t) t) := by
  have htail : t ≠ l.taskTail := fun heq => hfresh (heq ▸ h.tail_mem)
  have hcurrent : t ≠ l.currentTask := fun heq => hfresh (heq ▸ h.current)
  have hne : l.taskTail ≠ 0 := h.path.ne_null _ h.tail_mem
  have hstored : (l.store t s).task t = s := Function.update_self ..
  obtain ⟨hhead₂, htail₂, hcurrent₂, _⟩ := taskNewLink_pointers (l := l.store t s) t h.head_ne
  have htask := taskNewLink_task (l.store t s) t h.head_ne htail
  obtain ⟨hhead₃, htail₃, hcurrent₃⟩ := taskFree_pointers (taskNewLink (l.store t s) t) t
  -- the new task is behind the tail, and nothing is behind it
  have hprev₂ : (taskNewLink (l.store t s) t).prevOf t = l.taskTail := by
    unfold TaskList.prevOf
    rw [htask, Function.update_self]
    rfl
  have hnext₂ : (taskNewLink (l.store t s) t).nextOf t = 0 := by
    unfold TaskList.nextOf
    rw [htask, Function.update_self]
    exact (congrArg Task.next hstored).trans hnext
  have hsame : ∀ a, a ≠ t → (taskFree (taskNewLink (l.store t s) t) t).task a = l.task a := by
    intro a ha
    have hold : ∀ b, b ≠ t → (l.store t s).task b = l.task b := fun b hb => Function.update_of_ne hb ..
    rw [taskFree_task _ _ (by rw [hprev₂]; exact hne), hprev₂, hnext₂, htask]
    by_cases hat : a = l.taskTail
    · subst hat
      have hlast : (l.task l.taskTail).next = 0 := h.tail_next
      rw [Function.update_self, Function.update_of_ne htail.symm]
      show { Function.update (l.store t s).task l.taskTail _ l.taskTail with next := 0 } = _
      rw [Function.update_self]
      show { (l.store t s).task l.taskTail with next := 0 } = _
      rw [hold _ htail.symm, ← hlast]
    · rw [Function.update_of_ne hat, Function.update_of_ne ha]
      show Function.update (l.store t s).task l.taskTail _ a = _
      rw [Function.update_of_ne hat, hold a ha]
  have hhead : (taskFree (taskNewLink (l.store t s) t) t).taskHead = l.taskHead := by
    have hnot : t ≠ (taskNewLink (l.store t s) t).taskHead := by
      rw [hhead₂]
      intro heq
      exact hfresh (heq ▸ h.path.head_mem.resolve_left h.head_ne)
    rw [hhead₃]
    unfold headAfter
    rw [if_neg hnot, hhead₂]
    rfl
  refine ⟨hhead, ?_, ?_, fun live' hlive' => ?_⟩
  · rw [htail₃, htail₂, if_pos rfl, hprev₂]
  · rw [hcurrent₃]
    unfold currentAfter
    rw [hcurrent₂]
    exact if_neg hcurrent
  · obtain rfl : live' = live := hlive'.unique h.path
    have htasks : ∀ a ∈ live', (taskFree (taskNewLink (l.store t s) t) t).task a = l.task a :=
      fun a ha => hsame a fun heq => hfresh (heq ▸ ha)
    refine ⟨?_, htasks⟩
    rw [hhead]
    exact hlive'.congr fun a ha => congrArg Task.next (htasks a ha)

theorem TasksUndone.restores (h : TasksUndone Ok l l') (hlive : l.Lists live) (hok : ∀ t ∈ live, ¬ Ok t) :
    l.Same l' := by
  cases h with
  | same => exact TaskList.Same.refl l
  | undone _ htask hnext _ => exact hlive.undone (fun hmem => hok _ hmem htask) hnext

end Undone

/-! ## The state that a failed call owes -/

/-- The state is as before the call. -/
structure Kernel.Unchanged (k k' : Kernel) : Prop where
  processes : k'.processes = k.processes
  tasks : k.tasks.Same k'.tasks
  currentProcess : k'.currentProcess = k.currentProcess
  fileDescriptors : k'.fileDescriptors = k.fileDescriptors
  taken : k'.heap.taken = k.heap.taken

theorem Kernel.Unchanged.refl (k : Kernel) : k.Unchanged k := ⟨rfl, .refl _, rfl, rfl, rfl⟩

section Load

variable {drive : Drive} {filename : List (BitVec 8)} {k k' : Kernel} {res : Int} {process : Nat}

/-- Behind the slot and the process structure, every failure leaves a block taken. -/
theorem processLoad_leaks (hclean : k.heap.Clean) (hrun : processLoad drive filename k = .ok ((res, process), k'))
    (hneg : res < 0) (hslots : ¬ SlotsFull k) (hmemory : (heapMalloc k.heap sizeofProcess).1 ≠ 0) :
    ∃ b, b ∉ k.heap.taken ∧ b ∈ k'.heap.taken := by
  rcases processLoad_run hrun with ⟨hfull, _⟩ | ⟨slot, _, ptr, k₁, halloc, ⟨hnull, _⟩ | ⟨hne, hfilled⟩⟩
  · exact absurd hfull hslots
  · exact absurd ((kzalloc_run halloc).1.symm.trans hnull) hmemory
  obtain ⟨hclean₁, b, hfree, htaken⟩ := kzalloc_taken hclean (by decide) (by decide) halloc hne
  -- the blocks of the structure are a shield of the rest of the run
  cases hfilled _ _ (shieldedRule k₁.heap.taken _) hclean₁.shields with
  | failed _ hundone => exact ⟨b, hfree, hundone.heap.taken htaken⟩
  | loaded _ => exact absurd hneg (by decide)

/-- **A failed load leaves the state as it was** exactly when it fails before it has a process structure:
    when all slots are taken, or the heap has no room for the structure. -/
theorem processLoad_unchanged_iff (hclean : k.heap.Clean)
    (hrun : processLoad drive filename k = .ok ((res, process), k'))
    (hneg : res < 0) : k.Unchanged k' ↔ SlotsFull k ∨ (heapMalloc k.heap sizeofProcess).1 = 0 := by
  constructor
  · intro hsame
    by_contra hneither
    obtain ⟨hslots, hmemory⟩ := not_or.mp hneither
    obtain ⟨b, hfree, hleft⟩ := processLoad_leaks hclean hrun hneg hslots hmemory
    rw [hsame.taken] at hleft
    exact hfree hleft
  · intro hearly
    rcases processLoad_run hrun with ⟨_, _, rfl⟩ | ⟨slot, hfirst, ptr, k₁, halloc, hcase⟩
    · exact Kernel.Unchanged.refl _
    have hslots : ¬ SlotsFull k := fun hfull => hfull slot hfirst.lt hfirst.free
    have hmemory := hearly.resolve_left hslots
    rcases hcase with ⟨_, _, rfl⟩ | ⟨hne, _⟩
    · rw [kzalloc_eq, if_pos hmemory] at halloc
      cases halloc
      rcases heapMalloc_answer hclean.ready with ⟨heq, _⟩ | ⟨s, heq, _⟩
      · rw [heq]
        exact Kernel.Unchanged.refl _
      · rw [heq] at hmemory
        have hstart : 0 < bimbleosHeapAddress := by decide
        simp only at hmemory
        omega
    · exact absurd ((kzalloc_run halloc).1.trans hmemory) hne

/-- A path that is refused costs the record of the ELF file. -/
theorem elfLoad_rejected {record : Nat} {k₁ : Kernel} (h : PathRejected filename)
    (halloc : kzalloc sizeofElfFile k = .ok (record, k₁)) : elfLoad drive filename k = .ok ((- EIO, 0), k₁) := by
  have hclose : fclose 0 k₁ = .ok (- EIO, k₁) := rfl
  unfold elfLoad
  rw [bind_of_ok halloc, bind_of_ok (fopen_rejected h), if_pos (Int.le_refl 0), bind_of_ok hclose]
  rfl

/-- A load whose data cannot be had. -/
theorem processLoad_of_data {slot : Nat} {k₁ k₂ : Kernel} (hfirst : FirstSlot k slot)
    (halloc : kzalloc sizeofProcess k = .ok (process, k₁)) (hne : process ≠ 0)
    (hdata : processLoadData drive filename process (k₁.setProcess process {}) = .ok (res, k₂)) (hneg : res < 0)
    (htask : (k₂.process process).task = 0) : processLoad drive filename k = .ok ((res, 0), k₂) := by
  have hfill : processFill drive filename process slot (k₁.setProcess process {}) = .ok (res, k₂) := by
    unfold processFill
    rw [bind_of_ok hdata, if_pos hneg]
    rfl
  rw [processLoad_filling hfirst halloc hne hfill, if_pos hneg]
  show (if (k₂.process process).task ≠ 0 then (Kernel.taskFree (k₂.process process).task >>= fun _ => pure (res, 0))
    else pure (res, 0) : KM (Int × Nat)) k₂ = _
  rw [if_neg (not_not_intro htask)]
  rfl

/-- **A load with a path that is refused** leaves a process structure that was cleared. -/
theorem processLoad_rejected {slot n : Nat} (hpath : PathRejected filename) (hfirst : FirstSlot k slot)
    (hroom : k.heap.TailRoom (n + 1 + heapBlocks sizeofProcess)) : ∃ process k₁ k',
      kzalloc sizeofProcess k = .ok (process, k₁) ∧ process ≠ 0 ∧
      processLoad drive filename k = .ok ((- EIO, 0), k') ∧ k'.process process = {} ∧ k'.processes = k.processes := by
  obtain ⟨process, k₁, halloc, hne, hroom₁, _⟩ := @kzalloc_tail (n + 1) sizeofProcess (by decide) k
    ⟨hroom, fun hzero => absurd hzero (by decide)⟩
  obtain ⟨record, k₂, hrecord, _⟩ := @kzalloc_small n sizeofElfFile (by decide) (by decide)
    (k₁.setProcess process {}) hroom₁
  have hload : processLoadElf drive filename process (k₁.setProcess process {}) = .ok (- EIO, k₂) := by
    unfold processLoadElf
    rw [bind_of_ok (elfLoad_rejected hpath hrecord)]
    rfl
  have hdata : processLoadData drive filename process (k₁.setProcess process {}) = .ok (- EIO, k₂) := by
    unfold processLoadData
    rw [bind_of_ok hload]
    rfl
  have hcleared : k₂.process process = {} := by
    obtain ⟨_, memory, hk₂⟩ := kzalloc_run hrecord
    have hself : (k₁.setProcess process {}).process process = {} := Function.update_self ..
    rw [hk₂]
    exact hself
  have hprocesses : k₂.processes = k.processes := by
    obtain ⟨_, _, rfl⟩ := kzalloc_run hrecord
    obtain ⟨_, _, rfl⟩ := kzalloc_run halloc
    rfl
  refine ⟨process, k₁, k₂, halloc, hne, processLoad_of_data hfirst halloc hne hdata (by decide) ?_, hcleared, hprocesses⟩
  rw [hcleared]

end Load

/-- The command without a path. -/
theorem bootKernel_fails : ∃ k', processLoad splitDrive [] bootKernel = .ok ((- EIO, 0), k') ∧ ¬ SlotsFull bootKernel ∧
    (heapMalloc bootKernel.heap sizeofProcess).1 ≠ 0 := by
  have hfirst : FirstSlot bootKernel 0 := ⟨by decide, rfl, fun j hj => absurd hj (Nat.not_lt_zero j)⟩
  have hblocks : 0 + 1 + heapBlocks sizeofProcess < 25600 := by decide
  obtain ⟨process, k₁, k', halloc, hne, hrun, _⟩ := @processLoad_rejected splitDrive [] bootKernel 0 0
    (Or.inr (by decide)) hfirst (bootKernel_tailRoom hblocks)
  refine ⟨k', hrun, fun hfull => hfull 0 hfirst.lt hfirst.free, ?_⟩
  rw [← (kzalloc_run halloc).1]
  exact hne

theorem processLoad_unchanged_iff_boot : ∃ k', processLoad splitDrive [] bootKernel = .ok ((- EIO, 0), k') ∧
    (bootKernel.Unchanged k' ↔ SlotsFull bootKernel ∨ (heapMalloc bootKernel.heap sizeofProcess).1 = 0) := by
  obtain ⟨k', hrun, _⟩ := bootKernel_fails
  exact ⟨k', hrun, processLoad_unchanged_iff bootKernel_clean hrun (by decide)⟩

/-- A load that fails costs at least the process structure. -/
theorem processLoad_failed_keeps_blocks : ¬ ∀ (drive : Drive) (filename : List (BitVec 8)) (k k' : Kernel) (res : Int)
    (process : Nat), k.heap.Clean → processLoad drive filename k = .ok ((res, process), k') → res < 0 →
    k.Unchanged k' := by
  intro h
  obtain ⟨k', hrun, hslots, hmemory⟩ := bootKernel_fails
  obtain ⟨b, hfree, hleft⟩ := processLoad_leaks bootKernel_clean hrun (by decide) hslots hmemory
  rw [(h _ _ _ _ _ _ bootKernel_clean hrun (by decide)).taken] at hleft
  exact hfree hleft

end BimbleOS
