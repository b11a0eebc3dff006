import BimbleOS.Task.ProcessBlocks

/-!
# `Task.ProcessEnd` — what `process_terminate` does

The end of a process goes through when there is another process to switch to (`processTerminate_ok`). Step by step it
frees the allocations, the program, the stack, the task with its page directory, and unlinks the process
(`processTerminate_run`); where the program may be given back, it keeps what the clients of the heap keep
(`Owns.terminated`).
-/

namespace BimbleOS

open Bytes CWord Exec

/-! ## It goes through -/

/-- A process that can be terminated while another one is left to switch to. -/
structure Kernel.CanTerminate (k : Kernel) (process : Nat) : Prop where
  process_ne : process ≠ 0
  task_ne : (k.process process).task ≠ 0
  directory_ne : (k.tasks.task (k.process process).task).pageDirectory ≠ 0
  filetype : (k.process process).filetype = processFiletypeBinary ∨ (k.process process).filetype = processFiletypeElf
  id_lt : (k.process process).id < bimbleosMaxProcesses
  other : ∃ i, i < bimbleosMaxProcesses ∧ i ≠ (k.process process).id ∧ k.processes i ≠ 0

/-- Up to the removal of its task, only the allocations of a process change, and memory. -/
structure Kernel.Terminating (k₀ : Kernel) (process : Nat) (k : Kernel) : Prop where
  tasks : k.tasks = k₀.tasks
  processes : k.processes = k₀.processes
  process : ∃ allocations, k.process process = { k₀.process process with allocations := allocations }

section Terminate

variable {k₀ k : Kernel} {process ptr left i d : Nat}

theorem Kernel.Terminating.refl (k : Kernel) (process : Nat) : k.Terminating process k :=
  ⟨rfl, rfl, _, rfl⟩

theorem Kernel.Terminating.kfree (h : k₀.Terminating process k) (ptr : Nat) :
    k₀.Terminating process { k with heap := heapFree k.heap ptr } :=
  ⟨h.tasks, h.processes, h.process⟩

theorem Kernel.Terminating.canTerminate (h : k₀.Terminating process k) (hends : k₀.CanTerminate process) :
    k.CanTerminate process := by
  obtain ⟨allocations, hprocess⟩ := h.process
  refine ⟨hends.process_ne, ?_, ?_, ?_, ?_, ?_⟩
  · rw [hprocess]
    exact hends.task_ne
  · rw [hprocess, h.tasks]
    exact hends.directory_ne
  · rw [hprocess]
    exact hends.filetype
  · rw [hprocess]
    exact hends.id_lt
  · rw [hprocess, h.processes]
    exact hends.other

theorem processFree_total (htask : (k₀.process process).task ≠ 0) :
    Total (k₀.Terminating process) (processFree process ptr) fun _ => k₀.Terminating process := by
  intro k h
  unfold processFree
  rw [get_bind]
  cases processGetAllocationByAddr (k.process process) ptr with
  | none => exact ⟨(), k, rfl, h⟩
  | some allocation =>
      obtain ⟨allocations, hprocess⟩ := h.process
      have hne : (k.process process).task ≠ 0 := by
        rw [hprocess]
        exact htask
      have hdirectory := processPageDirectory_eq process k
      rw [if_neg hne] at hdirectory
      dsimp only
      rw [bind_of_ok hdirectory, bind_of_ok (kernelMapTo_eq ..)]
      split
      · exact ⟨(), _, rfl, h.tasks, h.processes, allocations, hprocess⟩
      · refine ⟨(), _, rfl, h.tasks, h.processes, ?_⟩
        refine ⟨(processAllocationUnjoin (k.process process) ptr).allocations, ?_⟩
        show Function.update k.process process (processAllocationUnjoin (k.process process) ptr) process = _
        rw [Function.update_self, hprocess]
        rfl

theorem processTerminateLoop_total (htask : (k₀.process process).task ≠ 0) :
    Total (k₀.Terminating process) (processTerminateLoop process left i) fun _ => k₀.Terminating process := by
  induction left generalizing i with
  | zero => exact Total.pure fun k h => h
  | succ left ih =>
      unfold processTerminateLoop
      refine Total.get_bind ?_
      intro k h
      refine Total.bind (R := fun _ => k₀.Terminating process) ?_ fun _ => ih
      rintro _ rfl
      exact processFree_total htask _ h

/-- The program's memory is freed whatever is in it. -/
theorem processFreeProgramData_total (hfile : (k₀.process process).filetype = processFiletypeBinary ∨
      (k₀.process process).filetype = processFiletypeElf) :
    Total (k₀.Terminating process) (processFreeProgramData process) fun res k => res = 0 ∧ k₀.Terminating process k := by
  intro k h
  obtain ⟨allocations, hprocess⟩ := h.process
  have hsame : (k.process process).filetype = (k₀.process process).filetype := by rw [hprocess]
  unfold processFreeProgramData
  rw [get_bind, hsame]
  rcases hfile with hbinary | helf
  · rw [if_pos hbinary]
    exact ⟨0, _, rfl, rfl, h.tasks, h.processes, h.process⟩
  · rw [if_neg (by rw [helf]; decide), if_pos helf]
    unfold processFreeElfData elfClose
    rw [bind_of_ok (show readUnion process .elfFile k = .ok ((k.process process).image, _) from rfl)]
    by_cases hnull : (k.process process).image = 0
    · rw [if_pos hnull]
      exact ⟨0, _, rfl, rfl, h.tasks, h.processes, h.process⟩
    · rw [if_neg hnull]
      exact ⟨0, _, rfl, rfl, h.tasks, h.processes, h.process⟩

theorem pagingFreeLoop_heap : ∃ heap, pagingFreeLoop d left i k = .ok ((), { k with heap := heap }) := by
  induction left generalizing k i with
  | zero => exact ⟨k.heap, rfl⟩
  | succ left ih =>
      unfold pagingFreeLoop
      rw [get_bind, bind_of_ok (show kfree _ k = .ok ((), _) from rfl)]
      exact ih

theorem pagingFree_heap (hd : d ≠ 0) : ∃ heap, pagingFree d k = .ok ((), { k with heap := heap }) := by
  obtain ⟨heap, hloop⟩ := @pagingFreeLoop_heap k 1024 0 d
  unfold pagingFree
  rw [bind_of_ok (deref_of_ne hd), bind_of_ok hloop]
  exact ⟨_, rfl⟩

theorem Kernel.taskFree_run {task : Nat} (htask : task ≠ 0) (hd : (k.tasks.task task).pageDirectory ≠ 0) :
    ∃ heap, Kernel.taskFree task k = .ok ((), { k with heap := heap, tasks := BimbleOS.taskFree k.tasks task }) := by
  obtain ⟨heap, hfree⟩ := @pagingFree_heap k _ hd
  unfold Kernel.taskFree
  rw [bind_of_ok (deref_of_ne htask), get_bind, bind_of_ok hfree]
  exact ⟨_, rfl⟩

theorem processSwitchToAny_run (h : ∃ i, i < bimbleosMaxProcesses ∧ k.processes i ≠ 0) :
    ∃ k', processSwitchToAny k = .ok ((), k') ∧ k'.tasks = k.tasks := by
  obtain ⟨i, hi, hlive⟩ := h
  unfold processSwitchToAny
  rw [get_bind]
  cases hfind : (List.range bimbleosMaxProcesses).find? fun i => decide (k.processes i ≠ 0) with
  | none =>
      have hnone := List.find?_eq_none.mp hfind i (List.mem_range.mpr hi)
      exact absurd (decide_eq_true hlive) hnone
  | some j => exact ⟨_, rfl, rfl⟩

theorem processUnlink_run (hid : (k.process process).id < bimbleosMaxProcesses)
    (h : ∃ i, i < bimbleosMaxProcesses ∧ i ≠ (k.process process).id ∧ k.processes i ≠ 0) :
    ∃ k', processUnlink process k = .ok ((), k') ∧ k'.tasks = k.tasks := by
  unfold processUnlink
  rw [get_bind, if_neg (Nat.not_le.mpr hid), modify_bind, get_bind]
  dsimp only
  split
  · apply processSwitchToAny_run
    obtain ⟨i, hi, hother, hlive⟩ := h
    refine ⟨i, hi, ?_⟩
    dsimp only
    rwa [Function.update_of_ne hother]
  · exact ⟨_, rfl, rfl⟩

/-- **`process_terminate`** returns, with the task of the process removed from the list. -/
theorem processTerminate_ok (h : k.CanTerminate process) : ∃ k', processTerminate process k = .ok (0, k') ∧
    k'.tasks = BimbleOS.taskFree k.tasks (k.process process).task := by
  obtain ⟨_, k₁, hloop, h₁⟩ := @processTerminateLoop_total k process bimbleosMaxProgramAllocations 0 h.task_ne k
    (.refl k process)
  obtain ⟨res, k₂, hdata, rfl, h₂⟩ := processFreeProgramData_total h.filetype k₁ h₁
  obtain ⟨k₃, hk₃⟩ : ∃ k₃ : Kernel, k₃ = { k₂ with heap := heapFree k₂.heap (k₂.process process).stack } := ⟨_, rfl⟩
  have h₃ : k.Terminating process k₃ := hk₃ ▸ h₂.kfree _
  obtain ⟨allocations, hprocess⟩ := h₃.process
  have htask : (k₃.process process).task = (k.process process).task := by rw [hprocess]
  have hid : (k₃.process process).id = (k.process process).id := by rw [hprocess]
  obtain ⟨heap, hfree⟩ := @Kernel.taskFree_run k₃ (k₃.process process).task (by rw [htask]; exact h.task_ne)
    (by rw [htask, h₃.tasks]; exact h.directory_ne)
  obtain ⟨k', hunlink, htasks⟩ := @processUnlink_run
    { k₃ with heap := heap, tasks := BimbleOS.taskFree k₃.tasks (k₃.process process).task } process
    (hid ▸ h.id_lt) (by
      obtain ⟨i, hi, hother, hlive⟩ := h.other
      exact ⟨i, hi, hid ▸ hother, h₃.processes ▸ hlive⟩)
  refine ⟨k', ?_, ?_⟩
  · have hloops : processTerminateAllocations process k = .ok (0, k₁) := by
      unfold processTerminateAllocations
      rw [bind_of_ok hloop]
      rfl
    unfold processTerminate
    rw [bind_of_ok (deref_of_ne h.process_ne), bind_of_ok hloops, if_neg (by decide), bind_of_ok hdata,
      if_neg (by decide), get_bind, bind_of_ok (show kfree _ k₂ = .ok ((), k₃) from hk₃ ▸ rfl), get_bind,
      bind_of_ok hfree, bind_of_ok hunlink]
    rfl
  · rw [htasks, h₃.tasks, htask]

end Terminate

/-! ## What it keeps -/

section End

variable {P : Heap → Prop} {Ok : Nat → Prop} {process image b : Nat} {k k' : Kernel}

/-- **A run of `process_terminate`** that succeeds, step by step. -/
theorem processTerminate_run (hrun : processTerminate process k = .ok (0, k')) : ∃ k₁ k₂ k₃,
    processTerminateAllocations process k = .ok (0, k₁) ∧ processFreeProgramData process k₁ = .ok (0, k₂) ∧
    Kernel.taskFree (k₂.process process).task { k₂ with heap := heapFree k₂.heap (k₂.process process).stack }
      = .ok ((), k₃) ∧ processUnlink process k₃ = .ok ((), k') := by
  obtain ⟨_, k₀, hderef, hrest⟩ := bind_eq_ok.mp hrun
  obtain ⟨_, rfl⟩ := deref_run hderef
  obtain ⟨res, k₁, hloop, hrest⟩ := bind_eq_ok.mp hrest
  have hzero : res = 0 := by
    obtain ⟨_, _, _, hdone⟩ := bind_eq_ok.mp hloop
    cases hdone
    rfl
  subst hzero
  rw [if_neg (Int.lt_irrefl 0)] at hrest
  obtain ⟨res, k₂, hdata, hrest⟩ := bind_eq_ok.mp hrest
  by_cases hneg : res < 0
  · rw [if_pos hneg] at hrest
    cases hrest
    exact absurd hneg (by decide)
  rw [if_neg hneg, get_bind] at hrest
  obtain ⟨_, k₃, hstack, hrest⟩ := bind_eq_ok.mp hrest
  cases hstack
  rw [get_bind] at hrest
  obtain ⟨_, k₄, htask, hrest⟩ := bind_eq_ok.mp hrest
  obtain ⟨_, k₅, hunlink, hdone⟩ := bind_eq_ok.mp hrest
  cases hdone
  exact ⟨k₁, k₂, k₄, hloop, hdata, htask, hunlink⟩

/-- What `process_free_program_data` gives back. The image of a raw program is tagged as the record of an ELF file. -/
def Kernel.programPointers (k : Kernel) (process : Nat) : List Nat :=
  if (k.process process).filetype = processFiletypeBinary then [(k.process process).image]
  else if (k.process process).image = 0 then []
  else [elfMemory k.memory (k.process process).image, (k.process process).image]

theorem processFreeProgramData_pointers {res : Int} (hrun : processFreeProgramData process k = .ok (res, k')) :
    (res < 0 ∧ k' = k) ∨ (res = 0 ∧ ∃ reads, k' = { k with
      heap := k.heap.freeAll (k.programPointers process)
      unionReads := reads }) := by
  unfold processFreeProgramData at hrun
  unfold Kernel.programPointers
  rw [get_bind] at hrun
  by_cases hbinary : (k.process process).filetype = processFiletypeBinary
  · rw [if_pos hbinary] at hrun ⊢
    obtain ⟨_, k₁, hread, hfree⟩ := bind_eq_ok.mp hrun
    cases hread
    obtain ⟨_, k₂, hkfree, hdone⟩ := bind_eq_ok.mp hfree
    cases hkfree
    cases hdone
    exact Or.inr ⟨rfl, _, rfl⟩
  rw [if_neg hbinary] at hrun ⊢
  by_cases helf : (k.process process).filetype = processFiletypeElf
  · rw [if_pos helf] at hrun
    obtain ⟨image, k₁, hread, hclose⟩ := bind_eq_ok.mp hrun
    cases hread
    obtain ⟨_, k₂, hclosed, hdone⟩ := bind_eq_ok.mp hclose
    cases hdone
    unfold elfClose at hclosed
    by_cases hnull : (k.process process).image = 0
    · rw [if_pos hnull] at hclosed ⊢
      cases hclosed
      exact Or.inr ⟨rfl, _, rfl⟩
    · rw [if_neg hnull] at hclosed ⊢
      cases hclosed
      exact Or.inr ⟨rfl, _, rfl⟩
  · rw [if_neg helf] at hrun
    cases hrun
    exact Or.inl ⟨by decide, rfl⟩

/-- The image, and what is in its record. -/
theorem Kernel.mem_programPointers {ptr : Nat} (h : ptr ∈ k.programPointers process) :
    ptr = (k.process process).image ∨ ptr = elfMemory k.memory (k.process process).image := by
  unfold Kernel.programPointers at h
  split at h
  · exact Or.inl (List.mem_singleton.mp h)
  split at h
  · exact absurd h List.not_mem_nil
  rcases List.mem_cons.mp h with rfl | h
  · exact Or.inr rfl
  · exact Or.inl (List.mem_singleton.mp h)

theorem processTerminateLoop_owns (hr : ReadyRule P Ok) {left i : Nat} (hi : i + left ≤ bimbleosMaxProgramAllocations) :
    Triple (Owns P Ok process image) (processTerminateLoop process left i) fun _ => Owns P Ok process image := by
  induction left generalizing i with
  | zero => exact Triple.pure fun _ hk => hk
  | succ left ih =>
      unfold processTerminateLoop
      refine Triple.get_bind fun k₁ h₁ => Triple.pre (P := Owns P Ok process image) (fun k hk => hk ▸ h₁) ?_
      exact Triple.bind (processFree_owns hr) fun _ => ih (by omega)

theorem processTerminateAllocations_owns (hr : ReadyRule P Ok) :
    Triple (Owns P Ok process image) (processTerminateAllocations process) fun _ => Owns P Ok process image :=
  Triple.bind (processTerminateLoop_owns hr (by decide)) fun _ => Triple.pure fun _ hk => hk

/-- Unlinking a process empties its slot, and switches away from it. -/
theorem processUnlink_frame (hrun : processUnlink process k = .ok ((), k')) : ∃ current, k' = { k with
      processes := Function.update k.processes (k.process process).id 0
      currentProcess := current } ∧
    ((current = k.currentProcess ∧ current ≠ process) ∨ k'.Live current) := by
  unfold processUnlink at hrun
  rw [get_bind] at hrun
  split at hrun
  · cases hrun
  rw [modify_bind, get_bind] at hrun
  by_cases hcurrent : k.currentProcess = process
  · rw [if_pos hcurrent] at hrun
    unfold processSwitchToAny at hrun
    rw [get_bind] at hrun
    cases hfind : (List.range bimbleosMaxProcesses).find? fun i =>
        decide (Function.update k.processes (k.process process).id 0 i ≠ 0) with
    | none =>
        simp only [hfind] at hrun
        cases hrun
    | some j =>
        simp only [hfind] at hrun
        cases hrun
        obtain ⟨hlive, hmem, _⟩ := List.find?_range_eq_some.mp hfind
        exact ⟨_, rfl, Or.inr ⟨of_decide_eq_true hlive, j, List.mem_range.mp hmem, rfl⟩⟩
  · rw [if_neg hcurrent] at hrun
    cases hrun
    exact ⟨k.currentProcess, rfl, Or.inl ⟨rfl, hcurrent⟩⟩

theorem processUnlink_heap (hrun : processUnlink process k = .ok ((), k')) : k'.heap = k.heap := by
  obtain ⟨_, rfl, _⟩ := processUnlink_frame hrun
  rfl

/-- **The end of a process keeps** what the clients of the heap keep, once its program is freed. -/
theorem Owns.terminated (hr : ReadyRule P Ok) (h : Owns P Ok process image k) {k₁ : Kernel}
    (hfree : Kernel.taskFree (k.process process).task { k with heap := heapFree k.heap (k.process process).stack }
      = .ok ((), k₁)) (hunlink : processUnlink process k₁ = .ok ((), k')) : P k'.heap := by
  have hP := hr.free h.heap h.stack
  obtain ⟨heap, memory, hP', rfl⟩ :=
    taskFree_run hr.toHeapRule (k := { k with heap := heapFree k.heap (k.process process).stack })
    hP rfl h.pages h.task hfree
  rw [processUnlink_heap hunlink]
  exact hP'

/-- A fact that every `kfree` keeps, `paging_free` keeps. -/
theorem pagingFree_invariant {I : Kernel → Prop} {d : Nat} (hkfree : ∀ ptr, Triple I (kfree ptr) fun _ => I) :
    Triple I (pagingFree d) fun _ => I := by
  have hloop : ∀ left i, Triple I (pagingFreeLoop d left i) fun _ => I := by
    intro left
    induction left with
    | zero => exact fun i => Triple.pure fun _ hk => hk
    | succ left ih =>
        intro i
        rw [pagingFreeLoop]
        refine Triple.get_bind fun k₁ hk₁ => Triple.pre (P := I) (fun k hk => hk ▸ hk₁) ?_
        exact Triple.bind (hkfree _) fun _ => ih (i + 1)
  unfold pagingFree
  refine Triple.bind deref_keeps fun _ => Triple.const fun _ => Triple.bind (hloop 1024 0) fun _ => ?_
  refine Triple.get_bind fun k₁ hk₁ => Triple.pre (P := I) (fun k hk => hk ▸ hk₁) ?_
  exact Triple.bind (hkfree _) fun _ => hkfree _

/-- What every `kfree` keeps, the end of a process keeps, once its program is freed. -/
theorem terminated_invariant {I : Heap → Prop} (hI : ∀ heap ptr, I heap → I (heapFree heap ptr)) (hk : I k.heap)
    {k₁ : Kernel} (hfree : Kernel.taskFree (k.process process).task
      { k with heap := heapFree k.heap (k.process process).stack } = .ok ((), k₁))
    (hunlink : processUnlink process k₁ = .ok ((), k')) : I k'.heap := by
  have hkfree : ∀ ptr, Triple (fun k : Kernel => I k.heap) (kfree ptr) fun _ k => I k.heap :=
    fun ptr => Triple.modify fun k hk => hI _ ptr hk
  have htask : ∀ task, Triple (fun k : Kernel => I k.heap) (Kernel.taskFree task) fun _ k => I k.heap := by
    intro task
    refine Triple.bind deref_keeps fun _ => Triple.const fun _ => ?_
    refine Triple.get_bind fun k₂ h₂ => Triple.pre (P := fun k : Kernel => I k.heap) (fun k hk => hk ▸ h₂) ?_
    refine Triple.bind (pagingFree_invariant hkfree) fun _ => ?_
    exact Triple.bind (Triple.modify fun _ hk => hk) fun _ => hkfree task
  rw [processUnlink_heap hunlink]
  exact htask _ _ _ _ (hI _ _ hk) hfree

/-- A block that is free stays free. -/
theorem terminated_free (hready : k.heap.Ready) (hb : b ∉ k.heap.taken) {k₁ : Kernel}
    (hfree : Kernel.taskFree (k.process process).task { k with heap := heapFree k.heap (k.process process).stack }
      = .ok ((), k₁)) (hunlink : processUnlink process k₁ = .ok ((), k')) : b ∉ k'.heap.taken := by
  have hI : ∀ (heap : Heap) (ptr : Nat), heap.Ready ∧ b ∉ heap.taken →
      (heapFree heap ptr).Ready ∧ b ∉ (heapFree heap ptr).taken :=
    fun heap ptr h => ⟨h.1.free, fun hin => h.2 (h.1.taken_free ptr hin)⟩
  exact (terminated_invariant (I := fun heap => heap.Ready ∧ b ∉ heap.taken) hI ⟨hready, hb⟩ hfree hunlink).2

end End

end BimbleOS
