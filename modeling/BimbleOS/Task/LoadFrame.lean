import BimbleOS.Task.ProcessEnd
import BimbleOS.Task.ProgramPages
import BimbleOS.Task.TaskQueue

/-!
# `Task.LoadFrame` — what a load leaves alone

`process_load` works in blocks that were free. The structures of the other processes, the tasks in blocks that were
taken, and the page directories in pages that were taken are as before (`LoadFrame`), whether the load succeeds or not
(`LoadRun.keeps`).
-/

namespace BimbleOS

open Bytes CWord Exec

/-- Other process structures, tasks in taken blocks and directories in taken pages are as before. -/
structure LoadFrame (process : Nat) (k k' : Kernel) : Prop where
  others : ∀ q, q ≠ process → k'.process q = k.process q
  task : ∀ a, kfreeBlock a ∈ k.heap.taken → (k.tasks.task a).SameBut (k'.tasks.task a)
  pages : ∀ d, DirsOk k.pages (· = d) → k.pages.Within k.heap.takenPages d → SameDirs (· = d) k.pages k'.pages

/-- A heap on which the blocks of `B` are as in `heap₀`. -/
theorem keptReadyRule (B : Set Nat) (heap₀ : Heap) : ReadyRule (heap₀.Kept B) (Misses B) where
  toHeapRule := keptRule B heap₀
  ready := fun h => h.shields.ready

section Tasks

/-- Unlinking a task changes only where tasks are linked. -/
theorem taskFree_sameBut (l : TaskList) (t a : Nat) : (l.task a).SameBut ((taskFree l t).task a) := by
  obtain ⟨touched, heq, _⟩ := taskListRemove_eq (l.touch t) t
  unfold taskFree
  rw [heq]
  show (l.task a).SameBut ((unlinkNext ((l.touch t).touch t) t).task a)
  unfold unlinkNext
  split
  · exact TaskList.store_sameBut (l := (l.touch t).touch t) ⟨_, _, rfl⟩ a
  · exact Task.SameBut.refl _

/-- A new task somewhere else. -/
theorem taskNewLink_other {l : TaskList} {task a : Nat} {t : Task} (ha : a ≠ task) :
    (l.task a).SameBut ((taskNewLink (l.store task t) task).task a) := by
  have hstored : (l.store task t).task a = l.task a := Function.update_of_ne ha _ _
  have hlinked := taskNewLink_sameBut (l.store task t) task a
  rwa [hstored] at hlinked

end Tasks

/-- **A new directory, and a program that is mapped into it**, leave the directories in other pages alone. -/
theorem MadeDirectory.maps {used : Set Nat} {ds : Nat → Prop} {m : Mem} {s s₁ s₂ : PageStore} {d directory : Nat}
    {tables : List Nat} {p : Process} {res : Int} {Ok : Nat → Prop} (h : MadeDirectory Ok s s₁ d directory tables)
    (hmap : processMapMemory m s₁ d p = some (res, s₂)) (hused : ∀ b ∈ used, b % 4096 = 0)
    (hapart : ∀ b ∈ directory :: (tables ++ [d]), b ∉ used) (hok : DirsOk s ds)
    (hwithin : ∀ d', ds d' → s.Within used d') :
    DirsOk s₂ (fun d' => ds d' ∨ d' = d) ∧ ¬ ds d ∧ MapsThrough ds d s s₂ := by
  have hdmem : d ∈ directory :: (tables ++ [d]) :=
    List.mem_cons_of_mem _ (List.mem_append_right _ (List.mem_singleton.mpr rfl))
  have hnew : ¬ ds d := fun hd => hapart d hdmem (hwithin d hd).1
  have hold := fun d' (hd' : ds d') => h.spec.old h.own hused hapart (hwithin d' hd')
  have hdirs := h.spec.dirsOk h.length h.own hok hused hwithin hapart
  have hmade : MapsThrough ds d s s₁ := by
    refine ⟨⟨hdirs.mono fun _ => Or.inl, fun d' hd' => (hold d' hd').1, fun d' i hd' hi => ?_⟩,
      fun d' v hd' _ _ hlt => ?_⟩
    · rw [(hold d' hd').1]
      exact (hold d' hd').2.1 i hi
    · rw [(hold d' hd').1]
      exact (hold d' hd').2.2 v hlt
  have hmapped := processMapMemory_maps hdirs (Or.inr rfl) hmap
  exact ⟨hmapped.ok, hnew, hmade.trans ⟨hmapped.toSameDirs.mono fun _ => Or.inl,
    fun d' v hd' => hmapped.others d' v (Or.inl hd')⟩⟩

section Fill

variable {P : Heap → Prop} {Ok : Nat → Prop} {drive : Drive} {filename : List (BitVec 8)} {process slot : Nat}
  {k k₁ k' : Kernel} {res : Int}

/-- Filling the structure of `process`. -/
theorem FillOutcome.frame (h : FillOutcome P (Misses k.heap.taken) drive filename process slot k res k') :
    LoadFrame process k k' := by
  cases h with
  | early _ _ _ =>
      refine ⟨fun q hq => Function.update_of_ne hq _ _, fun a _ => Task.SameBut.refl _, fun d hok _ => ?_⟩
      exact SameDirs.refl hok
  | @mapped k₂ heap memory pages₀ pages p stack task d directory tables ip reads _ _ _ _ _ htask _ hmade hmap =>
      refine ⟨fun q hq => Function.update_of_ne hq _ _, fun a ha => ?_, fun d' hok hwithin => ?_⟩
      · apply taskNewLink_other
        rintro rfl
        exact htask ha
      · obtain ⟨_, _, hmaps⟩ := hmade.maps hmap (fun b hb => hb.1) (fun b hb hin => hmade.ok b hb hin.2) hok
          (fun x hx => hx ▸ hwithin)
        exact hmaps.toSameDirs

theorem FillOutcome.fields {P : Heap → Prop} {Ok : Nat → Prop}
    (h : FillOutcome P Ok drive filename process slot k res k') :
    k'.currentProcess = k.currentProcess ∧ P k'.heap := by
  cases h with
  | early _ hP _ => exact ⟨rfl, hP⟩
  | mapped _ _ _ _ _ _ hP _ _ => exact ⟨rfl, hP⟩

/-- **`task_free`** changes the heap and the task list. -/
theorem kernelTaskFree_frame {task : Nat} (hrun : Kernel.taskFree task k = .ok ((), k')) : ∃ heap, k' = { k with
    heap := heap
    tasks := taskFree k.tasks task } := by
  obtain ⟨_, k₁, hderef, hrest⟩ := bind_eq_ok.mp hrun
  obtain ⟨_, rfl⟩ := deref_run hderef
  rw [get_bind] at hrest
  obtain ⟨_, k₂, hpaging, hlast⟩ := bind_eq_ok.mp hrest
  have hkfree : ∀ ptr, Triple (fun k₃ : Kernel => ∃ heap, k₃ = { k₁ with heap := heap }) (kfree ptr)
      fun _ k₃ => ∃ heap, k₃ = { k₁ with heap := heap } := by
    intro ptr
    apply Triple.modify
    rintro _ ⟨heap, rfl⟩
    exact ⟨_, rfl⟩
  obtain ⟨heap, rfl⟩ := pagingFree_invariant hkfree k₁ () k₂ ⟨k₁.heap, rfl⟩ hpaging
  cases hlast
  exact ⟨_, rfl⟩

/-- Freeing the task of a load that failed. -/
theorem LoadFrame.taskFree {task : Nat} (h : LoadFrame process k k₁) (hrun : Kernel.taskFree task k₁ = .ok ((), k')) :
    LoadFrame process k k' := by
  obtain ⟨heap, rfl⟩ := kernelTaskFree_frame hrun
  exact ⟨h.others, fun a ha => (h.task a ha).trans (taskFree_sameBut k₁.tasks task a), h.pages⟩

/-- From an earlier state, with fewer taken blocks. -/
theorem LoadFrame.of_more (h : LoadFrame process k₁ k') (hprocess : ∀ q, q ≠ process → k₁.process q = k.process q)
    (htasks : k₁.tasks = k.tasks) (hpages : k₁.pages = k.pages) (htaken : k.heap.taken ⊆ k₁.heap.taken) :
    LoadFrame process k k' where
  others := fun q hq => (h.others q hq).trans (hprocess q hq)
  task := fun a ha => by
    rw [← htasks]
    exact h.task a (htaken ha)
  pages := fun d hok hwithin => by
    have hmore : ∀ a ∈ k.heap.takenPages, a ∈ k₁.heap.takenPages := fun a ha => ⟨ha.1, htaken ha.2⟩
    rw [← hpages] at hok hwithin ⊢
    exact h.pages d hok ⟨hmore _ hwithin.1, hmore _ hwithin.2.1, fun i hi => hmore _ (hwithin.2.2 i hi)⟩

end Fill

/-! ## Every run of `process_load` -/

/-- What a run of `process_load` has done. -/
inductive LoadRun (drive : Drive) (filename : List (BitVec 8)) (k : Kernel) : Int × Nat → Kernel → Prop where
  /-- There is no slot. -/
  | refused {r : Int × Nat} : r.1 < 0 → LoadRun drive filename k r k
  /-- There is no structure. -/
  | noMemory {r : Int × Nat} {k₁ : Kernel} : r.1 < 0 → kzalloc sizeofProcess k = .ok (0, k₁) →
      LoadRun drive filename k r k₁
  | failed {slot process : Nat} {k₁ k₂ k' : Kernel} {res : Int} : FirstSlot k slot →
      kzalloc sizeofProcess k = .ok (process, k₁) → process ≠ 0 →
      processFill drive filename process slot (k₁.setProcess process {}) = .ok (res, k₂) → res < 0 →
      (((k₂.process process).task = 0 ∧ k' = k₂) ∨ Kernel.taskFree (k₂.process process).task k₂ = .ok ((), k')) →
      LoadRun drive filename k (res, 0) k'
  | loaded {slot process : Nat} {k₁ k₂ : Kernel} : FirstSlot k slot →
      kzalloc sizeofProcess k = .ok (process, k₁) → process ≠ 0 →
      processFill drive filename process slot (k₁.setProcess process {}) = .ok (0, k₂) →
      LoadRun drive filename k (0, process) { k₂ with processes := Function.update k₂.processes slot process }

section Load

variable {P : Heap → Prop} {Ok : Nat → Prop} {drive : Drive} {filename : List (BitVec 8)} {process slot : Nat}
  {k k₁ k' : Kernel} {res : Int} {r : Int × Nat}

/-- Filling a structure returns 0 or an error. -/
theorem processFill_le (hready : k.heap.Ready) (hrun : processFill drive filename process slot k = .ok (res, k')) :
    res ≤ 0 := by
  cases processFill_run readyRule hready hrun with
  | early hneg => exact Int.le_of_lt hneg
  | mapped _ _ _ _ _ _ _ _ hmap => exact processMapMemory_le hmap

theorem processLoad_loadRun (hready : k.heap.Ready) (hrun : processLoad drive filename k = .ok (r, k')) :
    LoadRun drive filename k r k' := by
  rcases processLoad_cases hrun with
    ⟨_, rfl, rfl⟩ | ⟨slot, process, k₁, hfirst, halloc, ⟨rfl, rfl, rfl⟩ | ⟨hne, res, k₂, hfill, hexits⟩⟩
  · exact .refused (by decide)
  · exact .noMemory (by decide) halloc
  rcases hexits with ⟨hneg, rfl, hexit⟩ | ⟨hneg, rfl, rfl⟩
  · exact .failed hfirst halloc hne hfill hneg hexit
  · have hready₁ : (k₁.setProcess process {}).heap.Ready := by
      obtain ⟨_, _, rfl⟩ := kzalloc_run halloc
      exact (heapMalloc_ready hready).1
    have hle := processFill_le hready₁ hfill
    obtain rfl : res = 0 := by omega
    exact .loaded hfirst halloc hne hfill

/-- What any run of `process_load` keeps; `process` is the structure it has allocated. -/
structure LoadKeeps (process : Nat) (k k' : Kernel) : Prop extends LoadFrame process k k' where
  fresh : process = 0 ∨ kfreeBlock process ∉ k.heap.taken
  currentProcess : k'.currentProcess = k.currentProcess
  heap : ∀ (P : Heap → Prop) (Ok : Nat → Prop), ReadyRule P Ok → P k.heap → P k'.heap

theorem LoadKeeps.of_alloc {memory : Mem} (hclean : k.heap.Clean)
    (hk₁ : k₁ = { k with heap := (heapMalloc k.heap sizeofProcess).2, memory := memory })
    (hfresh : process = 0 ∨ kfreeBlock process ∉ k.heap.taken) (hframe : LoadFrame process (k₁.setProcess process {}) k')
    (hcurrent : k'.currentProcess = k₁.currentProcess)
    (hheap : ∀ (P : Heap → Prop) (Ok : Nat → Prop), ReadyRule P Ok → P k₁.heap → P k'.heap) :
    LoadKeeps process k k' := by
  subst hk₁
  refine ⟨?_, hfresh, hcurrent, fun P Ok hr hP => ?_⟩
  · apply hframe.of_more
    · exact fun q hq => Function.update_of_ne hq _ _
    · rfl
    · rfl
    · exact fun b hb => (hclean.ready.malloc_taken (by decide) hb).1
  · exact hheap P Ok hr (hr.malloc hP (by decide)).1

/-- **What a run of `process_load` keeps**, whether it succeeds or not. -/
theorem LoadRun.keeps (hclean : k.heap.Clean) (h : LoadRun drive filename k r k') :
    ∃ process, LoadKeeps process k k' ∧ ((r.1 < 0 ∧ k'.processes = k.processes) ∨ (process ≠ 0 ∧ r = (0, process))) := by
  cases h with
  | refused hneg =>
      refine ⟨0, ⟨⟨fun _ _ => rfl, fun a _ => Task.SameBut.refl _, fun d hok _ => SameDirs.refl hok⟩, Or.inl rfl, rfl,
        ?_⟩, Or.inl ⟨hneg, rfl⟩⟩
      exact fun P Ok hr hP => hP
  | noMemory hneg halloc =>
      obtain ⟨_, memory, rfl⟩ := kzalloc_run halloc
      refine ⟨0, ⟨⟨fun _ _ => rfl, fun a _ => Task.SameBut.refl _, fun d hok _ => SameDirs.refl hok⟩, Or.inl rfl, rfl,
        ?_⟩, Or.inl ⟨hneg, rfl⟩⟩
      exact fun P Ok hr hP => (hr.malloc hP (by decide)).1
  | @failed slot process k₁ k₂ _ res hfirst halloc hne hfill hneg hexit =>
      have hfresh := kzalloc_fresh hclean (by decide) (by decide) halloc hne
      obtain ⟨_, memory, hk₁⟩ := kzalloc_run halloc
      have hclean₁ : k₁.heap.Clean := kzalloc_clean hclean (by decide) halloc
      have houtcome :=
        processFill_run (shieldedRule k₁.heap.taken _) (k := k₁.setProcess process {}) hclean₁.shields hfill
      have hundone : ∀ (P : Heap → Prop) (Ok : Nat → Prop), ReadyRule P Ok → P k₁.heap → LoadUndone P Ok k₁ k' := by
        intro P Ok hr hP
        have houtcome := processFill_run hr (k := k₁.setProcess process {}) hP hfill
        exact FillOutcome.undone (r := (res, 0)) hr houtcome ⟨rfl, hexit⟩
      have hready := hundone _ _ readyRule hclean₁.ready
      have hframe : LoadFrame process (k₁.setProcess process {}) k' := by
        rcases hexit with ⟨_, rfl⟩ | hfree
        · exact houtcome.frame
        · exact houtcome.frame.taskFree hfree
      refine ⟨process, .of_alloc hclean hk₁ (Or.inr hfresh.2) hframe hready.currentProcess fun P Ok hr hP => ?_,
        Or.inl ⟨hneg, ?_⟩⟩
      · exact (hundone P Ok hr hP).heap
      · rw [hready.processes, hk₁]
  | @loaded slot process k₁ k₂ hfirst halloc hne hfill =>
      have hfresh := kzalloc_fresh hclean (by decide) (by decide) halloc hne
      obtain ⟨_, memory, hk₁⟩ := kzalloc_run halloc
      have hclean₁ : k₁.heap.Clean := kzalloc_clean hclean (by decide) halloc
      have houtcome :=
        processFill_run (shieldedRule k₁.heap.taken _) (k := k₁.setProcess process {}) hclean₁.shields hfill
      have hframe : LoadFrame process (k₁.setProcess process {}) k₂ := houtcome.frame
      have hcurrent := houtcome.fields.1
      refine ⟨process, .of_alloc hclean hk₁ (Or.inr hfresh.2) ⟨hframe.others, hframe.task, hframe.pages⟩ hcurrent
        fun P Ok hr hP => ?_, Or.inr ⟨hne, rfl⟩⟩
      exact (processFill_run hr (k := k₁.setProcess process {}) hP hfill).fields.2

end Load

end BimbleOS
