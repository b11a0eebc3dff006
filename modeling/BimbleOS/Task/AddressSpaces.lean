import BimbleOS.Isr80h.CopyString
import BimbleOS.Task.ProcessSlots
import BimbleOS.Task.StartedPrograms

/-!
# `Task.AddressSpaces` — one page directory each

The kernel and every process have a page directory of their own. Loading a program makes a new one, and
`process_malloc`, `process_free`, `process_inject_arguments` and `process_terminate` map through the directory of the
process they are called for; `copy_string_from_task` puts back what it has mapped. So in every run of these the
directory of the kernel stays as it was made, and what a process sees is changed by its own calls only
(`addressSpaces_kept`), as long as no call gives back a block of another address space.
-/

namespace BimbleOS

open Bytes CWord Exec Transition

/-! ## Page tables that are kept -/

/-- No directory of `ds` maps anything else. -/
structure SpacesKept (ds : Nat → Prop) (s s' : PageStore) : Prop extends SameDirs ds s s' where
  entry : ∀ d v, ds d → IsPage v → s'.pageEntry (s'.directory d) v = s.pageEntry (s.directory d) v

section Kept

variable {ds : Nat → Prop} {s s' : PageStore} {d : Nat}

theorem SpacesKept.refl (h : DirsOk s ds) : SpacesKept ds s s := ⟨SameDirs.refl h, fun _ _ _ _ => rfl⟩

/-- The same words. -/
theorem SpacesKept.of_word (h : DirsOk s ds) (hword : s'.word = s.word) : SpacesKept ds s s' := by
  obtain ⟨word, mapped⟩ := s
  obtain ⟨word', mapped'⟩ := s'
  cases hword
  exact ⟨⟨⟨h.aligned, h.tables, h.apart⟩, fun _ _ => rfl, fun _ _ _ _ => rfl⟩, fun _ _ _ _ => rfl⟩

theorem MapsThrough.kept (h : MapsThrough ds d s s') (hd : ¬ ds d) : SpacesKept ds s s' where
  toSameDirs := h.toSameDirs
  entry := fun d' v hd' hv => h.others d' v hd' (fun heq => hd (heq ▸ hd')) hv.1 hv.2

/-- A directory whose tables are the same is in the same pages. -/
theorem SameDirs.within {used used' : Set Nat} (h : SameDirs ds s s') (hd : ds d) (hin : s.Within used d)
    (hused : used ⊆ used') : s'.Within used' d := by
  obtain ⟨hself, hdirectory, htables⟩ := hin
  refine ⟨hused hself, ?_, fun i hi => ?_⟩
  · rw [h.directory d hd]
    exact hused hdirectory
  · rw [h.table d i hd hi]
    exact hused (htables i hi)

end Kept

/-! ## The address spaces -/

/-- A page directory of the kernel, at `d₀`, or of a process. -/
def Kernel.IsSpace (k : Kernel) (d₀ d : Nat) : Prop := d = d₀ ∨ k.IsDirectory d

/-- The pages in the blocks of `B`. -/
def pagesIn (B : Set Nat) : Set Nat := { a | a % 4096 = 0 ∧ kfreeBlock a ∈ B }

/-- The directory of the kernel is in blocks of `B`; so are, for each process of `P`, its structure, its task and its
    directory. -/
structure SpacesIn (d₀ : Nat) (P : Nat → Prop) (B : Set Nat) (k : Kernel) : Prop where
  kernel : k.pages.Within (pagesIn B) d₀
  pages : ∀ q, k.Live q → P q → k.pages.Within (pagesIn B) (k.directoryOf q)
  process : ∀ q, k.Live q → P q → kfreeBlock q ∈ B
  task : ∀ q, k.Live q → P q → kfreeBlock (k.process q).task ∈ B

/-- The kernel and the processes have address spaces of their own, in blocks that are taken. -/
structure AddressSpaces (d₀ : Nat) (k : Kernel) : Prop where
  heap : k.heap.Clean
  dirs : DirsOk k.pages (k.IsSpace d₀)
  alone : ∀ p q, k.Live p → k.Live q → k.directoryOf p = k.directoryOf q → p = q
  kernel : ∀ q, k.Live q → k.directoryOf q ≠ d₀
  slots : ∀ i, i < bimbleosMaxProcesses → k.processes i ≠ 0 → (k.process (k.processes i)).id = i
  filetype : ∀ q, k.Live q →
    (k.process q).filetype = processFiletypeBinary ∨ (k.process q).filetype = processFiletypeElf
  pointers : ∀ q i, k.Live q → i < bimbleosMaxProgramAllocations → ((k.process q).allocations i).ptr < 4294967296
  taken : SpacesIn d₀ (fun _ => True) k.heap.taken k

/-- A call for the process `p` has mapped through the directory of `p`, has changed its allocations and its arguments,
    and has changed no other process. -/
structure OwnCall (ds : Nat → Prop) (p : Nat) (k k' : Kernel) : Prop where
  maps : MapsThrough ds (k.directoryOf p) k.pages k'.pages
  tasks : ∀ a, (k.tasks.task a).SameBut (k'.tasks.task a)
  others : ∀ q, q ≠ p → k'.process q = k.process q
  process : ∃ allocations argc argv,
    k'.process p = { k.process p with allocations := allocations, argc := argc, argv := argv }
  clean : k'.heap.Clean
  pointers : ∀ i, i < bimbleosMaxProgramAllocations → ((k'.process p).allocations i).ptr < 4294967296
  slots : ∀ i, k'.processes i = k.processes i ∨ (k'.processes i = 0 ∧ i = (k.process p).id)

section Own

variable {ds : Nat → Prop} {k k₁ k' : Kernel} {p q d₀ size ptr left i : Nat} {res : Int} {m : Mem} {B B' : Set Nat}
  {P P' : Nat → Prop}

theorem OwnCall.same (h : OwnCall ds p k k') (q : Nat) : ∃ allocations argc argv,
    k'.process q = { k.process q with allocations := allocations, argc := argc, argv := argv } := by
  by_cases hq : q = p
  · rw [hq]
    exact h.process
  · exact ⟨(k.process q).allocations, (k.process q).argc, (k.process q).argv, h.others q hq⟩

theorem OwnCall.sameTask (h : OwnCall ds p k k') (q : Nat) : (k'.process q).task = (k.process q).task := by
  obtain ⟨_, _, _, hsame⟩ := h.same q
  rw [hsame]

theorem OwnCall.directoryOf (h : OwnCall ds p k k') (q : Nat) : k'.directoryOf q = k.directoryOf q := by
  obtain ⟨next, prev, hsame⟩ := h.tasks (k.process q).task
  unfold Kernel.directoryOf
  rw [h.sameTask, hsame]

/-- No process comes into being. -/
theorem OwnCall.live (h : OwnCall ds p k k') (hq : k'.Live q) : k.Live q := by
  obtain ⟨hne, i, hi, hslot⟩ := hq
  rcases h.slots i with hsame | ⟨hzero, _⟩
  · exact ⟨hne, i, hi, hsame ▸ hslot⟩
  · exact absurd (hslot.symm.trans hzero) hne

theorem OwnCall.space (h : OwnCall ds p k k') {d : Nat} (hd : k'.IsSpace d₀ d) : k.IsSpace d₀ d := by
  rcases hd with rfl | ⟨q, hq, rfl⟩
  · exact Or.inl rfl
  · exact Or.inr ⟨q, h.live hq, (h.directoryOf q).symm⟩

/-- The address spaces of the processes that are left are where they were. -/
theorem SpacesIn.own (h : SpacesIn d₀ P B k) (hcall : OwnCall (k.IsSpace d₀) p k k') (hB : B ⊆ B')
    (hP : ∀ q, k'.Live q → P' q → P q) : SpacesIn d₀ P' B' k' := by
  have hpages : pagesIn B ⊆ pagesIn B' := fun a ha => ⟨ha.1, hB ha.2⟩
  refine ⟨?_, fun q hq hPq => ?_, fun q hq hPq => hB (h.process q (hcall.live hq) (hP q hq hPq)), fun q hq hPq => ?_⟩
  · exact hcall.maps.within (Or.inl rfl) h.kernel hpages
  · rw [hcall.directoryOf]
    have hold := hcall.live hq
    exact hcall.maps.within (Or.inr ⟨q, hold, rfl⟩) (h.pages q hold (hP q hq hPq)) hpages
  · rw [hcall.sameTask]
    exact hB (h.task q (hcall.live hq) (hP q hq hPq))

/-- **One call for a process** keeps the address spaces apart. -/
theorem AddressSpaces.own (h : AddressSpaces d₀ k) (hcall : OwnCall (k.IsSpace d₀) p k k')
    (htaken : SpacesIn d₀ (fun _ => True) k'.heap.taken k') : AddressSpaces d₀ k' := by
  refine ⟨hcall.clean, hcall.maps.ok.mono fun _ => hcall.space, fun q q' hq hq' heq => ?_, fun q hq => ?_,
    fun i hi hne => ?_, fun q hq => ?_, fun q i hq hi => ?_, htaken⟩
  · rw [hcall.directoryOf, hcall.directoryOf] at heq
    exact h.alone q q' (hcall.live hq) (hcall.live hq') heq
  · rw [hcall.directoryOf]
    exact h.kernel q (hcall.live hq)
  · rcases hcall.slots i with hsame | ⟨hzero, _⟩
    · rw [hsame] at hne ⊢
      obtain ⟨_, _, _, hprocess⟩ := hcall.same (k.processes i)
      rw [hprocess]
      exact h.slots i hi hne
    · exact absurd hzero hne
  · obtain ⟨_, _, _, hprocess⟩ := hcall.same q
    rw [hprocess]
    exact h.filetype q (hcall.live hq)
  · by_cases hqp : q = p
    · rw [hqp]
      exact hcall.pointers i hi
    · rw [hcall.others q hqp]
      exact h.pointers q i (hcall.live hq) hi

/-- The others are still there. -/
theorem OwnCall.stays (hcall : OwnCall ds p k k') (h : AddressSpaces d₀ k) (hp : k.Live p) (hq : k.Live q)
    (hne : q ≠ p) : k'.Live q := by
  obtain ⟨hq₀, i, hi, rfl⟩ := hq
  obtain ⟨hp₀, j, hj, rfl⟩ := hp
  rcases hcall.slots i with hsame | ⟨_, hid⟩
  · exact ⟨hq₀, i, hi, hsame⟩
  · have hslot := h.slots j hj hp₀
    exact absurd (congrArg k.processes (hid.trans hslot)) hne

theorem OwnCall.refl (h : AddressSpaces d₀ k) (hp : k.Live p) : OwnCall (k.IsSpace d₀) p k k where
  maps := MapsThrough.refl h.dirs
  tasks := fun _ => Task.SameBut.refl _
  others := fun _ _ => rfl
  process := ⟨_, _, _, rfl⟩
  clean := h.heap
  pointers := fun i hi => h.pointers p i hp hi
  slots := fun _ => Or.inl rfl

/-- The heap and the bytes in memory. -/
theorem OwnCall.setHeap (h : OwnCall ds p k k₁) {heap : Heap} {memory : Mem} (hclean : heap.Clean) :
    OwnCall ds p k { k₁ with heap := heap, memory := memory } :=
  ⟨h.maps, h.tasks, h.others, h.process, hclean, h.pointers, h.slots⟩

/-- Other allocations, and other arguments. -/
theorem OwnCall.setFields (h : OwnCall ds p k k₁) {allocations : Nat → ProcessAllocation} {argc argv : Nat}
    (hpointers : ∀ i, i < bimbleosMaxProgramAllocations → (allocations i).ptr < 4294967296) :
    OwnCall ds p k (k₁.setProcess p
      { k₁.process p with allocations := allocations, argc := argc, argv := argv }) := by
  have hself : ∀ process, (k₁.setProcess p process).process p = process := fun _ => Function.update_self ..
  obtain ⟨_, _, _, hprocess⟩ := h.process
  refine ⟨h.maps, h.tasks, fun q hq => ?_, ⟨allocations, argc, argv, ?_⟩, h.clean, fun i hi => ?_, h.slots⟩
  · exact (Function.update_of_ne hq _ _).trans (h.others q hq)
  · rw [hself, hprocess]
  · rw [hself]
    exact hpointers i hi

/-- Mapping through the directory of the process. -/
theorem OwnCall.setPages (h : OwnCall ds p k k₁) (hd : ds (k.directoryOf p)) {virt phys physEnd : Nat}
    {flags : BitVec 32} {pages : PageStore} (hvirt : virt < 4294967296)
    (hmap : pagingMapTo k₁.pages (k₁.directoryOf p) virt phys physEnd flags = (res, pages)) :
    OwnCall ds p k { k₁ with pages := pages } := by
  rw [h.directoryOf] at hmap
  have hmapped : MapsThrough ds (k.directoryOf p) k₁.pages
      (pagingMapTo k₁.pages (k.directoryOf p) virt phys physEnd flags).2 := MapsThrough.mapTo h.maps.ok hd hvirt
  rw [hmap] at hmapped
  exact ⟨h.maps.trans hmapped, h.tasks, h.others, h.process, h.clean, h.pointers, h.slots⟩

theorem OwnCall.malloc (h : OwnCall ds p k k₁) (hd : ds (k.directoryOf p)) (hsize : size < 4294967296)
    (hrun : processMalloc p size k₁ = .ok (ptr, k')) : OwnCall ds p k k' := by
  have hclean := ((injectedMallocRule cleanReadyRule hsize).processMalloc k₁ ptr k' (Injected.refl h.clean) hrun).2.1
  cases processMalloc_mallocRun h.clean.ready hrun with
  | refused => exact h.setHeap hclean
  | mapped _ _ _ hptr _ _ hmap =>
      refine ((h.setPages hd hptr hmap).setHeap hclean).setFields fun i hi => ?_
      rw [Function.update_apply]
      split
      · exact hptr
      · exact h.pointers i hi

theorem OwnCall.free (h : OwnCall ds p k k₁) (hd : ds (k.directoryOf p)) (hrun : processFree p ptr k₁ = .ok ((), k')) :
    OwnCall ds p k k' := by
  cases processFree_freeRun h.pointers hrun with
  | ignored => exact h
  | @unmapped i a pages hi ha hmap =>
      have hptr : a.ptr < 4294967296 := ha ▸ h.pointers i hi
      have hclean : (heapFree k₁.heap ptr).Clean := cleanRule.free h.clean True.intro
      refine ((h.setPages hd hptr hmap).setHeap hclean).setFields fun j hj => ?_
      split
      · exact Nat.zero_lt_of_lt (show 0 < 4294967296 by decide)
      · exact h.pointers j hj

/-- What a call of `process_free` may change in the heap. -/
theorem processFree_shields (h : OwnCall ds p k k₁) (hshields : k₁.heap.Shields B ∅) (hptr : Misses B ptr)
    (hrun : processFree p ptr k₁ = .ok ((), k')) : k'.heap.Shields B ∅ := by
  cases processFree_freeRun h.pointers hrun with
  | ignored => exact hshields
  | unmapped _ _ _ => exact (shieldRule B ∅).free hshields hptr

theorem processFree_memory (h : OwnCall ds p k k₁) (hrun : processFree p ptr k₁ = .ok ((), k')) :
    k'.memory = k₁.memory := by
  cases processFree_freeRun h.pointers hrun with
  | ignored => rfl
  | unmapped _ _ _ => rfl

theorem ownCallRule (hd : ds (k.directoryOf p)) : ArgumentRule (OwnCall ds p k) p where
  malloc := fun _ hsize _ _ _ h hrun => h.malloc hd hsize hrun
  memory := fun _ _ h => h.setHeap h.clean
  arguments := fun _ _ _ h => h.setFields h.pointers

theorem processTerminateLoop_own (hd : ds (k.directoryOf p)) :
    Triple (fun k₁ => OwnCall ds p k k₁ ∧ k₁.memory = m) (processTerminateLoop p left i)
      fun _ k₁ => OwnCall ds p k k₁ ∧ k₁.memory = m := by
  induction left generalizing i with
  | zero => exact Triple.pure fun _ h => h
  | succ left ih =>
      unfold processTerminateLoop
      refine Triple.get_bind fun k₁ h₁ => Triple.pre (P := fun k₁ => OwnCall ds p k k₁ ∧ k₁.memory = m)
        (fun _ hk => hk ▸ h₁) ?_
      refine Triple.bind (fun k₂ _ k₃ h₂ hrun => ?_) fun _ => ih
      exact ⟨h₂.1.free hd hrun, (processFree_memory h₂.1 hrun).trans h₂.2⟩

/-- Unlinking the process, at the end. -/
theorem OwnCall.unlink (h : OwnCall ds p k k₁) (hrun : processUnlink p k₁ = .ok ((), k')) :
    OwnCall ds p k k' ∧ k'.processes (k.process p).id = 0 := by
  have hid : (k₁.process p).id = (k.process p).id := by
    obtain ⟨_, _, _, hprocess⟩ := h.process
    rw [hprocess]
  obtain ⟨current, rfl, _⟩ := processUnlink_frame hrun
  rw [hid]
  refine ⟨⟨h.maps, h.tasks, h.others, h.process, h.clean, h.pointers, fun i => ?_⟩, Function.update_self ..⟩
  by_cases hi : i = (k.process p).id
  · rw [hi]
    exact Or.inr ⟨Function.update_self .., rfl⟩
  · exact (h.slots i).imp (fun hsame => (Function.update_of_ne hi _ _).trans hsame) fun hzero =>
      ⟨(Function.update_of_ne hi _ _).trans hzero.1, hzero.2⟩

/-- What the end of `p` gives back lies outside `B`. -/
structure Kernel.EndsOutside (k : Kernel) (B : Set Nat) (p : Nat) : Prop where
  owns : Owns (Heap.Shields B ∅) (Misses B) p (k.process p).image k
  program : ∀ ptr ∈ k.programPointers p, Misses B ptr

/-- **The end of a process.** -/
theorem OwnCall.terminate (h : OwnCall ds p k k) (hd : ds (k.directoryOf p)) (hends : k.EndsOutside B p)
    (hrun : processTerminate p k = .ok (0, k')) :
    OwnCall ds p k k' ∧ k'.processes (k.process p).id = 0 ∧ k'.heap.Shields B ∅ := by
  obtain ⟨k₁, k₂, k₃, hloop, hdata, htask, hunlink⟩ := processTerminate_run hrun
  have howns : Owns (Heap.Shields B ∅) (Misses B) p (k.process p).image k₁ :=
    processTerminateAllocations_owns (shieldedRule B ∅) k 0 k₁ hends.owns hloop
  obtain ⟨h₁, hmemory⟩ : OwnCall ds p k k₁ ∧ k₁.memory = k.memory := by
    obtain ⟨_, _, hfrees, hdone⟩ := bind_eq_ok.mp hloop
    cases hdone
    exact processTerminateLoop_own hd k () k₁ ⟨h, rfl⟩ hfrees
  have hpointers : k₁.programPointers p = k.programPointers p := by
    obtain ⟨_, _, _, hprocess⟩ := h₁.process
    unfold Kernel.programPointers
    rw [hprocess, hmemory]
  rcases processFreeProgramData_pointers hdata with ⟨hneg, _⟩ | ⟨_, reads, rfl⟩
  · exact absurd hneg (Int.lt_irrefl 0)
  rw [hpointers] at htask
  have hclean := h₁.clean.freeAll (k.programPointers p)
  have hshields := (shieldRule B ∅).freeAll howns.heap hends.program
  have howns₂ : Owns (Heap.Shields B ∅) (Misses B) p (k.process p).image
      { k₁ with heap := k₁.heap.freeAll (k.programPointers p), unionReads := reads } :=
    howns.change hshields rfl (SameDirs.refl howns.dirs) howns.image rfl rfl howns.slots
  have hshields' := howns₂.terminated (shieldedRule B ∅) htask hunlink
  have hclean' := terminated_invariant (k := { k₁ with
    heap := k₁.heap.freeAll (k.programPointers p)
    unionReads := reads }) (fun _ _ hI => cleanRule.free hI True.intro) hclean htask hunlink
  have h₃ : OwnCall ds p k k₃ := by
    rw [processUnlink_heap hunlink] at hclean'
    obtain ⟨heap, rfl⟩ := kernelTaskFree_frame htask
    exact ⟨h₁.maps, fun a => (h₁.tasks a).trans (taskFree_sameBut _ _ _), h₁.others, h₁.process, hclean', h₁.pointers,
      h₁.slots⟩
  obtain ⟨h', hzero⟩ := h₃.unlink hunlink
  exact ⟨h', hzero, hshields'⟩

end Own

/-! ## Loading a program -/

section Load

variable {P : Heap → Prop} {ds : Nat → Prop} {drive : Drive} {filename : List (BitVec 8)} {k k' : Kernel}
  {process slot d₀ d : Nat} {res : Int} {r : Int × Nat} {m : Mem} {s s' : PageStore} {p : Process}

/-- Only a program of a known type is mapped. -/
theorem processMapMemory_filetype (hmap : processMapMemory m s d p = some (res, s')) :
    p.filetype = processFiletypeBinary ∨ p.filetype = processFiletypeElf := by
  obtain ⟨mapped, hmapped, _⟩ := Option.map_eq_some_iff.mp hmap
  split at hmapped
  · next helf => exact Or.inr helf
  · split at hmapped
    · next hbinary => exact Or.inl hbinary
    · cases hmapped

/-- **Filling a process structure** makes one new address space at most. -/
theorem FillOutcome.spaces (h : FillOutcome P (Misses k.heap.taken) drive filename process slot k res k')
    (hok : DirsOk k.pages ds) (hwithin : ∀ d, ds d → k.pages.Within (pagesIn k.heap.taken) d) :
    SpacesKept ds k.pages k'.pages ∧ (res = 0 → ¬ ds (k'.directoryOf process) ∧
      DirsOk k'.pages fun d => ds d ∨ d = k'.directoryOf process) := by
  cases h with
  | early hneg _ _ => exact ⟨SpacesKept.refl hok, fun hzero => absurd hzero (Int.ne_of_lt hneg)⟩
  | @mapped k₂ heap memory pages₀ pages p stack task d directory tables ip reads _ hp _ _ _ _ _ hmade hmap =>
      obtain ⟨hdirs, hnew, hmaps⟩ :=
        hmade.maps hmap (fun b hb => hb.1) (fun b hb hin => hmade.ok b hb hin.2) hok hwithin
      have hself : Function.update k.process process p process = p := Function.update_self ..
      have htask : p.task = task := by rw [hp]; rfl
      have hd : ((taskNewLink (k.tasks.store task (taskInit process d ip)) task).task p.task).pageDirectory = d := by
        rw [htask, taskNewLink_pageDirectory]
        exact congrArg Task.pageDirectory (show Function.update k.tasks.task task (taskInit process d ip) task = _ from
          Function.update_self ..)
      refine ⟨hmaps.kept hnew, fun _ => ?_⟩
      unfold Kernel.directoryOf
      simp only [hself, hd]
      exact ⟨hnew, hdirs⟩

/-- **A run of `process_load`** makes one new address space at most. -/
theorem LoadRun.spaces (h : LoadRun drive filename k r k') (hclean : k.heap.Clean) (hok : DirsOk k.pages ds)
    (hwithin : ∀ d, ds d → k.pages.Within (pagesIn k.heap.taken) d) :
    SpacesKept ds k.pages k'.pages ∧ (r.1 = 0 → ¬ ds (k'.directoryOf r.2) ∧
      DirsOk k'.pages fun d => ds d ∨ d = k'.directoryOf r.2) := by
  -- filling starts once the structure is allocated, with the page tables that were there
  have hfilled : ∀ {process slot res k₁ k₂}, kzalloc sizeofProcess k = .ok (process, k₁) →
      processFill drive filename process slot (k₁.setProcess process {}) = .ok (res, k₂) →
      SpacesKept ds k.pages k₂.pages ∧ (res = 0 → ¬ ds (k₂.directoryOf process) ∧
        DirsOk k₂.pages fun d => ds d ∨ d = k₂.directoryOf process) := by
    intro process slot res k₁ k₂ halloc hfill
    have hclean₁ : k₁.heap.Clean := kzalloc_clean hclean (by decide) halloc
    obtain ⟨_, memory, hk₁⟩ := kzalloc_run halloc
    have hpages : k₁.pages = k.pages := by rw [hk₁]
    have htaken : k.heap.taken ⊆ k₁.heap.taken := by
      rw [hk₁]
      exact fun b hb => (hclean.ready.malloc_taken (by decide) hb).1
    have hfill' := processFill_run (shieldedRule k₁.heap.taken _) (k := k₁.setProcess process {}) hclean₁.shields hfill
    have hspaces := FillOutcome.spaces (k := k₁.setProcess process {}) hfill'
      (show DirsOk k₁.pages ds from hpages ▸ hok) fun d hd => show k₁.pages.Within (pagesIn k₁.heap.taken) d from
        hpages ▸ (SameDirs.refl hok).within hd (hwithin d hd) fun a ha => ⟨ha.1, htaken ha.2⟩
    rwa [show (k₁.setProcess process {}).pages = k.pages from hpages] at hspaces
  cases h with
  | refused hneg => exact ⟨SpacesKept.refl hok, fun hzero => absurd hzero (Int.ne_of_lt hneg)⟩
  | noMemory hneg halloc =>
      obtain ⟨_, memory, rfl⟩ := kzalloc_run halloc
      exact ⟨SpacesKept.refl hok, fun hzero => absurd hzero (Int.ne_of_lt hneg)⟩
  | failed _ halloc _ hfill hneg hexit =>
      refine ⟨?_, fun hzero => absurd hzero (Int.ne_of_lt hneg)⟩
      rcases hexit with ⟨_, rfl⟩ | hfree
      · exact (hfilled halloc hfill).1
      · obtain ⟨heap, rfl⟩ := kernelTaskFree_frame hfree
        exact (hfilled halloc hfill).1
  | loaded _ halloc _ hfill =>
      obtain ⟨hkept, hnew⟩ := hfilled halloc hfill
      exact ⟨hkept, hnew⟩

theorem AddressSpaces.within (h : AddressSpaces d₀ k) (hd : k.IsSpace d₀ d) :
    k.pages.Within (pagesIn k.heap.taken) d := by
  rcases hd with rfl | ⟨q, hq, rfl⟩
  · exact h.taken.kernel
  · exact h.taken.pages q hq True.intro

/-- What a call leaves of the address spaces that were there, if it changes none of them. -/
structure OldSpaces (d₀ : Nat) (k k' : Kernel) : Prop where
  clean : k'.heap.Clean
  taken : k.heap.taken ⊆ k'.heap.taken
  kept : SpacesKept (k.IsSpace d₀) k.pages k'.pages
  process : ∀ q, k.Live q → k'.process q = k.process q
  directory : ∀ q, k.Live q → k'.directoryOf q = k.directoryOf q

theorem AddressSpaces.oldSpaces (h : AddressSpaces d₀ k) (hrun : processLoad drive filename k = .ok (r, k')) :
    OldSpaces d₀ k k' := by
  have hload := processLoad_loadRun h.heap.ready hrun
  obtain ⟨ptr, hkeeps, _⟩ := hload.keeps h.heap
  have hprocess : ∀ q, k.Live q → k'.process q = k.process q := by
    intro q hq
    refine hkeeps.others q ?_
    rintro rfl
    exact (hkeeps.fresh.resolve_left hq.1) (h.taken.process q hq True.intro)
  refine ⟨hkeeps.heap _ _ cleanReadyRule h.heap, ?_, ?_, hprocess, fun q hq => ?_⟩
  · exact (hkeeps.heap _ _ (keptReadyRule k.heap.taken k.heap) h.heap.shields.kept).shields.taken
  · exact (hload.spaces h.heap h.dirs fun d hd => h.within hd).1
  · obtain ⟨next, prev, hsame⟩ := hkeeps.task _ (h.taken.task q hq True.intro)
    unfold Kernel.directoryOf
    rw [hprocess q hq, hsame]

/-- The pages are where they were. -/
theorem OldSpaces.within (hl : OldSpaces d₀ k k') (h : AddressSpaces d₀ k) (hd : k.IsSpace d₀ d) :
    k'.pages.Within (pagesIn k'.heap.taken) d :=
  hl.kept.within hd (h.within hd) fun _ ha => ⟨ha.1, hl.taken ha.2⟩

theorem OldSpaces.space (hl : OldSpaces d₀ k k') (hq : k.Live process) : k.IsSpace d₀ (k'.directoryOf process) :=
  Or.inr ⟨process, hq, (hl.directory process hq).symm⟩

/-- No process is new, and none is gone. -/
theorem OldSpaces.sameSlots (hl : OldSpaces d₀ k k') (h : AddressSpaces d₀ k) (hslots : k'.processes = k.processes) :
    AddressSpaces d₀ k' := by
  have hlive : ∀ q, k'.Live q → k.Live q := by
    unfold Kernel.Live
    rw [hslots]
    exact fun q hq => hq
  have hspace : ∀ d, k'.IsSpace d₀ d → k.IsSpace d₀ d := by
    rintro d (rfl | ⟨q, hq, rfl⟩)
    · exact Or.inl rfl
    · exact hl.space (hlive q hq)
  refine ⟨hl.clean, hl.kept.ok.mono hspace, fun p q hp hq heq => ?_, fun q hq => ?_, fun i hi hne => ?_, fun q hq => ?_,
    fun q i hq hi => ?_, hl.within h (Or.inl rfl), fun q hq _ => hl.within h (hl.space (hlive q hq)),
    fun q hq _ => hl.taken (h.taken.process q (hlive q hq) True.intro), fun q hq _ => ?_⟩
  · rw [hl.directory p (hlive p hp), hl.directory q (hlive q hq)] at heq
    exact h.alone p q (hlive p hp) (hlive q hq) heq
  · rw [hl.directory q (hlive q hq)]
    exact h.kernel q (hlive q hq)
  · rw [hslots] at hne ⊢
    rw [hl.process _ (Kernel.live_of_slot hi hne)]
    exact h.slots i hi hne
  · rw [hl.process q (hlive q hq)]
    exact h.filetype q (hlive q hq)
  · rw [hl.process q (hlive q hq)]
    exact h.pointers q i (hlive q hq) hi
  · rw [hl.process q (hlive q hq)]
    exact hl.taken (h.taken.task q (hlive q hq) True.intro)

/-- A program was loaded: its process has a new address space. -/
theorem OldSpaces.loaded (hl : OldSpaces d₀ k k') (h : AddressSpaces d₀ k) (hne : process ≠ 0)
    (hrun : processLoad drive filename k = .ok ((0, process), k')) : AddressSpaces d₀ k' := by
  obtain ⟨slot, hfirst, hplaced, hprocesses⟩ := processLoad_placed h.heap.ready hrun
  have hown := processLoad_ownBlocks h.heap hrun
  obtain ⟨hother, hdirs⟩ := ((processLoad_loadRun h.heap.ready hrun).spaces h.heap h.dirs fun d hd => h.within hd).2 rfl
  have hlive : ∀ q, k'.Live q → k.Live q ∨ q = process := fun q => (live_update hfirst hne q hprocesses).mp
  have hspace : ∀ d, k'.IsSpace d₀ d → k.IsSpace d₀ d ∨ d = k'.directoryOf process := by
    rintro d (rfl | ⟨q, hq, rfl⟩)
    · exact Or.inl (Or.inl rfl)
    · rcases hlive q hq with hq | rfl
      · exact Or.inl (hl.space hq)
      · exact Or.inr rfl
  have hapart : ∀ q, k.Live q → k'.directoryOf q ≠ k'.directoryOf process :=
    fun q hq heq => hother (heq ▸ hl.space hq)
  refine ⟨hl.clean, hdirs.mono hspace, fun p q hp hq heq => ?_, fun q hq => ?_, fun i hi hused => ?_, fun q hq => ?_,
    fun q i hq hi => ?_, hl.within h (Or.inl rfl), fun q hq _ => ?_, fun q hq _ => ?_, fun q hq _ => ?_⟩
  · rcases hlive p hp with hp | rfl
    · rcases hlive q hq with hq | rfl
      · rw [hl.directory p hp, hl.directory q hq] at heq
        exact h.alone p q hp hq heq
      · exact absurd heq (hapart p hp)
    · rcases hlive q hq with hq | rfl
      · exact absurd heq.symm (hapart q hq)
      · rfl
  · rcases hlive q hq with hq | rfl
    · rw [hl.directory q hq]
      exact h.kernel q hq
    · exact fun heq => hother (Or.inl heq)
  · by_cases his : i = slot
    · rw [his, hprocesses, Function.update_self]
      exact hplaced.id
    · have hsame : k'.processes i = k.processes i := by rw [hprocesses, Function.update_of_ne his]
      rw [hsame] at hused ⊢
      rw [hl.process _ (Kernel.live_of_slot hi hused)]
      exact h.slots i hi hused
  · rcases hlive q hq with hq | rfl
    · rw [hl.process q hq]
      exact h.filetype q hq
    · obtain ⟨_, _, _, _, hmap⟩ := processLoad_mapped h.heap.ready hrun
      exact processMapMemory_filetype hmap
  · rcases hlive q hq with hq | rfl
    · rw [hl.process q hq]
      exact h.pointers q i hq hi
    · rw [hown.slots]
      exact (by decide : 0 < 4294967296)
  · rcases hlive q hq with hq | rfl
    · exact hl.within h (hl.space hq)
    · exact hown.within
  · rcases hlive q hq with hq | rfl
    · exact hl.taken (h.taken.process q hq True.intro)
    · exact hown.taken hown.self
  · rcases hlive q hq with hq | rfl
    · rw [hl.process q hq]
      exact hl.taken (h.taken.task q hq True.intro)
    · exact hown.task

/-- **Loading a program** keeps the address spaces, whether it succeeds or not. -/
theorem AddressSpaces.load (h : AddressSpaces d₀ k) (hrun : processLoad drive filename k = .ok (r, k')) :
    AddressSpaces d₀ k' ∧ OldSpaces d₀ k k' ∧ ∀ q, k.Live q → k'.Live q := by
  have hl := h.oldSpaces hrun
  obtain ⟨ptr, _, hcase⟩ := (processLoad_loadRun h.heap.ready hrun).keeps h.heap
  rcases hcase with ⟨_, hslots⟩ | ⟨hne, rfl⟩
  · refine ⟨hl.sameSlots h hslots, hl, fun q hq => ?_⟩
    unfold Kernel.Live
    rw [hslots]
    exact hq
  · obtain ⟨slot, hfirst, _, hprocesses⟩ := processLoad_placed h.heap.ready hrun
    exact ⟨hl.loaded h hne hrun, hl, fun q hq => (live_update hfirst hne q hprocesses).mpr (Or.inl hq)⟩

/-- **Copying a string from a task** borrows a page of its address space. -/
theorem AddressSpaces.copy {virt phys max : Nat} (h : AddressSpaces d₀ k) (hlive : k.Live process)
    (hrun : copyStringFromTask (k.process process).task virt phys max k = .ok (res, k')) :
    OldSpaces d₀ k k' ∧ k'.processes = k.processes := by
  obtain ⟨heap, memory, pages, rfl, hword, hheap⟩ :=
    copyStringFromTask_run h.dirs (Or.inr ⟨process, hlive, rfl⟩) h.heap.ready hrun
  have hkept := hheap _ _ (keptRule k.heap.taken k.heap) h.heap.shields.kept
  exact ⟨⟨hheap _ _ cleanRule h.heap, hkept.shields.taken, SpacesKept.of_word h.dirs hword, fun _ _ => rfl,
    fun _ _ => rfl⟩, rfl⟩

end Load

/-! ## Runs -/

/-- A call of the kernel that makes, borrows, changes or ends an address space. -/
inductive SpaceEvent where
  | load (drive : Drive) (filename : List (BitVec 8))
  | copy (process virt phys max : Nat)
  | malloc (process size : Nat)
  | inject (process root : Nat)
  | free (process ptr : Nat)
  | terminate (process : Nat)

/-- The process that it is made for. -/
def SpaceEvent.process : SpaceEvent → Option Nat
  | load _ _ => none
  | copy p _ _ _ => some p
  | malloc p _ => some p
  | inject p _ => some p
  | free p _ => some p
  | terminate p => some p

/-- A call that returns. A string is copied into a buffer of its caller, on the kernel's stack. -/
inductive SpaceStep : Kernel → SpaceEvent → Kernel → Prop where
  | load {k k' : Kernel} {drive : Drive} {filename : List (BitVec 8)} {r : Int × Nat} :
      processLoad drive filename k = .ok (r, k') → SpaceStep k (.load drive filename) k'
  | copy {k k' : Kernel} {p virt phys max : Nat} {res : Int} : k.Live p → phys + max ≤ tssEsp0 →
      copyStringFromTask (k.process p).task virt phys max k = .ok (res, k') → SpaceStep k (.copy p virt phys max) k'
  | malloc {k k' : Kernel} {p size ptr : Nat} : k.Live p → size < 4294967296 →
      processMalloc p size k = .ok (ptr, k') → SpaceStep k (.malloc p size) k'
  | inject {k k' : Kernel} {p root : Nat} {res : Int} : k.Live p →
      processInjectArguments p root k = .ok (res, k') → SpaceStep k (.inject p root) k'
  | free {k k' : Kernel} {p ptr : Nat} : k.Live p → processFree p ptr k = .ok ((), k') → SpaceStep k (.free p ptr) k'
  | terminate {k k' : Kernel} {p : Nat} {res : Int} : k.Live p → processTerminate p k = .ok (res, k') →
      SpaceStep k (.terminate p) k'

/-- What the call gives back is outside of allocations that hold every address space, for the end of a process every
    one but its own. -/
def SpaceEvent.Spares (d₀ : Nat) (k : Kernel) : SpaceEvent → Prop
  | load _ _ => True
  | copy _ _ _ _ => True
  | malloc _ _ => True
  | inject _ _ => True
  | free _ ptr => ∃ B, k.heap.Shields B ∅ ∧ SpacesIn d₀ (fun _ => True) B k ∧ Misses B ptr
  | terminate p => ∃ B, k.EndsOutside B p ∧ SpacesIn d₀ (· ≠ p) B k

/-- The kernel, and the processes that the call is not made for, see what they saw. -/
structure SpacesStay (d₀ : Nat) (e : SpaceEvent) (k k' : Kernel) : Prop where
  kernel : ∀ v, IsPage v →
    k'.pages.pageEntry (k'.pages.directory d₀) v = k.pages.pageEntry (k.pages.directory d₀) v
  others : ∀ q, k.Live q → e.process ≠ some q → k'.Live q ∧ ∀ v, IsPage v → k'.entry q v = k.entry q v

section Runs

variable {d₀ p q : Nat} {e : SpaceEvent} {k k' : Kernel} {tr : List (Kernel × SpaceEvent)} {res : Int}

theorem OwnCall.spaces (hcall : OwnCall (k.IsSpace d₀) p k k') (h : AddressSpaces d₀ k) (hp : k.Live p)
    (he : e.process = some p) : SpacesStay d₀ e k k' where
  kernel := fun v hv => hcall.maps.others d₀ v (Or.inl rfl) (h.kernel p hp).symm hv.1 hv.2
  others := fun q hq hne => by
    have hqp : q ≠ p := fun heq => hne (heq ▸ he)
    refine ⟨hcall.stays h hp hq hqp, fun v hv => ?_⟩
    unfold Kernel.entry
    rw [hcall.directoryOf]
    exact hcall.maps.others _ v (Or.inr ⟨q, hq, rfl⟩) (fun heq => hqp (h.alone q p hq hp heq)) hv.1 hv.2

theorem OldSpaces.stay (hl : OldSpaces d₀ k k') (hlive : ∀ q, k.Live q → k'.Live q) : SpacesStay d₀ e k k' where
  kernel := fun v hv => hl.kept.entry d₀ v (Or.inl rfl) hv
  others := fun q hq _ => by
    refine ⟨hlive q hq, fun v hv => ?_⟩
    unfold Kernel.entry
    rw [hl.directory q hq]
    exact hl.kept.entry _ v (Or.inr ⟨q, hq, rfl⟩) hv

/-- A call that keeps the blocks that were taken. -/
theorem AddressSpaces.kept (h : AddressSpaces d₀ k) (hcall : OwnCall (k.IsSpace d₀) p k k')
    (hkept : k.heap.Kept k.heap.taken k'.heap) : AddressSpaces d₀ k' :=
  h.own hcall (h.taken.own hcall hkept.shields.taken fun _ _ => id)

/-- The end of a process succeeds if it returns. -/
theorem processTerminate_zero (hcall : OwnCall (k.IsSpace d₀) p k k)
    (hfiletype : (k.process p).filetype = processFiletypeBinary ∨ (k.process p).filetype = processFiletypeElf)
    (hd : k.IsSpace d₀ (k.directoryOf p)) (hrun : processTerminate p k = .ok (res, k')) : res = 0 := by
  obtain ⟨_, k₀, hderef, hrest⟩ := bind_eq_ok.mp hrun
  obtain ⟨_, rfl⟩ := deref_run hderef
  obtain ⟨res₁, k₁, hloop, hdata⟩ := bind_eq_ok.mp hrest
  obtain ⟨_, _, hfrees, hdone⟩ := bind_eq_ok.mp hloop
  cases hdone
  obtain ⟨h₁, _⟩ := processTerminateLoop_own hd _ () _ ⟨hcall, rfl⟩ hfrees
  rw [if_neg (Int.lt_irrefl 0)] at hdata
  obtain ⟨res₂, k₂, hfreed, hafter⟩ := bind_eq_ok.mp hdata
  obtain ⟨_, _, _, hprocess⟩ := h₁.process
  obtain ⟨res₃, k₃, hfreed', rfl, _⟩ :=
    processFreeProgramData_total (by rw [hprocess]; exact hfiletype) k₁ (.refl k₁ p)
  cases hfreed.symm.trans hfreed'
  rw [if_neg (Int.lt_irrefl 0), get_bind] at hafter
  obtain ⟨_, k₄, _, hstack⟩ := bind_eq_ok.mp hafter
  rw [get_bind] at hstack
  obtain ⟨_, k₅, _, htask⟩ := bind_eq_ok.mp hstack
  obtain ⟨_, k₆, _, hunlink⟩ := bind_eq_ok.mp htask
  cases hunlink
  rfl

/-- **One call.** -/
theorem AddressSpaces.step (h : AddressSpaces d₀ k) (hspares : e.Spares d₀ k) (hstep : SpaceStep k e k') :
    AddressSpaces d₀ k' ∧ SpacesStay d₀ e k k' := by
  have hspace : ∀ {p}, k.Live p → k.IsSpace d₀ (k.directoryOf p) := fun hp => Or.inr ⟨_, hp, rfl⟩
  have hkept := h.heap.shields.kept
  cases hstep with
  | load hrun =>
      obtain ⟨h', hold, hlive⟩ := h.load hrun
      exact ⟨h', hold.stay hlive⟩
  | copy hp _ hrun =>
      obtain ⟨hold, hslots⟩ := h.copy hp hrun
      refine ⟨hold.sameSlots h hslots, hold.stay fun q hq => ?_⟩
      unfold Kernel.Live
      rw [hslots]
      exact hq
  | malloc hp hsize hrun =>
      have hcall := (OwnCall.refl h hp).malloc (hspace hp) hsize hrun
      have hinjected := (injectedMallocRule (keptReadyRule k.heap.taken k.heap) hsize).processMalloc k _ k'
        (Injected.refl hkept) hrun
      exact ⟨h.kept hcall hinjected.2.1, hcall.spaces h hp rfl⟩
  | inject hp hrun =>
      have hcall := processInjectArguments_keeps (ownCallRule (hspace hp)) k _ k' (OwnCall.refl h hp) hrun
      have hinjected := processInjectArguments_injected (keptReadyRule k.heap.taken k.heap) hkept hrun
      exact ⟨h.kept hcall hinjected.1, hcall.spaces h hp rfl⟩
  | free hp hrun =>
      obtain ⟨B, hshields, hin, hmisses⟩ := hspares
      have hcall := (OwnCall.refl h hp).free (hspace hp) hrun
      have hafter := processFree_shields (OwnCall.refl h hp) hshields hmisses hrun
      exact ⟨h.own hcall (hin.own hcall hafter.taken fun _ _ => id), hcall.spaces h hp rfl⟩
  | @terminate _ p res hp hrun =>
      obtain ⟨B, hends, hin⟩ := hspares
      have hself := OwnCall.refl h hp
      obtain rfl := processTerminate_zero hself (h.filetype p hp) (hspace hp) hrun
      obtain ⟨hcall, hzero, hafter⟩ := hself.terminate (hspace hp) hends hrun
      refine ⟨h.own hcall (hin.own hcall hafter.taken fun q hq _ => ?_), hcall.spaces h hp rfl⟩
      -- its slot is empty
      rintro rfl
      obtain ⟨hne, i, hi, hslot⟩ := hq
      rcases hcall.slots i with hsame | ⟨hempty, _⟩
      · have hold : k.processes i = q := hsame.symm.trans hslot
        have hid := h.slots i hi (by rw [hold]; exact hne)
        rw [hold] at hid
        rw [hid, hslot] at hzero
        exact hne hzero
      · exact hne (hslot.symm.trans hempty)

/-- **A run** keeps the address spaces, and that of the kernel as it was. -/
theorem AddressSpaces.run (h : AddressSpaces d₀ k) (htr : Trace SpaceStep k tr k')
    (hspares : ∀ c ∈ tr, c.2.Spares d₀ c.1) : AddressSpaces d₀ k' ∧ ∀ v, IsPage v →
      k'.pages.pageEntry (k'.pages.directory d₀) v = k.pages.pageEntry (k.pages.directory d₀) v := by
  have hinv : Throughout (fun k₁ => AddressSpaces d₀ k₁ ∧ ∀ v, IsPage v →
      k₁.pages.pageEntry (k₁.pages.directory d₀) v = k.pages.pageEntry (k.pages.directory d₀) v) tr k' := by
    refine Trace.invariant (fun k₁ e k₂ h₁ hguard hstep => ?_) ⟨h, fun _ _ => rfl⟩ htr hspares
    obtain ⟨h₂, hstay⟩ := h₁.1.step hguard hstep
    exact ⟨h₂, fun v hv => (hstay.kernel v hv).trans (h₁.2 v hv)⟩
  exact hinv.2

/-- **A run of the others** changes nothing in the address space of a process. -/
theorem AddressSpaces.run_others (h : AddressSpaces d₀ k) (hq : k.Live q) (htr : Trace SpaceStep k tr k')
    (hspares : ∀ c ∈ tr, c.2.Spares d₀ c.1 ∧ c.2.process ≠ some q) :
    k'.Live q ∧ ∀ v, IsPage v → k'.entry q v = k.entry q v := by
  have hpres : ∀ k₁ e k₂, (AddressSpaces d₀ k₁ ∧ k₁.Live q ∧ ∀ v, IsPage v → k₁.entry q v = k.entry q v) →
      (e.Spares d₀ k₁ ∧ e.process ≠ some q) → SpaceStep k₁ e k₂ →
      AddressSpaces d₀ k₂ ∧ k₂.Live q ∧ ∀ v, IsPage v → k₂.entry q v = k.entry q v := by
    rintro k₁ e k₂ ⟨h₁, hlive, hsame⟩ hguard hstep
    obtain ⟨h₂, hstay⟩ := h₁.step hguard.1 hstep
    obtain ⟨hlive₂, hsame₂⟩ := hstay.others q hlive hguard.2
    exact ⟨h₂, hlive₂, fun v hv => (hsame₂ v hv).trans (hsame v hv)⟩
  exact (Trace.invariant hpres ⟨h, hq, fun _ _ => rfl⟩ htr hspares).2.2

end Runs

/-! ## From the directory of the kernel on -/

section Start

variable {d₀ : Nat} {flags : BitVec 32} {k k₀ k₁ k₂ : Kernel} {tr tr' : List (Kernel × SpaceEvent)}

/-- A new directory lies in pages of its own, in blocks that are taken. -/
theorem pagingNew_clean (hclean : k.heap.Clean) (hflags : flags.toNat < 256) (hnew : pagingNew flags k = .ok (d₀, k₀)) :
    ∃ directory tables heap memory pages, heap.Clean ∧ NewDirectory k.pages pages flags d₀ directory tables ∧
      tables.length = 1024 ∧ OwnPages (directory :: (tables ++ [d₀])) ∧
      (∀ a ∈ directory :: (tables ++ [d₀]), kfreeBlock a ∈ heap.taken) ∧
      k₀ = { k with heap := heap, memory := memory, pages := pages } := by
  obtain ⟨directory, tables, memory, hlen, hanswers, hnull, hk₀⟩ := pagingNew_run hnew
  have hown := ownPages_answers hclean.ready hnull
  have htaken : ∀ a ∈ heapAnswers k.heap pagingNewSizes, kfreeBlock a ∈ (heapAfter k.heap pagingNewSizes).taken := by
    intro a ha
    refine (hclean.answers_new (fun size hsize => ?_) hnull a ha).1
    have hone := pagingNewSizes_one size hsize
    omega
  have hclean' : (heapAfter k.heap pagingNewSizes).Clean := by
    refine (cleanRule.series hclean fun size hsize => ?_).1
    have hone := pagingNewSizes_one size hsize
    omega
  rw [hanswers] at hown htaken
  exact ⟨directory, tables, _, memory, _, hclean', newDirectory_spec hflags hlen hown, hlen, hown, htaken, hk₀⟩

/-- **The directory of the kernel**, before any program is loaded. -/
theorem addressSpaces_start (hclean : k.heap.Clean) (hempty : ∀ i, k.processes i = 0) (hflags : flags.toNat < 256)
    (hnew : pagingNew flags k = .ok (d₀, k₀)) : AddressSpaces d₀ k₀ ∧
      ∀ v, IsPage v → k₀.pages.pageEntry (k₀.pages.directory d₀) v = BitVec.ofNat 32 v ||| flags := by
  obtain ⟨directory, tables, heap, memory, pages, hclean', hspec, hlen, hown, htaken, rfl⟩ :=
    pagingNew_clean hclean hflags hnew
  have halone := hspec.alone hlen hown
  have hnone : ∀ q, ¬ k.Live q := fun q hq => hq.1 (hq.2.elim fun i hi => hi.2.symm.trans (hempty i))
  refine ⟨⟨hclean', halone.mono ?_, fun p q hp => absurd hp (hnone p), fun q hq => absurd hq (hnone q),
    fun i _ hne => absurd (hempty i) hne, fun q hq => absurd hq (hnone q), fun q i hq => absurd hq (hnone q),
    ⟨?_, fun q hq => absurd hq (hnone q), fun q hq => absurd hq (hnone q), fun q hq => absurd hq (hnone q)⟩⟩, ?_⟩
  · intro d hd
    rcases hd with hd | ⟨q, hq, _⟩
    · exact hd
    · exact absurd hq (hnone q)
  · exact (SameDirs.refl halone).within rfl (hspec.within hlen) fun a ha => ⟨hown.aligned a ha, htaken a ha⟩
  · intro v hv
    show pages.pageEntry (pages.directory d₀) v = _
    rw [hspec.points]
    exact hspec.entry v hv.1 hv.2

/-- **One page directory each.** The kernel makes its directory; then programs are loaded, allocate and free memory,
    get their arguments, have strings copied out of them and end, in any order. No two of them share a directory, the
    directory of the kernel maps every page to itself, and a process that no call was made for sees all of its addresses
    where they were. -/
theorem addressSpaces_kept (hclean : k.heap.Clean) (hempty : ∀ i, k.processes i = 0)
    (hnew : pagingNew (pagingIsWriteable ||| pagingIsPresent ||| pagingAccessFromAll) k = .ok (d₀, k₀))
    (htr : Trace SpaceStep k₀ tr k₁) (htr' : Trace SpaceStep k₁ tr' k₂)
    (hspares : ∀ c ∈ tr ++ tr', c.2.Spares d₀ c.1) :
    (∀ v, IsPage v → k₂.pages.pageEntry (k₂.pages.directory d₀) v
      = BitVec.ofNat 32 v ||| (pagingIsWriteable ||| pagingIsPresent ||| pagingAccessFromAll)) ∧
    (∀ p q, k₁.Live p → k₁.Live q → k₁.directoryOf p = k₁.directoryOf q → p = q) ∧
    ∀ q, k₁.Live q → (∀ c ∈ tr', c.2.process ≠ some q) →
      k₂.Live q ∧ ∀ a, a < 4294967296 → k₁.SeesSame k₂ q a := by
  obtain ⟨h₀, hentry⟩ := addressSpaces_start hclean hempty (by decide) hnew
  obtain ⟨h₁, hfirst⟩ := h₀.run htr fun c hc => hspares c (List.mem_append_left _ hc)
  have hspares' : ∀ c ∈ tr', c.2.Spares d₀ c.1 := fun c hc => hspares c (List.mem_append_right _ hc)
  obtain ⟨_, hsecond⟩ := h₁.run htr' hspares'
  refine ⟨fun v hv => ((hsecond v hv).trans (hfirst v hv)).trans (hentry v hv), h₁.alone, fun q hq hothers => ?_⟩
  obtain ⟨hlive, hsame⟩ := h₁.run_others hq htr' fun c hc => ⟨hspares' c hc, hothers c hc⟩
  exact ⟨hlive, fun a ha => Kernel.seesSame_of_entry ha (hsame _ (isPage_alignToLowerPage ha))⟩

end Start

/-! ## Two programs -/

section Two

variable {n d₀ i : Nat} {flags : BitVec 32} {k : Kernel}

/-- Making a page directory needs 1026 blocks, and the first block of the heap stays cleared. -/
theorem pagingNew_room (hclean : k.heap.Clean) (hroom : k.heap.TailRoom (n + 4104)) (hcleared : k.FirstCleared) :
    ∃ d₀ k', pagingNew flags k = .ok (d₀, k') ∧ k'.heap.TailRoom n ∧ k'.FirstCleared ∧
      k'.fileDescriptors = k.fileDescriptors ∧ k'.processes = k.processes := by
  have hfree := hroom.freeBlocks
  obtain ⟨d₀, k', hrun, _⟩ := pagingNew_ok hclean.ready (show 1026 ≤ k.heap.freeBlocks by omega)
  have hshelter := (pagingNew_sheltered k d₀ k' hclean.sheltered hrun).2
  have hcleared' := hcleared.sheltered hcleared.taken hshelter
  obtain ⟨directory, tables, memory, _, _, _, hk'⟩ := pagingNew_run hrun
  have hlen : pagingNewSizes.length = 1026 := by
    have hall := processSizes_length
    unfold processSizes at hall
    rw [List.length_cons, List.length_cons] at hall
    omega
  have hroom' : (heapAfter k.heap pagingNewSizes).TailRoom n := by
    have htail : k.heap.TailRoom (n + 4 * pagingNewSizes.length) := hroom.mono (by rw [hlen])
    exact htail.after fun size hsize => processSizes_blocks size (List.mem_cons_of_mem _ (List.mem_cons_of_mem _ hsize))
  generalize heapAfter k.heap pagingNewSizes = heap at hroom' hk'
  subst hk'
  exact ⟨d₀, _, hrun, hroom', hcleared', rfl, rfl⟩

/-- A raw image is loaded into the first free slot. -/
theorem AddressSpaces.loadRaw (h : AddressSpaces d₀ k) (hroom : k.heap.TailRoom (n + 4134)) (hcleared : k.FirstCleared)
    (htable : k.fileDescriptors = fun _ => none) (hslot : FirstSlot k i) : ∃ p k', p ≠ 0 ∧
      processLoad pointerDrive splitPath k = .ok ((0, p), k') ∧ k'.processes = Function.update k.processes i p ∧
      k'.Live p ∧ k'.heap.TailRoom n ∧ k'.FirstCleared ∧ (k'.fileDescriptors = fun _ => none) ∧
      AddressSpaces d₀ k' := by
  obtain ⟨p, k', hne, hload, hroom', hcleared', htable'⟩ := pointerDrive_rawFile.next (by decide) (by decide)
    ⟨h.heap, hroom, htable, ⟨i, hslot⟩, fun _ _ hrun => hcleared.kzalloc h.heap hrun⟩ (Nat.le_refl _)
  obtain ⟨slot, hfirst, _, hslots⟩ := processLoad_placed h.heap.ready hload
  obtain rfl := hslot.unique hfirst
  exact ⟨p, k', hne, hload, hslots, (live_update hfirst hne p hslots).mpr (Or.inr rfl), hroom', hcleared', htable',
    (h.load hload).1⟩

/-- Another program is loaded, and the pointer 0 is given back in its name; the first program sees what it saw. -/
theorem addressSpaces_kept_two : ∃ (d₀ p q : Nat) (k k₀ k₁ k₂ : Kernel) (tr tr' : List (Kernel × SpaceEvent)),
    pagingNew (pagingIsWriteable ||| pagingIsPresent ||| pagingAccessFromAll) k = .ok (d₀, k₀) ∧
    Trace SpaceStep k₀ tr k₁ ∧ Trace SpaceStep k₁ tr' k₂ ∧ tr.map Prod.snd = [.load pointerDrive splitPath] ∧
    tr'.map Prod.snd = [.load pointerDrive splitPath, .free q 0] ∧ p ≠ q ∧ k₁.Live p ∧ k₂.Live p ∧
      ∀ a, a < 4294967296 → k₁.SeesSame k₂ p a := by
  -- the kernel has allocated the first three blocks
  obtain ⟨area, k, halloc, _, hroom, _⟩ := @kzalloc_tail (4134 + 4134 + 4104) sizeofProcess (by decide) bootKernel
    ⟨bootKernel_tailRoom (by decide), fun hzero => absurd hzero (by decide)⟩
  have hclean : k.heap.Clean := kzalloc_clean bootKernel_clean (by decide) halloc
  have hempty : ∀ i, k.processes i = 0 := by
    obtain ⟨_, memory, rfl⟩ := kzalloc_run halloc
    exact fun _ => rfl
  obtain ⟨d₀, k₀, hnew, hroom₀, hcleared₀, htable₀, hslots₀⟩ :=
    @pagingNew_room _ (pagingIsWriteable ||| pagingIsPresent ||| pagingAccessFromAll) k hclean hroom
      (bootKernel_firstFits.alloc halloc).2.1
  have h₀ := (addressSpaces_start hclean hempty (by decide) hnew).1
  have hslot₀ : FirstSlot k₀ 0 :=
    ⟨by decide, by rw [hslots₀]; exact hempty 0, fun j hj => absurd hj (Nat.not_lt_zero j)⟩
  obtain ⟨p, k₁, hp, hload₁, hslots₁, hlive, hroom₁, hcleared₁, htable₁, h₁⟩ :=
    h₀.loadRaw hroom₀ hcleared₀ (htable₀.trans (kzalloc_table halloc)) hslot₀
  have hslot₁ : FirstSlot k₁ 1 := by
    refine ⟨by decide, ?_, fun j hj => ?_⟩
    · rw [hslots₁, hslots₀]
      exact hempty 1
    · rw [hslots₁, show j = 0 by omega, Function.update_self]
      exact hp
  obtain ⟨q, k₂, hq, hload₂, _, hlive₂, _, _, _, h₂⟩ :=
    @AddressSpaces.loadRaw 0 _ _ _ h₁ hroom₁ hcleared₁ htable₁ hslot₁
  have hpq : p ≠ q := by
    rintro rfl
    exact (processLoad_ownBlocks h₁.heap hload₂).self.2 (h₁.taken.process p hlive True.intro)
  have hfresh := processLoad_fresh h₁.heap.ready hload₂
  have htr : Trace SpaceStep k₀ [(k₀, .load pointerDrive splitPath)] k₁ := Trace.nil.snoc (.load hload₁)
  have htr' : Trace SpaceStep k₁ [(k₁, .load pointerDrive splitPath), (k₂, .free q 0)] k₂ :=
    (Trace.nil.snoc (.load hload₂)).snoc (.free hlive₂ (processFree_null h₂.heap.ready hfresh.2 hfresh.1))
  have hspares : ∀ c ∈ ([(k₀, .load pointerDrive splitPath)] ++ [(k₁, .load pointerDrive splitPath), (k₂, .free q 0)] :
      List (Kernel × SpaceEvent)), c.2.Spares d₀ c.1 := by
    intro c hc
    simp only [List.cons_append, List.nil_append, List.mem_cons, List.not_mem_nil, or_false] at hc
    rcases hc with rfl | rfl | rfl
    · trivial
    · trivial
    · -- the pointer 0 is in no block of the heap
      refine ⟨_, h₂.heap.shields.kept.shields, h₂.taken, fun hin => ?_⟩
      have hlt := hin.1
      have htotal := h₂.heap.ready.total
      have hblock : kfreeBlock 0 = 4294963200 := by decide
      omega
  obtain ⟨_, _, hothers⟩ := addressSpaces_kept hclean hempty hnew htr htr' hspares
  obtain ⟨hstays, hsees⟩ := hothers p hlive fun c hc => by
    simp only [List.mem_cons, List.not_mem_nil, or_false] at hc
    rcases hc with rfl | rfl
    · exact fun heq => nomatch heq
    · exact fun heq => hpq (Option.some.inj heq).symm
  exact ⟨d₀, p, q, k, k₀, k₁, k₂, _, _, hnew, htr, htr', rfl, rfl, hpq, hlive, hstays, hsees⟩

end Two

end BimbleOS
