import BimbleOS.Task.AddressSpaces

/-!
# `Task.ProgramHistory` — a program in a history of `malloc` and `free`

A program keeps its image and its stack in every history of calls whose requests never come to lie on one of its
addresses, as long as no call gives back a block that holds a process (`programPages_kept`). The second condition is
needed: `process_malloc(0)` records the address of a block without taking it, and when the block is part of a page
directory later, `process_free` gives it back all the same.
-/

namespace BimbleOS

open Bytes CWord BlockRuns Exec Transition

/-! ## The blocks of the processes -/

/-- The structures, tasks and page directories of the live processes are in blocks of `B`. -/
structure Kernel.LivesIn (k : Kernel) (B : Set Nat) : Prop where
  pages : ∀ d, k.IsDirectory d → k.pages.Within (pagesIn B) d
  process : ∀ q, k.Live q → kfreeBlock q ∈ B
  task : ∀ q, k.Live q → kfreeBlock (k.process q).task ∈ B

/-- What `heap_free` gives back for `ptr` is outside of allocations that hold the processes. -/
def Kernel.SparesProcesses (k : Kernel) (ptr : Nat) : Prop :=
  ∃ B, k.heap.Shields B ∅ ∧ k.LivesIn B ∧ Misses B ptr

section Lives

variable {k k' : Kernel} {p size ptr process : Nat} {B B' : Set Nat} {drive : Drive} {filename : List (BitVec 8)}

theorem Kernel.LiveOk.livesIn (h : k.LiveOk) : k.LivesIn k.heap.taken := ⟨h.pages, h.process, h.task⟩

theorem OwnCall.isDirectory {ds : Nat → Prop} {d : Nat} (hcall : OwnCall ds p k k') (hd : k'.IsDirectory d) :
    k.IsDirectory d := by
  obtain ⟨q, hq, rfl⟩ := hd
  exact ⟨q, hcall.live hq, (hcall.directoryOf q).symm⟩

theorem Kernel.LivesIn.own (h : k.LivesIn B) (hcall : OwnCall k.IsDirectory p k k') (hB : B ⊆ B') : k'.LivesIn B' where
  pages := fun d hd => by
    have hold := hcall.isDirectory hd
    exact hcall.maps.within hold (h.pages d hold) fun a ha => ⟨ha.1, hB ha.2⟩
  process := fun q hq => hB (h.process q (hcall.live hq))
  task := fun q hq => by
    rw [hcall.sameTask]
    exact hB (h.task q (hcall.live hq))

/-- A call for the process `p` that keeps the blocks of the processes. -/
theorem Kernel.LiveOk.own (h : k.LiveOk) (hcall : OwnCall k.IsDirectory p k k') (hin : k'.LivesIn k'.heap.taken) :
    k'.LiveOk := by
  refine ⟨hcall.clean, hin.process, hin.task, hcall.maps.ok.mono fun _ => hcall.isDirectory, hin.pages,
    fun q q' hq hq' heq => ?_, fun q i hq hi => ?_⟩
  · rw [hcall.directoryOf, hcall.directoryOf] at heq
    exact h.alone q q' (hcall.live hq) (hcall.live hq') heq
  · by_cases hqp : q = p
    · rw [hqp]
      exact hcall.pointers i hi
    · rw [hcall.others q hqp]
      exact h.pointers q i (hcall.live hq) hi

theorem OwnCall.start (h : k.LiveOk) (hp : k.Live p) : OwnCall k.IsDirectory p k k where
  maps := MapsThrough.refl h.dirs
  tasks := fun _ => Task.SameBut.refl _
  others := fun _ _ => rfl
  process := ⟨_, _, _, rfl⟩
  clean := h.heap
  pointers := fun i hi => h.pointers p i hp hi
  slots := fun _ => Or.inl rfl

theorem Kernel.LiveOk.malloc (h : k.LiveOk) (hp : k.Live p) (hsize : size < 4294967296)
    (hrun : processMalloc p size k = .ok (ptr, k')) : k'.LiveOk := by
  have hcall := (OwnCall.start h hp).malloc ⟨p, hp, rfl⟩ hsize hrun
  have hinjected := (injectedMallocRule (keptReadyRule k.heap.taken k.heap) hsize).processMalloc k _ k'
    (Injected.refl h.heap.shields.kept) hrun
  exact h.own hcall (h.livesIn.own hcall hinjected.2.1.shields.taken)

theorem Kernel.LiveOk.free (h : k.LiveOk) (hp : k.Live p)
    (hspares : (processGetAllocationByAddr (k.process p) ptr).isSome → k.SparesProcesses ptr)
    (hrun : processFree p ptr k = .ok ((), k')) : k'.LiveOk := by
  have hstart := OwnCall.start h hp
  by_cases hfound : (processGetAllocationByAddr (k.process p) ptr).isSome
  · obtain ⟨B, hshields, hin, hmisses⟩ := hspares hfound
    have hcall := hstart.free ⟨p, hp, rfl⟩ hrun
    exact h.own hcall (hin.own hcall (processFree_shields hstart hshields hmisses hrun).taken)
  · -- the process has no record of the pointer
    have hnone : processGetAllocationByAddr (k.process p) ptr = none := by simpa using hfound
    obtain ⟨_, _, hget, hrest⟩ := bind_eq_ok.mp hrun
    cases hget
    rw [hnone] at hrest
    cases hrest
    exact h

/-- **Loading a program** keeps the processes in taken blocks. -/
theorem Kernel.LiveOk.load (h : k.LiveOk) (hrun : processLoad drive filename k = .ok ((0, process), k')) :
    k'.LiveOk := by
  have hloaded := processLoad_loaded h hrun
  have hload := processLoad_loadRun h.heap.ready hrun
  have hown := processLoad_ownBlocks h.heap hrun
  obtain ⟨_, hkeeps, _⟩ := hload.keeps h.heap
  have hkept := (hload.spaces h.heap h.dirs h.pages).1
  have htaken := (hkeeps.heap _ _ (keptReadyRule k.heap.taken k.heap) h.heap.shields.kept).shields.taken
  have hdirectory : ∀ q, k.Live q → k'.process q = k.process q → k'.directoryOf q = k.directoryOf q := by
    intro q hq hsame
    obtain ⟨next, prev, htask⟩ := hkeeps.task _ (h.task q hq)
    unfold Kernel.directoryOf
    rw [hsame, htask]
  refine ⟨processLoad_keeps cleanReadyRule h.heap hrun, fun q hq => ?_, fun q hq => ?_, hloaded.dirs, ?_,
    fun q q' hq hq' heq => ?_, fun q i hq hi => ?_⟩
  · by_cases hqp : q = process
    · rw [hqp]
      exact hown.taken hown.self
    · exact htaken (h.process q (hloaded.old q hq hqp).1)
  · by_cases hqp : q = process
    · rw [hqp]
      exact hown.task
    · obtain ⟨hold, hsame⟩ := hloaded.old q hq hqp
      rw [hsame]
      exact htaken (h.task q hold)
  · rintro d ⟨q, hq, rfl⟩
    by_cases hqp : q = process
    · rw [hqp]
      exact hown.within
    · obtain ⟨hold, hsame⟩ := hloaded.old q hq hqp
      rw [hdirectory q hold hsame]
      have hd : k.IsDirectory (k.directoryOf q) := ⟨q, hold, rfl⟩
      exact hkept.within hd (h.pages _ hd) fun _ ha => ⟨ha.1, htaken ha.2⟩
  · by_cases hqp : q = process
    · rw [hqp] at heq ⊢
      exact (hloaded.alone q' hq' heq.symm).symm
    · by_cases hqp' : q' = process
      · rw [hqp'] at heq ⊢
        exact hloaded.alone q hq heq
      · obtain ⟨hold, hsame⟩ := hloaded.old q hq hqp
        obtain ⟨hold', hsame'⟩ := hloaded.old q' hq' hqp'
        rw [hdirectory q hold hsame, hdirectory q' hold' hsame'] at heq
        exact h.alone q q' hold hold' heq
  · by_cases hqp : q = process
    · rw [hqp, hloaded.allocations]
      exact (by decide : 0 < 4294967296)
    · obtain ⟨hold, hsame⟩ := hloaded.old q hq hqp
      rw [hsame]
      exact h.pointers q i hold hi

end Lives

/-! ## Histories -/

/-- A `malloc` of `process` does not come to lie on a page of `V`: the blocks that the scan of the heap finds for
    it, if the process has a slot for them, are elsewhere. A `free` of a pointer that its process has a record of,
    whichever process that is, spares the processes. -/
def MallocCall.Spares (V : Nat → Prop) (process : Nat) (s : MallocState) : Nat × MallocCall → Prop
  | (p, .malloc size) => p = process →
      (∃ i, i < bimbleosMaxProgramAllocations ∧ ((s.kernel.process process).allocations i).ptr = 0) →
      ∀ start : Nat, ScanResult s.kernel.heap.table (heapBlocks size) (start : Int) → ∀ a, V a →
        ¬ RequestHas (bimbleosHeapAddress + 4096 * start) size (pagingAlignToLowerPage a)
  | (p, .free ptr) => (processGetAllocationByAddr (s.kernel.process p) ptr).isSome → s.kernel.SparesProcesses ptr

/-- What stays in a history from `k₀` on. -/
structure ProgramSpared (V : Nat → Prop) (process : Nat) (k₀ k : Kernel) : Prop where
  ready : k.heap.Ready
  processes : k.processes = k₀.processes
  directoryOf : ∀ q, k.directoryOf q = k₀.directoryOf q
  dirs : DirsOk k.pages k₀.IsDirectory
  pointers : ∀ q i, k₀.Live q → i < bimbleosMaxProgramAllocations → ((k.process q).allocations i).ptr < 4294967296
  slots : ∀ i a, i < bimbleosMaxProgramAllocations → V a →
    ¬ RequestHas ((k.process process).allocations i).ptr ((k.process process).allocations i).size
      (pagingAlignToLowerPage a)
  entry : ∀ a, V a → k.entry process (pagingAlignToLowerPage a) = k₀.entry process (pagingAlignToLowerPage a)

section Histories

variable {V : Nat → Prop} {process : Nat} {k₀ : Kernel} {s s' : MallocState} {c : Nat × MallocCall}

/-- Mapping a request of a live process that spares the program. -/
theorem ProgramSpared.map {k : Kernel} (h : ProgramSpared V process k₀ k) (hV : ∀ a, V a → a < 4294967296) {p : Nat}
    (hp : k₀.Live p) (hprocess : k₀.Live process)
    (halone : ∀ q, k₀.Live q → k₀.directoryOf q = k₀.directoryOf process → q = process) {ptr size : Nat}
    {flags : BitVec 32} {pages : PageStore} (hptr : ptr < 4294967296)
    (hmap : pagingMapTo k.pages (k.directoryOf p) ptr ptr (pagingAlignAddress (u32 (ptr + size : Nat))) flags = (0, pages))
    (hout : p = process → ∀ a, V a → ¬ RequestHas ptr size (pagingAlignToLowerPage a)) :
    DirsOk pages k₀.IsDirectory ∧ ∀ a, V a →
      pages.pageEntry (pages.directory (k₀.directoryOf process)) (pagingAlignToLowerPage a)
        = k.pages.pageEntry (k.pages.directory (k₀.directoryOf process)) (pagingAlignToLowerPage a) := by
  have hd : k₀.IsDirectory (k.directoryOf p) := ⟨p, hp, (h.directoryOf p).symm⟩
  have hd' : k₀.IsDirectory (k₀.directoryOf process) := ⟨process, hprocess, rfl⟩
  have hsame : SameDirs k₀.IsDirectory k.pages pages := by
    have hrun := @SameDirs.mapTo k.pages k₀.IsDirectory (k.directoryOf p) ptr ptr
      (pagingAlignAddress (u32 (ptr + size : Nat))) flags h.dirs hd hptr
    rw [hmap] at hrun
    exact hrun
  refine ⟨hsame.ok, fun a ha => pagingMapTo_kept h.dirs hd hd' hptr hmap (isPage_alignToLowerPage (hV a ha)) ?_⟩
  rintro ⟨heq, hin⟩
  rw [h.directoryOf p] at heq
  exact hout (halone p hp heq.symm) a ha hin

/-- A call of `p` that has changed its table of allocations to `slots`. -/
theorem ProgramSpared.setSlots {k : Kernel} (h : ProgramSpared V process k₀ k) {p : Nat} {heap : Heap} {memory : Mem}
    {pages : PageStore} {slots : Nat → ProcessAllocation} (hready : heap.Ready) (hok : DirsOk pages k₀.IsDirectory)
    (hentry : ∀ a, V a → pages.pageEntry (pages.directory (k₀.directoryOf process)) (pagingAlignToLowerPage a)
      = k.pages.pageEntry (k.pages.directory (k₀.directoryOf process)) (pagingAlignToLowerPage a))
    (hpointers : ∀ i, i < bimbleosMaxProgramAllocations → (slots i).ptr < 4294967296)
    (hslots : p = process → ∀ i a, i < bimbleosMaxProgramAllocations → V a →
      ¬ RequestHas (slots i).ptr (slots i).size (pagingAlignToLowerPage a)) :
    ProgramSpared V process k₀ { k with
      heap := heap
      memory := memory
      pages := pages
      process := Function.update k.process p { k.process p with allocations := slots } } := by
  have htask : ∀ q, (Function.update k.process p { k.process p with allocations := slots } q).task
      = (k.process q).task := by
    intro q
    by_cases hq : q = p
    · rw [hq, Function.update_self]
    · rw [Function.update_of_ne hq]
  have hdirectory : ∀ q, Kernel.directoryOf { k with
      heap := heap
      memory := memory
      pages := pages
      process := Function.update k.process p { k.process p with allocations := slots } } q = k₀.directoryOf q := by
    intro q
    rw [← h.directoryOf q]
    unfold Kernel.directoryOf
    simp only [htask]
  refine ⟨hready, h.processes, hdirectory, hok, fun q i hq hi => ?_, fun i a hi ha => ?_, fun a ha => ?_⟩
  · by_cases hqp : q = p
    · simp only [hqp, Function.update_self]
      exact hpointers i hi
    · simp only [Function.update_of_ne hqp]
      exact h.pointers q i hq hi
  · by_cases hqp : process = p
    · simp only [hqp, Function.update_self]
      exact hslots hqp.symm i a hi ha
    · simp only [Function.update_of_ne hqp]
      exact h.slots i a hi ha
  · have hold := h.entry a ha
    unfold Kernel.entry at hold ⊢
    rw [hdirectory]
    rw [h.directoryOf] at hold
    exact (hentry a ha).trans hold

/-- **One call.** -/
theorem ProgramSpared.step (hV : ∀ a, V a → a < 4294967296) (hprocess : k₀.Live process)
    (halone : ∀ q, k₀.Live q → k₀.directoryOf q = k₀.directoryOf process → q = process)
    (h : ProgramSpared V process k₀ s.kernel) (hspares : MallocCall.Spares V process s c) (hstep : MallocStep s c s') :
    ProgramSpared V process k₀ s'.kernel := by
  have hlives : ∀ q, s.kernel.Live q → k₀.Live q := by
    rintro q ⟨hne, i, hi, hslot⟩
    rw [h.processes] at hslot
    exact ⟨hne, i, hi, hslot⟩
  cases hstep with
  | @malloc p size ptr k hlive _ hrun =>
      have hpointers := fun i hi => h.pointers p i (hlives p hlive) hi
      cases processMalloc_mallocRun h.ready hrun with
      | refused hready => exact ⟨hready, h.processes, h.directoryOf, h.dirs, h.pointers, h.slots, h.entry⟩
      | @mapped _ start i heap memory pages hready hscan hptr hlt hi hslot hmap =>
          have hout : p = process → ∀ a, V a → ¬ RequestHas ptr size (pagingAlignToLowerPage a) := by
            rintro rfl a ha
            rw [hptr]
            exact hspares rfl ⟨i, hi, hslot⟩ start hscan a ha
          obtain ⟨hok, hentry⟩ := h.map hV (hlives p hlive) hprocess halone hlt hmap hout
          refine h.setSlots hready hok hentry (fun j hj => ?_) fun hp j a hj ha => ?_
          · by_cases hji : j = i
            · rw [hji, Function.update_self]
              exact hlt
            · rw [Function.update_of_ne hji]
              exact hpointers j hj
          · by_cases hji : j = i
            · rw [hji, Function.update_self]
              exact hout hp a ha
            · rw [Function.update_of_ne hji, hp]
              exact h.slots j a hj ha
  | @free p ptr k hlive _ hrun =>
      have hpointers := fun i hi => h.pointers p i (hlives p hlive) hi
      cases processFree_freeRun hpointers hrun with
      | ignored => exact h
      | @unmapped i b pages hi hb hmap =>
          have hout : p = process → ∀ a, V a → ¬ RequestHas b.ptr b.size (pagingAlignToLowerPage a) := by
            rintro rfl a ha
            rw [← hb]
            exact h.slots i a hi ha
          have hlt : b.ptr < 4294967296 := by
            rw [← hb]
            exact hpointers i hi
          obtain ⟨hok, hentry⟩ := h.map hV (hlives p hlive) hprocess halone hlt hmap hout
          -- the slots that are left are slots of before, or empty
          refine h.setSlots h.ready.free hok hentry (fun j hj => ?_) fun hp j a hj ha => ?_
          · split
            · decide
            · exact hpointers j hj
          · split
            · intro hin
              exact absurd (Nat.lt_of_le_of_lt hin.1 hin.2) (Nat.lt_irrefl 0)
            · rw [hp]
              exact h.slots j a hj ha

/-- The processes stay in taken blocks. -/
theorem Kernel.LiveOk.step (h : s.kernel.LiveOk) (hspares : MallocCall.Spares V process s c)
    (hstep : MallocStep s c s') :
    s'.kernel.LiveOk := by
  cases hstep with
  | malloc hlive hsize hrun => exact h.malloc hlive hsize hrun
  | free hlive _ hrun => exact h.free hlive hspares hrun

end Histories

/-! ## Every history -/

/-- The process finds every address of its program where it was in `k₀`. -/
def ProgramKept (k₀ : Kernel) (process : Nat) (s : MallocState) : Prop :=
  ∀ a, k₀.ProgramAddress process a → k₀.SeesSame s.kernel process a

/-- The page directory of the process and its tables are in blocks that are taken: no allocation clears them. -/
def DirectoryTaken (process : Nat) (s : MallocState) : Prop :=
  s.kernel.pages.Within s.kernel.heap.takenPages (s.kernel.directoryOf process)

/-- **A program keeps its image and its stack** in every history of `malloc` and `free` calls after its load in
    which no request of its own comes to lie on one of its addresses, and no call gives back a block that holds a
    process. -/
theorem programPages_kept {drive : Drive} {filename : List (BitVec 8)} {k k₀ : Kernel} {process : Nat}
    {mapped : Nat → Nat → Prop} {tr : List (MallocState × (Nat × MallocCall))} {s : MallocState} (hlive : k.LiveOk)
    (hload : processLoad drive filename k = .ok ((0, process), k₀)) (htr : Trace MallocStep ⟨k₀, mapped⟩ tr s)
    (hspares : ∀ q ∈ tr, MallocCall.Spares (k₀.ProgramAddress process) process q.1 q.2) :
    Throughout (fun s => ProgramKept k₀ process s ∧ DirectoryTaken process s) tr s := by
  have hloaded := processLoad_loaded hlive hload
  have hlive₀ := hlive.load hload
  have hstart : ProgramSpared (k₀.ProgramAddress process) process k₀ k₀ := by
    refine ⟨hloaded.ready, rfl, fun _ => rfl, hloaded.dirs, hlive₀.pointers, fun i a _ _ hin => ?_, fun _ _ => rfl⟩
    rw [hloaded.allocations] at hin
    exact absurd (Nat.lt_of_le_of_lt hin.1 hin.2) (Nat.lt_irrefl 0)
  have hinv : Throughout (fun s => ProgramSpared (k₀.ProgramAddress process) process k₀ s.kernel ∧ s.kernel.LiveOk)
      tr s := by
    refine Trace.invariant (fun _ _ _ h hguard hstep => ⟨?_, h.2.step hguard hstep⟩) ⟨hstart, hlive₀⟩ htr hspares
    exact h.1.step (fun _ ha => ha.lt) hloaded.live hloaded.alone hguard hstep
  refine hinv.imp fun s h => ⟨fun a ha => Kernel.seesSame_of_entry ha.lt (h.1.entry a ha), ?_⟩
  refine h.2.pages _ ⟨process, ?_, rfl⟩
  -- the history makes and ends no process
  obtain ⟨hne, hslot⟩ := hloaded.live
  exact ⟨hne, by rw [h.1.processes]; exact hslot⟩

/-- **One byte** that the program asks for hides a page of its segment. -/
theorem heapElf_malloc : ∃ k₀ ptr k', processLoad heapElfDrive splitPath bootKernel = .ok ((0, 0x1000000), k₀) ∧
    (k₀.process 0x1000000).member = some .elfFile ∧ processMalloc 0x1000000 1 k₀ = .ok (ptr, k') ∧
    k₀.ProgramAddress 0x1000000 ptr ∧ ¬ k₀.SeesSame k' 0x1000000 ptr := by
  obtain ⟨k₀, hload, hready, hfree, helf, hfile, himage, hmember, hstack, htask⟩ :=
    segment_boots heapElf_segment heapElf_prefix
  have hvaddr : pVaddr k₀.memory 0x100b034 = 0x1000000 := by
    rw [helf.vaddr]
    decide
  have hmemsz : pMemsz k₀.memory 0x100b034 = 0x6400000 := by
    rw [helf.memsz]
    decide
  have hpages : phdrPages k₀.memory 0x1003000 0x100b034 = 25600 := by
    unfold phdrPages
    rw [helf.first heapElf_segment, helf.last heapElf_segment]
    decide
  have hsegmentFlags : phdrFlags k₀.memory 0x100b034 = pagingIsPresent ||| pagingAccessFromAll := by
    unfold phdrFlags pFlags
    rw [helf.phdr (show 24 + 4 ≤ 32 by decide)]
    decide
  have hloaded := processLoad_loaded bootKernel_liveOk hload
  have htotal := hready.total
  obtain ⟨s, hs, _, _, hmalloc⟩ := processMalloc_one hready (Nat.le_refl 1) (by decide) hfree htask
    (processFindFreeAllocationIndex_none hloaded.allocations)
  have hptr : runAddress ⟨s, 1⟩ = 16777216 + 4096 * s := rfl
  have hpage : IsPage (runAddress ⟨s, 1⟩) := by
    unfold IsPage
    omega
  have hlower : pagingAlignToLowerPage (runAddress ⟨s, 1⟩) = runAddress ⟨s, 1⟩ := by
    rw [pagingAlignToLowerPage_eq]
    omega
  refine ⟨k₀, _, _, hload, hmember, hmalloc, Or.inl ⟨0, 4096 * s, ?_⟩, ?_⟩
  · -- the page is one of the segment's
    rw [himage, helf.memory]
    unfold IsSegment segmentAddr
    rw [helf.phnum heapElf_segment, helf.pheader heapElf_segment]
    have hat : phdrAt 0x100b034 0 = 0x100b034 := by decide
    rw [hat, helf.type heapElf_segment, hmemsz, hvaddr, u32_of_lt (by omega)]
    exact ⟨⟨Nat.one_pos, rfl⟩, by omega, hptr⟩
  · intro hsame
    have hflags := hsame.flags
    unfold Kernel.pageFlags at hflags
    rw [hlower] at hflags
    -- the entry of `malloc`
    have hnew : (k₀.afterMalloc 0x1000000 1 ⟨s, 1⟩ 0 (fill k₀.memory (runAddress ⟨s, 1⟩) 1 0)).entry 0x1000000
        (runAddress ⟨s, 1⟩) = BitVec.ofNat 32 (runAddress ⟨s, 1⟩) ||| processMallocFlags := by
      have hfin : Run.fin ⟨s, 1⟩ ≤ 25600 := by
        show s + 1 ≤ 25600
        omega
      have hd : k₀.IsDirectory (k₀.directoryOf 0x1000000) := ⟨_, hloaded.live, rfl⟩
      have hset :=
        (@DirsOk.setRun k₀.pages k₀.IsDirectory _ ⟨s, 1⟩ processMallocFlags hloaded.dirs hd hfin).2 _ _ hd hpage
      have hin : runAddress ⟨s, 1⟩ < runAddress ⟨s, 1⟩ + 4096 * 1 := by omega
      rw [if_pos ⟨rfl, Nat.le_refl _, hin⟩] at hset
      have hdirectory :
          (k₀.afterMalloc 0x1000000 1 ⟨s, 1⟩ 0 (fill k₀.memory (runAddress ⟨s, 1⟩) 1 0)).directoryOf 0x1000000
          = k₀.directoryOf 0x1000000 := by
        unfold Kernel.directoryOf Kernel.afterMalloc
        simp only [Function.update_self]
      unfold Kernel.entry
      rw [hdirectory]
      exact hset
    -- the entry of the segment
    have hold : k₀.entry 0x1000000 (runAddress ⟨s, 1⟩)
        = BitVec.ofNat 32 (u32 (0x100b000 + 4096 * s : Nat)) ||| (pagingIsPresent ||| pagingAccessFromAll) := by
      obtain ⟨pages, d, hd, hdirs, hmap⟩ := processLoad_mapped bootKernel_clean.ready hload
      have hstackLt : (k₀.process 0x1000000).stack < 4294967296 := by
        rw [hstack]
        decide
      obtain ⟨_, hentry⟩ := processMapMemory_entry helf.memory hdirs hfile himage hstackLt hmap (Int.le_refl 0)
      have hat : phdrAt (elfPheader k₀.memory 0x100b000) 0 = 0x100b034 := by
        rw [helf.pheader heapElf_segment]
        decide
      have hvirt : phdrVirt k₀.memory 0x100b034 = 0x1000000 := by
        unfold phdrVirt
        rw [hvaddr]
        decide
      have hoffset : pageOffset 0x1000000 (runAddress ⟨s, 1⟩) = s := by
        unfold pageOffset u32
        omega
      have hcover : LastCover k₀.memory 0x1003000 (elfPheader k₀.memory 0x100b000) 0 (ePhnum k₀.memory 0x100b000)
          (runAddress ⟨s, 1⟩) 0 := by
        rw [helf.phnum heapElf_segment]
        refine ⟨Nat.le_refl 0, Nat.one_pos, ?_, fun j hlo hhi => absurd hhi (by omega)⟩
        unfold PhdrCovers
        rw [hat, hvirt, hoffset, hpages]
        omega
      have houtside : ¬ InStack (runAddress ⟨s, 1⟩) := by
        unfold InStack bimbleosProgramVirtualStackAddressStart
        omega
      have hfirst := hentry _ 0 hpage.1 hpage.2 houtside hcover
      unfold Kernel.entry
      rw [hd, hfirst, hat, hvirt, hoffset, helf.first heapElf_segment, hsegmentFlags]
      rfl
    rw [hnew, hold, entry_flag hpage.1 hpage.2 (by decide), entry_flag ?_ (u32_lt _) (by decide)] at hflags
    · exact absurd hflags (by decide)
    · rw [u32_natCast]
      omega

/-- The image does **not** stay where it is in every history. -/
theorem heapElf_hides : ¬ ∀ (drive : Drive) (filename : List (BitVec 8)) (k k₀ : Kernel) (process : Nat)
    (mapped : Nat → Nat → Prop) (tr : List (MallocState × (Nat × MallocCall))) (s : MallocState), k.LiveOk →
    processLoad drive filename k = .ok ((0, process), k₀) → (k₀.process process).member = some .elfFile →
    Trace MallocStep ⟨k₀, mapped⟩ tr s → Throughout (ProgramKept k₀ process) tr s := by
  intro h
  obtain ⟨k₀, ptr, k', hload, hmember, hmalloc, haddress, hchanged⟩ := heapElf_malloc
  have hstep := MallocStep.malloc (s := ⟨k₀, fun _ _ => False⟩) (processLoad_loaded bootKernel_liveOk hload).live
    (by decide) hmalloc
  have hkept := h _ _ _ _ _ _ _ _ bootKernel_liveOk hload hmember (Trace.snoc Trace.nil hstep)
  exact hchanged (hkept.2 _ haddress)

/-! A small program that allocates a page and gives it back. -/

theorem bssElf_segment : OneSegment bssElf := ⟨by decide, by decide, by decide, by decide, by decide⟩

theorem bssElf_prefix : ∃ r k, loadPrefix (segmentDrive bssElf) splitPath 0 bootKernel = .ok (r, k) ∧
    segmentCheck bssElf r k = true :=
  exists_of_check (by decide +kernel)

/-- Its image and its stack lie in front of the heap. -/
theorem bssElf_address {k : Kernel} {a : Nat} (h : SegmentLoaded bssElf k) (ha : k.ProgramAddress 0x1000000 a) :
    a < 0x400060 := by
  rcases ha with ⟨j, i, hsegment, hi, rfl⟩ | ⟨_, hlt⟩
  · unfold IsSegment at hsegment
    rw [h.image, h.elf.memory, h.elf.phnum bssElf_segment] at hsegment
    obtain rfl : j = 0 := by omega
    rw [h.image, h.elf.memory, h.elf.pheader bssElf_segment] at hi ⊢
    have hat : phdrAt 0x100b034 0 = 0x100b034 := by decide
    rw [hat] at hi ⊢
    rw [h.elf.memsz] at hi
    unfold segmentAddr
    rw [h.elf.vaddr]
    change i < 0x60 at hi
    show u32 (0x400000 + i : Nat) < 0x400060
    rw [u32_of_lt (by omega)]
    omega
  · unfold bimbleosProgramVirtualStackAddressStart at hlt
    omega

/-- It asks for a byte, and gives the block back. -/
theorem bssElf_kept : ∃ k₀ ptr k₁ k₂ tr s, processLoad (segmentDrive bssElf) splitPath bootKernel
      = .ok ((0, 0x1000000), k₀) ∧
    processMalloc 0x1000000 1 k₀ = .ok (ptr, k₁) ∧ ptr ≠ 0 ∧ processFree 0x1000000 ptr k₁ = .ok ((), k₂) ∧
    tr.map Prod.snd = [(0x1000000, MallocCall.malloc 1), (0x1000000, MallocCall.free ptr)] ∧ s.kernel = k₂ ∧
    Throughout (fun s => ProgramKept k₀ 0x1000000 s ∧ DirectoryTaken 0x1000000 s) tr s := by
  obtain ⟨k₀, hload, hready, hfree, hsegment⟩ := segment_boots bssElf_segment bssElf_prefix
  have hloaded := processLoad_loaded bootKernel_liveOk hload
  have hlive₀ := bootKernel_liveOk.load hload
  have htotal := hready.total
  obtain ⟨b, hb, hbfree, _, hmalloc⟩ := processMalloc_one hready (Nat.le_refl 1) (by decide) hfree hsegment.task
    (processFindFreeAllocationIndex_none hloaded.allocations)
  have hptr : runAddress ⟨b, 1⟩ = bimbleosHeapAddress + 4096 * b := rfl
  have hheapStart : bimbleosHeapAddress = 0x1000000 := rfl
  -- what the call does
  have hcall := (OwnCall.start hlive₀ hloaded.live).malloc ⟨_, hloaded.live, rfl⟩ (by decide) hmalloc
  have hshields := ((injectedMallocRule (keptReadyRule k₀.heap.taken k₀.heap) (by decide)).processMalloc k₀ _ _
    (Injected.refl hlive₀.heap.shields.kept) hmalloc).2.1.shields
  have hmallocStep := MallocStep.malloc (s := ⟨k₀, fun _ _ => False⟩) hloaded.live (by decide) hmalloc
  have hprocesses : (k₀.afterMalloc 0x1000000 1 ⟨b, 1⟩ 0 (fill k₀.memory (runAddress ⟨b, 1⟩) 1 0)).processes
      = k₀.processes := rfl
  generalize k₀.afterMalloc 0x1000000 1 ⟨b, 1⟩ 0 (fill k₀.memory (runAddress ⟨b, 1⟩) 1 0) = k₁ at *
  have hlive₁ : k₁.Live 0x1000000 := by
    unfold Kernel.Live
    rw [hprocesses]
    exact hloaded.live
  have htask₁ : (k₁.process 0x1000000).task ≠ 0 := by
    rw [hcall.sameTask]
    exact hsegment.task
  obtain ⟨_, k₂, hfreed, _⟩ := processFree_total htask₁ k₁ (.refl k₁ _)
  refine ⟨k₀, _, k₁, k₂, _, _, hload, hmalloc, by omega, hfreed, ?_, ?_, programPages_kept bootKernel_liveOk hload
    ((Trace.nil.snoc hmallocStep).snoc (.free hlive₁ (by omega) hfreed)) fun q hq => ?_⟩
  · rfl
  · rfl
  simp only [List.nil_append, List.cons_append, List.mem_cons, List.not_mem_nil, or_false] at hq
  rcases hq with rfl | rfl
  · -- the request lies in the heap
    rintro - - start - a ha ⟨hlo, -⟩
    have hlt := bssElf_address hsegment ha
    rw [pagingAlignToLowerPage_eq] at hlo
    omega
  · -- the block was free before
    intro _
    refine ⟨k₀.heap.taken, hshields, hlive₀.livesIn.own hcall subset_rfl, fun htaken => ?_⟩
    rw [hptr, kfreeBlock_block (by omega)] at htaken
    exact htaken.2 hbfree

end BimbleOS
