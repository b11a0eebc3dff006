import BimbleOS.Task.ElfImage
import BimbleOS.Task.Isolation
import BimbleOS.Task.LoadProgress

/-!
# `Task.ProgramPages` — `malloc` and the pages of the program

`process_malloc` maps a block at its own address, and `process_free` takes the mapping away. The image of a
program is mapped where its file wants it: `elf_is_executable` looks at the entry point only, and nothing
compares the addresses of the segments with the heap. Here is what one call does to the page tables, and what a
load leaves in them.
-/

namespace BimbleOS

open Bytes CWord BlockRuns Exec Transition

/-! ## What a process sees -/

/-- Where the process finds the byte at `a`. -/
def Kernel.translate (k : Kernel) (process a : Nat) : Nat :=
  pagingGetPhysicalAddress k.pages (k.pages.directory (k.directoryOf process)) a

/-- The flags of its page. -/
def Kernel.pageFlags (k : Kernel) (process a : Nat) : BitVec 32 :=
  k.entry process (pagingAlignToLowerPage a) &&& 0xfff

/-- The process finds the byte at `a` where it was in `k`, with the same flags. -/
structure Kernel.SeesSame (k k' : Kernel) (process a : Nat) : Prop where
  address : k'.translate process a = k.translate process a
  flags : k'.pageFlags process a = k.pageFlags process a

theorem isPage_alignToLowerPage {a : Nat} (ha : a < 4294967296) : IsPage (pagingAlignToLowerPage a) := by
  unfold IsPage pagingAlignToLowerPage pagingPageSize
  omega

theorem Kernel.seesSame_of_entry {k k' : Kernel} {process a : Nat} (ha : a < 4294967296)
    (h : k'.entry process (pagingAlignToLowerPage a) = k.entry process (pagingAlignToLowerPage a)) :
    k.SeesSame k' process a := by
  obtain ⟨halign, _⟩ := isPage_alignToLowerPage ha
  refine ⟨?_, ?_⟩
  · unfold Kernel.translate pagingGetPhysicalAddress
    simp only [pagingGet_aligned halign]
    exact congrArg (fun e => u32 (frameOf e + (a - pagingAlignToLowerPage a) : Nat)) h
  · unfold Kernel.pageFlags
    rw [h]

/-! ## Mapping a request -/

/-- The page lies in the `size` bytes at `ptr`. -/
def RequestHas (ptr size page : Nat) : Prop := ptr ≤ page ∧ page < ptr + size

section Map

variable {s s' : PageStore} {ds : Nat → Prop} {d d' ptr size page : Nat} {flags : BitVec 32} {res : Int}

/-- Rounding up adds less than a page. -/
theorem pagingAlignAddress_le {a : Nat} (h : a < 4294967296) : pagingAlignAddress a < a + 4096 := by
  unfold pagingAlignAddress pagingPageSize
  split
  · rw [u32_natCast]
    have hmod := Nat.mod_le (a + 4096 - a % 4096) 4294967296
    omega
  · omega

/-- The pages that are mapped for a request lie in it. -/
theorem requestHas_of_offset (halign : ptr % 4096 = 0) (hptr : ptr < 4294967296) (hpage : IsPage page)
    (hoff : pageOffset ptr page < (pagingAlignAddress (u32 (ptr + size : Nat)) - ptr) / 4096) :
    RequestHas ptr size page := by
  obtain ⟨hpalign, hlt⟩ := hpage
  have hsum : u32 (ptr + size : Nat) ≤ ptr + size := by
    rw [u32_natCast]
    exact Nat.mod_le _ _
  have hle := pagingAlignAddress_le (u32_lt (ptr + size : Nat))
  have hend := pagingAlignAddress_lt (u32_lt (ptr + size : Nat))
  have hendAlign := pagingAlignAddress_aligned (u32 (ptr + size : Nat))
  generalize pagingAlignAddress (u32 (ptr + size : Nat)) = last at *
  have hbetween : ptr ≤ page ∧ page < last := by
    unfold pageOffset u32 at hoff
    omega
  exact ⟨hbetween.1, by omega⟩

/-- Mapping a request leaves the other pages of all directories. -/
theorem pagingMapTo_kept (h : DirsOk s ds) (hd : ds d) (hd' : ds d') (hptr : ptr < 4294967296)
    (hmap : pagingMapTo s d ptr ptr (pagingAlignAddress (u32 (ptr + size : Nat))) flags = (res, s'))
    (hpage : IsPage page) (hout : ¬ (d' = d ∧ RequestHas ptr size page)) :
    s'.pageEntry (s'.directory d') page = s.pageEntry (s.directory d') page := by
  rw [pagingMapTo_eq] at hmap
  split at hmap
  · rename_i hc
    obtain ⟨halign, _, _, hle⟩ := hc
    have hend := pagingAlignAddress_lt (u32_lt (ptr + size : Nat))
    obtain ⟨_, hdirs, hentry⟩ := @DirsOk.setRange s ds d ptr ptr
      ((pagingAlignAddress (u32 (ptr + size : Nat)) - ptr) / 4096) flags h hd halign halign hptr hptr (by omega)
    have hs : s.setRange d ptr ptr flags ((pagingAlignAddress (u32 (ptr + size : Nat)) - ptr) / 4096) = s' :=
      congrArg Prod.snd hmap
    rw [hs] at hdirs hentry
    rw [hdirs d' hd', hentry d' page hd' hpage.1 hpage.2]
    refine if_neg fun hin => hout ⟨hin.1, ?_⟩
    exact requestHas_of_offset halign hptr hpage hin.2
  · have hs : s = s' := congrArg Prod.snd hmap
    rw [← hs]

end Map

/-! ## What the two calls do to the pages -/

/-- What a `process_malloc` that returned has done. -/
inductive MallocRun (k : Kernel) (p size : Nat) : Nat → Kernel → Prop where
  /-- There was no memory, no slot, or the pages could not be mapped. -/
  | refused {heap : Heap} {memory : Mem} : heap.Ready →
      MallocRun k p size 0 { k with heap := heap, memory := memory }
  | mapped {ptr start i : Nat} {heap : Heap} {memory : Mem} {pages : PageStore} : heap.Ready →
      ScanResult k.heap.table (heapBlocks size) (start : Int) → ptr = bimbleosHeapAddress + 4096 * start →
      ptr < 4294967296 → i < bimbleosMaxProgramAllocations → ((k.process p).allocations i).ptr = 0 →
      pagingMapTo k.pages (k.directoryOf p) ptr ptr (pagingAlignAddress (u32 (ptr + size : Nat))) processMallocFlags
        = (0, pages) →
      MallocRun k p size ptr { k with
        heap := heap
        memory := memory
        pages := pages
        process := Function.update k.process p { k.process p with
          allocations := Function.update (k.process p).allocations i ⟨ptr, size⟩ } }

/-- What a `process_free` has done: nothing, or it has unmapped a slot of the table. -/
inductive FreeRun (k : Kernel) (p ptr : Nat) : Kernel → Prop where
  | ignored : FreeRun k p ptr k
  | unmapped {i : Nat} {a : ProcessAllocation} {pages : PageStore} : i < bimbleosMaxProgramAllocations →
      (k.process p).allocations i = a →
      pagingMapTo k.pages (k.directoryOf p) a.ptr a.ptr (pagingAlignAddress (u32 (a.ptr + a.size : Nat))) 0x00
        = (0, pages) →
      FreeRun k p ptr { k with
        heap := heapFree k.heap ptr
        pages := pages
        process := Function.update k.process p (processAllocationUnjoin (k.process p) ptr) }

section Calls

variable {k k' : Kernel} {p size ptr : Nat}

/-- `paging_map_to` succeeds, or does nothing. -/
theorem pagingMapTo_cases {s s' : PageStore} {d virt phys physEnd : Nat} {flags : BitVec 32} {res : Int}
    (hvirt : virt < 4294967296) (hphys : phys < 4294967296)
    (hmap : pagingMapTo s d virt phys physEnd flags = (res, s')) : res = 0 ∨ (res < 0 ∧ s' = s) := by
  rw [pagingMapTo_eq] at hmap
  split at hmap
  · rename_i hc
    have hres := (@pagingMapRange_pages s d virt phys ((physEnd - phys) / 4096) flags hc.1 hc.2.1 hvirt hphys).1
    rw [hmap] at hres
    exact Or.inl hres
  · cases hmap
    exact Or.inr ⟨by decide, rfl⟩

/-- **`process_malloc`** where it returns. -/
theorem processMalloc_mallocRun (hready : k.heap.Ready) (hrun : processMalloc p size k = .ok (ptr, k')) :
    MallocRun k p size ptr k' := by
  obtain ⟨a, k₁, halloc, hrest⟩ := bind_eq_ok.mp hrun
  obtain ⟨ha, memory, rfl⟩ := kzalloc_run halloc
  obtain ⟨hready₁, hanswer⟩ := @heapMalloc_ready size k.heap hready
  by_cases hnull : a = 0
  · rw [if_pos hnull] at hrest
    cases hrest
    exact .refused hready₁
  obtain ⟨start, hscan, hptr, hlt⟩ := hanswer.resolve_left fun hzero => hnull (ha.trans hzero)
  rw [if_neg hnull] at hrest
  obtain ⟨k₁, k₁', hget, hrest⟩ := bind_eq_ok.mp hrest
  cases hget
  by_cases hfull : processFindFreeAllocationIndex (k.process p) < 0
  · rw [if_pos hfull] at hrest
    cases hrest
    exact .refused hready₁.free
  obtain ⟨i, hindex, hi, hslot⟩ := processFindFreeAllocationIndex_ok hfull
  rw [if_neg hfull] at hrest
  obtain ⟨d, k₂, hdir, hmapped⟩ := bind_eq_ok.mp hrest
  rw [processPageDirectory_eq] at hdir
  split at hdir
  · cases hdir
  cases hdir
  obtain ⟨res, k₃, hmap, hdone⟩ := bind_eq_ok.mp hmapped
  rw [kernelMapTo_eq] at hmap
  rw [← ha] at hptr hlt
  rcases hpages : pagingMapTo k.pages (k.tasks.task (k.process p).task).pageDirectory a a
    (pagingAlignAddress (u32 (a + size : Nat))) processMallocFlags with ⟨res', pages⟩
  simp only [hpages] at hmap
  cases hmap
  rcases pagingMapTo_cases hlt hlt hpages with rfl | ⟨hneg, hsame⟩
  · -- the pages are mapped and the slot is taken
    rw [if_neg (by decide)] at hdone
    cases hdone
    have hindex' : (processFindFreeAllocationIndex (k.process p)).toNat = i := by rw [hindex]; rfl
    rw [hindex']
    exact .mapped hready₁ hscan hptr hlt hi hslot hpages
  · rw [if_pos hneg] at hdone
    cases hdone
    rw [hsame]
    exact .refused hready₁.free

/-- **`process_free`** where it returns. -/
theorem processFree_freeRun (hpointers : ∀ i, i < bimbleosMaxProgramAllocations →
    ((k.process p).allocations i).ptr < 4294967296) (hrun : processFree p ptr k = .ok ((), k')) :
    FreeRun k p ptr k' := by
  obtain ⟨k₁, k₁', hget, hrest⟩ := bind_eq_ok.mp hrun
  cases hget
  rcases hfind : processGetAllocationByAddr (k.process p) ptr with _ | a
  · rw [hfind] at hrest
    cases hrest
    exact .ignored
  rw [hfind] at hrest
  obtain ⟨i, hi, ha, _⟩ := processGetAllocationByAddr_some hfind
  obtain ⟨d, k₂, hdir, hmapped⟩ := bind_eq_ok.mp hrest
  rw [processPageDirectory_eq] at hdir
  split at hdir
  · cases hdir
  cases hdir
  obtain ⟨res, k₃, hmap, hdone⟩ := bind_eq_ok.mp hmapped
  rw [kernelMapTo_eq] at hmap
  have hlt : a.ptr < 4294967296 := by
    rw [← ha]
    exact hpointers i hi
  rcases hpages : pagingMapTo k.pages (k.tasks.task (k.process p).task).pageDirectory a.ptr a.ptr
    (pagingAlignAddress (u32 (a.ptr + a.size : Nat))) 0x00 with ⟨res', pages⟩
  simp only [hpages] at hmap
  cases hmap
  rcases pagingMapTo_cases hlt hlt hpages with rfl | ⟨hneg, hsame⟩
  · rw [if_neg (by decide)] at hdone
    cases hdone
    exact .unmapped hi ha hpages
  · rw [if_pos hneg] at hdone
    cases hdone
    rw [hsame]
    exact .ignored

end Calls

/-! ## The addresses of a program -/

/-- The addresses of the program that `process` was made from: the bytes of its segments, as the file describes
    them in `k`, and its stack. -/
def Kernel.ProgramAddress (k : Kernel) (process a : Nat) : Prop :=
  (∃ j i, IsSegment k.memory (elfMemory k.memory (k.process process).image) j ∧
    i < pMemsz k.memory (phdrAt (elfPheader k.memory (elfMemory k.memory (k.process process).image)) j) ∧
    a = segmentAddr k.memory (phdrAt (elfPheader k.memory (elfMemory k.memory (k.process process).image)) j) i) ∨
    InStack a

theorem Kernel.ProgramAddress.lt {k : Kernel} {process a : Nat} (h : k.ProgramAddress process a) : a < 4294967296 := by
  rcases h with ⟨j, i, _, _, rfl⟩ | ⟨_, hlt⟩
  · exact u32_lt _
  · unfold bimbleosProgramVirtualStackAddressStart at hlt
    omega

/-! ## The state after a load -/

/-- The page at `a` is in a block that is taken. -/
def Heap.takenPages (heap : Heap) : Set Nat := { a | a % 4096 = 0 ∧ kfreeBlock a ∈ heap.taken }

/-- The processes of the kernel: their structures, tasks and page directories are in blocks that are taken, and
    each has a page directory of its own. -/
structure Kernel.LiveOk (k : Kernel) : Prop where
  heap : k.heap.Clean
  process : ∀ q, k.Live q → kfreeBlock q ∈ k.heap.taken
  task : ∀ q, k.Live q → kfreeBlock (k.process q).task ∈ k.heap.taken
  dirs : DirsOk k.pages k.IsDirectory
  pages : ∀ d, k.IsDirectory d → k.pages.Within k.heap.takenPages d
  alone : ∀ p q, k.Live p → k.Live q → k.directoryOf p = k.directoryOf q → p = q
  pointers : ∀ q i, k.Live q → i < bimbleosMaxProgramAllocations → ((k.process q).allocations i).ptr < 4294967296

section Load

variable {drive : Drive} {filename : List (BitVec 8)} {k k' : Kernel} {process slot : Nat}

/-- The processes after a load. -/
theorem live_update (hfirst : FirstSlot k slot) (hne : process ≠ 0) (q : Nat)
    (h : k'.processes = Function.update k.processes slot process) : k'.Live q ↔ k.Live q ∨ q = process := by
  unfold Kernel.Live
  rw [h]
  constructor
  · rintro ⟨hq, i, hi, hslot⟩
    by_cases his : i = slot
    · rw [his, Function.update_self] at hslot
      exact Or.inr hslot.symm
    · rw [Function.update_of_ne his] at hslot
      exact Or.inl ⟨hq, i, hi, hslot⟩
  · rintro (⟨hq, i, hi, hslot⟩ | rfl)
    · have his : i ≠ slot := fun heq => hq (by rw [← hslot, heq, hfirst.free])
      exact ⟨hq, i, hi, by rw [Function.update_of_ne his, hslot]⟩
    · exact ⟨hne, slot, hfirst.lt, Function.update_self ..⟩

/-- What a successful load leaves: a process with a page directory of its own, and no allocations. -/
structure LoadedProcess (k k' : Kernel) (process : Nat) : Prop where
  ready : k'.heap.Ready
  live : k'.Live process
  dirs : DirsOk k'.pages k'.IsDirectory
  alone : ∀ q, k'.Live q → k'.directoryOf q = k'.directoryOf process → q = process
  allocations : (k'.process process).allocations = fun _ => {}
  old : ∀ q, k'.Live q → q ≠ process → k.Live q ∧ k'.process q = k.process q

theorem processLoad_loaded (hlive : k.LiveOk) (hrun : processLoad drive filename k = .ok ((0, process), k')) :
    LoadedProcess k k' process := by
  have hfresh₀ := (processLoad_fresh hlive.heap.ready hrun).1
  obtain ⟨slot, k₁, hfirst, halloc, hne, hfilled⟩ := processLoad_zero hrun
  obtain ⟨hptr, memory₁, rfl⟩ := kzalloc_run halloc
  obtain ⟨hshields, hfresh⟩ := (shieldRule k.heap.taken _).malloc hlive.heap.shields
    (show sizeofProcess < 4294967296 by decide)
  rw [← hptr] at hfresh
  obtain ⟨k₂, hfill, hk'⟩ := hfilled _ _ (shieldedRule k.heap.taken _) hshields
  cases hfill with
  | early hneg => exact absurd hneg (by decide)
  | @mapped k₃ heap memory pages₀ pages p stack task d directory tables ip reads hdata hp hstack _ htask htaskOk hP hmade
      hmap =>
      have hother : ∀ q, k.Live q → q ≠ process := fun q hq heq => hfresh (heq ▸ hlive.process q hq)
      have hprocesses : k'.processes = Function.update k.processes slot process := by rw [hk']; rfl
      have hpages : k'.pages = pages := by rw [hk']
      have hnew : k'.process process = p := by
        rw [hk']
        exact Function.update_self ..
      have hold : ∀ q, q ≠ process → k'.process q = k.process q := by
        intro q hq
        rw [hk']
        exact (Function.update_of_ne hq _ _).trans (Function.update_of_ne hq _ _)
      have hptask : p.task = task := by rw [hp]; rfl
      have htasks : ∀ b, (k'.tasks.task b).pageDirectory = if b = task then d else (k.tasks.task b).pageDirectory := by
        intro b
        rw [hk']
        refine (taskNewLink_pageDirectory _ task b).trans ?_
        show (Function.update k.tasks.task task (taskInit process d ip) b).pageDirectory = _
        by_cases hb : b = task
        · rw [if_pos hb, hb, Function.update_self]
          rfl
        · rw [if_neg hb, Function.update_of_ne hb]
      have hdirNew : k'.directoryOf process = d := by
        unfold Kernel.directoryOf
        rw [hnew, hptask, htasks, if_pos rfl]
      have hdirOld : ∀ q, k.Live q → k'.directoryOf q = k.directoryOf q := by
        intro q hq
        have hqt : (k.process q).task ≠ task := fun heq => htaskOk (heq ▸ hlive.task q hq)
        unfold Kernel.directoryOf
        rw [hold q (hother q hq), htasks, if_neg hqt]
      have hlives := fun q => live_update hfirst hne q hprocesses
      -- the pages of the new directory are in blocks that were free
      have hapart : ∀ b ∈ directory :: (tables ++ [d]), b ∉ k.heap.takenPages := fun b hb hin => hmade.ok b hb hin.2
      have hd : d ∈ directory :: (tables ++ [d]) :=
        List.mem_cons_of_mem _ (List.mem_append_right _ (List.mem_singleton.mpr rfl))
      have hnewDir : ∀ d', k.IsDirectory d' → d' ≠ d := fun d' hd' heq => hapart d hd (heq ▸ (hlive.pages d' hd').1)
      have hdirs₀ : DirsOk pages₀ fun d' => k.IsDirectory d' ∨ d' = d :=
        hmade.spec.dirsOk hmade.length hmade.own hlive.dirs (fun _ hb => hb.1) hlive.pages hapart
      have hdirs := (processMapMemory_same hdirs₀ (Or.inr rfl) hmap).ok
      have hIs : ∀ d', k'.IsDirectory d' → k.IsDirectory d' ∨ d' = d := by
        rintro d' ⟨q, hq, rfl⟩
        rcases (hlives q).mp hq with hq | rfl
        · exact Or.inl ⟨q, hq, (hdirOld q hq).symm⟩
        · exact Or.inr hdirNew
      refine ⟨?_, (hlives process).mpr (Or.inr rfl), ?_, fun q hq heq => ?_, ?_, fun q hq hqp => ?_⟩
      · rw [hk']
        exact hP.ready
      · rw [hpages]
        exact hdirs.mono hIs
      · rcases (hlives q).mp hq with hq | rfl
        · rw [hdirOld q hq, hdirNew] at heq
          exact absurd heq (hnewDir _ ⟨q, hq, rfl⟩)
        · rfl
      · exact hfresh₀
      · exact ⟨((hlives q).mp hq).resolve_right hqp, hold q hqp⟩

end Load

/-- **The page tables after a load** are those of a new directory that the program was mapped into. -/
theorem processLoad_mapped {drive : Drive} {filename : List (BitVec 8)} {k k' : Kernel} {process : Nat}
    (hready : k.heap.Ready) (hrun : processLoad drive filename k = .ok ((0, process), k')) : ∃ pages d,
      k'.directoryOf process = d ∧ DirsOk pages (· = d) ∧
      processMapMemory k'.memory pages d (k'.process process) = some (0, k'.pages) := by
  obtain ⟨slot, k₁, _, halloc, _, hfilled⟩ := processLoad_zero hrun
  have hready₁ : k₁.heap.Ready := by
    obtain ⟨_, memory, rfl⟩ := kzalloc_run halloc
    exact (heapMalloc_ready hready).1
  obtain ⟨k₂, hfill, rfl⟩ := hfilled _ _ readyRule hready₁
  cases hfill with
  | early hneg => exact absurd hneg (by decide)
  | @mapped k₃ heap memory pages₀ pages p stack task d directory tables ip reads hdata hp _ _ _ _ _ hmade hmap =>
      have hself : Function.update (k₁.setProcess process {}).process process p process = p := Function.update_self ..
      have hd : ((taskNewLink ((k₁.setProcess process {}).tasks.store task (taskInit process d ip)) task).task
          p.task).pageDirectory = d := by
        have htask : p.task = task := by rw [hp]; rfl
        rw [htask, taskNewLink_pageDirectory]
        have hstored : ((k₁.setProcess process {}).tasks.store task (taskInit process d ip)).task task
            = taskInit process d ip := Function.update_self ..
        rw [hstored]
        rfl
      refine ⟨pages₀, d, ?_, hmade.dirsOk, ?_⟩
      · unfold Kernel.directoryOf
        simp only [hself]
        exact hd
      · simp only [hself]
        exact hmap

/-! ## Programs of one segment -/

/-- A file of 84 bytes in cluster 5. -/
def segmentFile : FatDirectoryItem where
  filename := [0x41]
  ext := []
  attr := 0
  high16BitsFirstCluster := 0
  low16BitsFirstCluster := 5
  filesize := 84

def segmentDrive (elf : List (BitVec 8)) : Drive where
  disk := { sector := fun lba i => if lba = 13 then elf.getD i 0 else 0 }
  filesystem := some { fs := smallFat, rootDirectory := { item := [segmentFile], total := 1 } }

/-- The record of the file at `0x1003000`, and the file at `0x100b000`. -/
structure SegmentAt (elf : List (BitVec 8)) (m : Mem) : Prop where
  memory : elfMemory m 0x1003000 = 0x100b000
  image : ∀ j, j < 84 → m (0x100b000 + j) = elf.getD j 0

/-- The file has one program header, behind its own header, which maps the file from its start on. -/
structure OneSegment (elf : List (BitVec 8)) : Prop where
  phnum : load16 (fun j => elf.getD j 0) 44 = 1
  phoff : load32 (fun j => elf.getD j 0) 28 = 52
  type : load32 (fun j => elf.getD j 0) (52 + 0) = ptLoad
  offset : load32 (fun j => elf.getD j 0) (52 + 4) = 0
  memsz : (load32 (fun j => elf.getD j 0) (52 + 20)).toNat ≤ 0x6400000

namespace SegmentAt

variable {elf : List (BitVec 8)} {m : Mem} (h : SegmentAt elf m)

include h

theorem phnum (he : OneSegment elf) : ePhnum m 0x100b000 = 1 := by
  have hload := load16_of_image h.image (show 44 + 2 ≤ 84 by decide)
  unfold ePhnum
  rw [hload, he.phnum]
  decide

theorem pheader (he : OneSegment elf) : elfPheader m 0x100b000 = 0x100b034 := by
  have hload := load32_of_image h.image (show 28 + 4 ≤ 84 by decide)
  unfold elfPheader ePhoff
  rw [hload, he.phoff]
  decide

/-- The dwords of the program header. -/
theorem phdr {i : Nat} (hi : i + 4 ≤ 32) : load32 m (0x100b034 + i) = load32 (fun j => elf.getD j 0) (52 + i) := by
  have hload := load32_of_image h.image (show 52 + i + 4 ≤ 84 by omega)
  rw [← hload, ← Nat.add_assoc]

theorem type (he : OneSegment elf) : pType m 0x100b034 = ptLoad := by
  have hload := h.phdr (show 0 + 4 ≤ 32 by decide)
  unfold pType
  rw [← Nat.add_zero 0x100b034, hload, he.type]

theorem vaddr : pVaddr m 0x100b034 = (load32 (fun j => elf.getD j 0) (52 + 8)).toNat := by
  unfold pVaddr
  rw [h.phdr (show 8 + 4 ≤ 32 by decide)]

theorem memsz : pMemsz m 0x100b034 = (load32 (fun j => elf.getD j 0) (52 + 20)).toNat := by
  unfold pMemsz
  rw [h.phdr (show 20 + 4 ≤ 32 by decide)]

theorem physical (he : OneSegment elf) : elfPhdrPhysAddress m 0x1003000 0x100b034 = 0x100b000 := by
  have hoffset := h.phdr (show 4 + 4 ≤ 32 by decide)
  unfold elfPhdrPhysAddress pOffset
  rw [h.memory, hoffset, he.offset]
  decide

theorem first (he : OneSegment elf) : phdrFirst m 0x1003000 0x100b034 = 0x100b000 := by
  unfold phdrFirst
  rw [h.physical he]
  decide

theorem last (he : OneSegment elf) : phdrLast m 0x1003000 0x100b034
    = pagingAlignAddress (0x100b000 + (load32 (fun j => elf.getD j 0) (52 + 20)).toNat) := by
  have hmemsz := he.memsz
  unfold phdrLast
  rw [h.physical he, h.memsz, u32_of_lt (by omega)]

theorem maps (he : OneSegment elf) : PhdrMaps m 0x1003000 0x100b034 := by
  have hmemsz := he.memsz
  unfold PhdrMaps
  rw [h.first he, h.last he]
  unfold pagingAlignAddress pagingPageSize
  split
  · rw [u32_of_lt (by omega)]
    omega
  · omega

/-- The bytes of the record and of the file are sheltered. -/
theorem congr {B : Set Nat} {m' : Mem} (h₃ : 3 ∈ B) (h₁₁ : 11 ∈ B) (hsame : ∀ a, InShelter B a → m' a = m a) :
    SegmentAt elf m' where
  memory := by
    rw [← h.memory]
    unfold elfMemory
    refine congrArg BitVec.toNat (load32_congr fun i hi => hsame _ (Or.inr ⟨3, h₃, ?_⟩))
    unfold bimbleosHeapAddress
    omega
  image := fun j hj => by
    rw [← h.image j hj]
    refine hsame _ (Or.inr ⟨11, h₁₁, ?_⟩)
    unfold bimbleosHeapAddress
    omega

end SegmentAt

/-- What a load of the program has done in front of the page directory. -/
def segmentPlaced (elf : List (BitVec 8)) (r : Nat × Int × Nat × Nat) (k : Kernel) : Bool :=
  decide (r = (0x1000000, 0, 0x1007000, 0x100c000)) &&
  decide ((k.process 0x1000000).filetype = processFiletypeElf ∧ (k.process 0x1000000).image = 0x1003000 ∧
    (k.process 0x1000000).member = some .elfFile ∧ (k.process 0x1000000).stack = 0x1007000) &&
  decide (elfMemory k.memory 0x1003000 = 0x100b000) &&
  (List.range 84).all (fun j => decide (k.memory (0x100b000 + j) = elf.getD j 0)) &&
  decide (k.heap.table.totalEntries = 25600 ∧ ¬ k.heap.table.Free 3 ∧ ¬ k.heap.table.Free 11)

/-- The program is in memory, as the process of `k`. -/
structure SegmentLoaded (elf : List (BitVec 8)) (k : Kernel) : Prop where
  elf : SegmentAt elf k.memory
  filetype : (k.process 0x1000000).filetype = processFiletypeElf
  image : (k.process 0x1000000).image = 0x1003000
  member : (k.process 0x1000000).member = some .elfFile
  stack : (k.process 0x1000000).stack = 0x1007000
  task : (k.process 0x1000000).task ≠ 0

section Segment

variable {elf : List (BitVec 8)} {k k₄ : Kernel} {r : Nat × Int × Nat × Nat}

/-- The program is loaded when there is room for the page directory. -/
theorem segment_loads_of (he : OneSegment elf) (hclean : k.heap.Clean) (hfirst : FirstSlot k 0)
    (hsteps : loadPrefix (segmentDrive elf) splitPath 0 k = .ok (r, k₄)) (hplaced : segmentPlaced elf r k₄ = true)
    (hcount : 1026 ≤ k₄.heap.freeBlocks) : ∃ k₀, processLoad (segmentDrive elf) splitPath k = .ok ((0, 0x1000000), k₀) ∧
      k₀.heap.freeBlocks + 1026 = k₄.heap.freeBlocks ∧ Sheltered k₄.heap.taken ∅ k₄.memory k₀ ∧
      SegmentLoaded elf k₀ := by
  unfold segmentPlaced at hplaced
  simp only [Bool.and_eq_true, decide_eq_true_eq, List.all_eq_true, List.mem_range] at hplaced
  obtain ⟨⟨⟨⟨rfl, hfile, himage, hmember, hstack⟩, hmemory⟩, hbytes⟩, htotal, htaken₃, htaken₁₁⟩ := hplaced
  have helf : SegmentAt elf k₄.memory := ⟨hmemory, hbytes⟩
  have h₃ : 3 ∈ k₄.heap.taken := ⟨by rw [htotal]; decide, htaken₃⟩
  have h₁₁ : 11 ∈ k₄.heap.taken := ⟨by rw [htotal]; decide, htaken₁₁⟩
  have htag : unionMember (k₄.process 0x1000000).filetype = some .elfFile := by
    rw [hfile]
    rfl
  obtain ⟨k₀, hload, hblocks, hshelter, hprocess, _⟩ := processLoad_of_prefix hclean hfirst hsteps (by decide)
    (by decide) (by decide) hcount htag fun m s d hsame => by
      have hm := helf.congr h₃ h₁₁ hsame
      refine processMapMemory_of_headers hfile himage hm.memory fun i hi => ?_
      rw [hm.phnum he] at hi
      obtain rfl : i = 0 := by omega
      rw [hm.pheader he]
      exact hm.maps he
  refine ⟨k₀, hload, hblocks, hshelter, helf.congr h₃ h₁₁ hshelter.memory, ?_, ?_, ?_, ?_, ?_⟩
  · rw [hprocess]
    exact hfile
  · rw [hprocess]
    exact himage
  · rw [hprocess]
    exact hmember
  · rw [hprocess]
    exact hstack
  · rw [hprocess]
    exact (by decide : (0x100c000 : Nat) ≠ 0)

/-- After the boot there is room. -/
def segmentCheck (elf : List (BitVec 8)) (r : Nat × Int × Nat × Nat) (k : Kernel) : Bool :=
  segmentPlaced elf r k && decide (k.heap.table.totalEntries = 25600) &&
    (List.range 1030).all fun i => decide (k.heap.table.Free (40 + i))

theorem segmentCheck_blocks (hcheck : segmentCheck elf r k₄ = true) :
    segmentPlaced elf r k₄ = true ∧ 1030 ≤ k₄.heap.freeBlocks := by
  unfold segmentCheck at hcheck
  simp only [Bool.and_eq_true, decide_eq_true_eq, List.all_eq_true, List.mem_range] at hcheck
  obtain ⟨⟨hplaced, htotal⟩, hfree⟩ := hcheck
  have hrun : k₄.heap.table.FreeRun 40 1030 := by
    intro i hlo hhi
    have hi := hfree (i - 40) (by omega)
    rwa [Nat.add_sub_cancel' hlo] at hi
  exact ⟨hplaced, freeBlocks_of_run hrun (by rw [htotal]; decide)⟩

theorem segment_boots (he : OneSegment elf)
    (hsteps : ∃ r k, loadPrefix (segmentDrive elf) splitPath 0 bootKernel = .ok (r, k) ∧ segmentCheck elf r k = true) :
    ∃ k₀, processLoad (segmentDrive elf) splitPath bootKernel = .ok ((0, 0x1000000), k₀) ∧ k₀.heap.Ready ∧
      0 < k₀.heap.freeBlocks ∧ SegmentLoaded elf k₀ := by
  obtain ⟨r, k₄, hsteps, hcheck⟩ := hsteps
  obtain ⟨hplaced, hcount⟩ := segmentCheck_blocks hcheck
  have hfirst : FirstSlot bootKernel 0 := ⟨by decide, rfl, fun j hj => absurd hj (Nat.not_lt_zero j)⟩
  obtain ⟨k₀, hload, hblocks, hshelter, hloaded⟩ :=
    segment_loads_of he bootKernel_clean hfirst hsteps hplaced (by omega)
  exact ⟨k₀, hload, hshelter.shields.ready, by omega, hloaded⟩

end Segment

/-- An ELF file with one loadable segment, read only, of `0x6400000` bytes at `0x1000000`: the addresses of the
    heap. -/
def heapElf : List (BitVec 8) := [
  0x7f, 0x45, 0x4c, 0x46, 1, 1, 0, 0, 0, 0, 0, 0, 0, 0, 0, 0,
  2, 0, 3, 0, 1, 0, 0, 0, 0x54, 0, 0x40, 0, 52, 0, 0, 0, 0, 0, 0, 0,
  0, 0, 0, 0, 52, 0, 32, 0, 1, 0, 0, 0, 0, 0, 0, 0,
  1, 0, 0, 0, 0, 0, 0, 0, 0, 0, 0, 1, 0, 0, 0, 0,
  84, 0, 0, 0, 0, 0, 0x40, 6, 5, 0, 0, 0, 0, 0x10, 0, 0]

def heapElfDrive : Drive := segmentDrive heapElf

theorem heapElf_segment : OneSegment heapElf := ⟨by decide, by decide, by decide, by decide, by decide⟩

theorem heapElf_prefix : ∃ r k, loadPrefix heapElfDrive splitPath 0 bootKernel = .ok (r, k) ∧
    segmentCheck heapElf r k = true :=
  exists_of_check (by decide +kernel)

theorem bootKernel_liveOk : bootKernel.LiveOk := by
  have hnone : ∀ q, ¬ bootKernel.Live q := by
    rintro q ⟨hne, i, _, hslot⟩
    exact hne hslot.symm
  have hdirs : ∀ d, ¬ bootKernel.IsDirectory d := fun d ⟨q, hq, _⟩ => hnone q hq
  exact ⟨bootKernel_clean, fun q hq => absurd hq (hnone q), fun q hq => absurd hq (hnone q),
    ⟨fun d hd => absurd hd (hdirs d), fun d _ _ _ hd => absurd hd (hdirs d), fun d _ _ hd => absurd hd (hdirs d)⟩,
    fun d hd => absurd hd (hdirs d), fun p _ hp => absurd hp (hnone p), fun q _ hq => absurd hq (hnone q)⟩

/-- A table without allocations has its first slot free. -/
theorem processFindFreeAllocationIndex_none {p : Process} (h : p.allocations = fun _ => {}) :
    processFindFreeAllocationIndex p = (0 : Nat) := by
  have hfind :
      (List.range bimbleosMaxProgramAllocations).find? (fun i => decide ((p.allocations i).ptr = 0)) = some 0 := by
    rw [h]
    exact List.find?_range_eq_some.mpr ⟨decide_eq_true rfl, List.mem_range.mpr (by decide),
      fun j hj => absurd hj (Nat.not_lt_zero j)⟩
  unfold processFindFreeAllocationIndex
  rw [hfind]

end BimbleOS
