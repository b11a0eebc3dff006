import BimbleOS.Task.ProcessHeap
import BimbleOS.Memory.HeapSafety
import BimbleOS.Memory.PagingSpec

/-!
# `Task.Isolation` — processes that share the kernel heap

Any number of processes call `malloc` and `free` in any order. Three structures have to stay in step: the
heap table, the allocation table of each process and its page directory. This module says what it means
that they do (`Isolated`, `MallocOwned`), and what one call does to them.
-/

namespace BimbleOS

open CWord Bytes BlockRuns Exec Transition

/-! ## What a process can write to -/

/-- A process that has a slot. -/
def Kernel.Live (k : Kernel) (p : Nat) : Prop :=
  p ≠ 0 ∧ ∃ i, i < bimbleosMaxProcesses ∧ k.processes i = p

/-- `process->task->page_directory`. -/
def Kernel.directoryOf (k : Kernel) (p : Nat) : Nat := (k.tasks.task (k.process p).task).pageDirectory

/-- The entry of a page in the page directory of a process. -/
def Kernel.entry (k : Kernel) (p page : Nat) : BitVec 32 :=
  k.pages.pageEntry (k.pages.directory (k.directoryOf p)) page

/-- Present, writable, and open to user mode. -/
def UserWritable (entry : BitVec 32) : Prop := entry &&& processMallocFlags = processMallocFlags

instance (entry : BitVec 32) : Decidable (UserWritable entry) := inferInstanceAs (Decidable (_ = _))

/-- The address of a page. -/
def IsPage (page : Nat) : Prop := page % 4096 = 0 ∧ page < 4294967296

instance (page : Nat) : Decidable (IsPage page) := inferInstanceAs (Decidable (_ ∧ _))

/-- An address in the kernel heap. -/
def HeapPage (a : Nat) : Prop :=
  bimbleosHeapAddress ≤ a ∧ a < bimbleosHeapAddress + bimbleosHeapSizeBytes

instance (a : Nat) : Decidable (HeapPage a) := inferInstanceAs (Decidable (_ ∧ _))

/-- The heap block of an address. -/
def heapBlockOf (a : Nat) : Nat := (a - bimbleosHeapAddress) / 4096

/-- No heap page is writable for two processes. -/
def Isolated (k : Kernel) : Prop :=
  ∀ p q, k.Live p → k.Live q → p ≠ q → ∀ v w, IsPage v → IsPage w →
    UserWritable (k.entry p v) → UserWritable (k.entry q w) → HeapPage (frameOf (k.entry p v)) →
      frameOf (k.entry p v) ≠ frameOf (k.entry q w)

/-! ## Histories of `malloc` and `free` calls -/

/-- The kernel, and the pages that a `malloc` call has mapped for a process. -/
structure MallocState where
  kernel : Kernel
  mapped : Nat → Nat → Prop

/-- A system call of a process. -/
inductive MallocCall where
  | malloc (size : Nat)
  | free (ptr : Nat)

/-- A call that returns. -/
inductive MallocStep : MallocState → Nat × MallocCall → MallocState → Prop where
  | malloc {s : MallocState} {p size ptr : Nat} {k : Kernel} (hlive : s.kernel.Live p)
      (hsize : size < 4294967296) (hrun : processMalloc p size s.kernel = .ok (ptr, k)) :
      MallocStep s (p, .malloc size)
        ⟨k, fun q page => s.mapped q page ∨ q = p ∧ ptr ≠ 0 ∧ ptr ≤ page ∧ page < ptr + size⟩
  | free {s : MallocState} {p ptr : Nat} {k : Kernel} (hlive : s.kernel.Live p)
      (hptr : ptr < 4294967296) (hrun : processFree p ptr s.kernel = .ok ((), k)) :
      MallocStep s (p, .free ptr) ⟨k, s.mapped⟩

/-- The table records the run as allocated. -/
structure RecordedRun (t : HeapTable) (r : Run) : Prop where
  pos : 0 < r.len
  bound : r.fin ≤ t.totalEntries
  bytes : ∀ i, r.Has i → t.entries i = runByte r i

/-- The slot is in use, and its memory is the run. -/
structure SlotHolds (a : ProcessAllocation) (r : Run) : Prop where
  ptr : a.ptr = bimbleosHeapAddress + 4096 * r.start
  pos : 1 ≤ a.size
  fits : a.size ≤ 4096 * r.len
  tight : 4096 * r.len < a.size + 4096

/-- Some slot of the process holds the run. -/
def Kernel.Holds (k : Kernel) (p : Nat) (r : Run) : Prop :=
  ∃ i, i < bimbleosMaxProgramAllocations ∧ SlotHolds ((k.process p).allocations i) r

/-- What `malloc` has mapped, and the process can write to, lies in a run that the table records for a
    live allocation of the process. -/
def MallocOwned (s : MallocState) : Prop :=
  ∀ p page, s.kernel.Live p → IsPage page → s.mapped p page → UserWritable (s.kernel.entry p page) →
    HeapPage (frameOf (s.kernel.entry p page)) ∧ ∃ r, s.kernel.Holds p r ∧
      RecordedRun s.kernel.heap.table r ∧ r.Has (heapBlockOf (frameOf (s.kernel.entry p page)))

/-- A request that the heap handles correctly: it has a free run for it, or sees that it has none. -/
def HeapTable.MallocOk (t : HeapTable) (size : Nat) : Prop :=
  t.LastTaken ∨ (1 ≤ size ∧ size ≤ 0xFFFFF000 ∧ t.Fits (heapBlocks size))

/-- The condition on a call. -/
def MallocCall.Ok (s : MallocState) : Nat × MallocCall → Prop
  | (_, .malloc size) => s.kernel.heap.table.MallocOk size
  | (_, .free _) => True

/-- The page directories of the live processes. -/
def Kernel.IsDirectory (k : Kernel) (d : Nat) : Prop := ∃ p, k.Live p ∧ k.directoryOf p = d

/-- A heap of the real size and place. -/
structure KernelHeap (heap : Heap) : Prop where
  total : heap.table.totalEntries = 25600
  start : heap.saddr = bimbleosHeapAddress

/-- Every process has an image and a stack of its own, can write to no other heap page, and has no
    allocation. -/
structure MallocStart (image stack : Nat → Run) (s : MallocState) : Prop where
  heap : KernelHeap s.kernel.heap
  runs : ∃ S : RunSet, Encodes s.kernel.heap.table S ∧
    ∀ p, s.kernel.Live p → image p ∈ S.runs ∧ stack p ∈ S.runs
  imageApart : ∀ p q, s.kernel.Live p → s.kernel.Live q → image p = image q → p = q
  stackApart : ∀ p q, s.kernel.Live p → s.kernel.Live q → stack p = stack q → p = q
  imageStack : ∀ p q, s.kernel.Live p → s.kernel.Live q → image p ≠ stack q
  writable : ∀ p page, s.kernel.Live p → IsPage page → UserWritable (s.kernel.entry p page) →
    HeapPage (frameOf (s.kernel.entry p page)) →
      (image p).Has (heapBlockOf (frameOf (s.kernel.entry p page))) ∨
        (stack p).Has (heapBlockOf (frameOf (s.kernel.entry p page)))
  allocations : ∀ p i, s.kernel.Live p → (s.kernel.process p).allocations i = {}
  directories : ∀ p q, s.kernel.Live p → s.kernel.Live q →
    s.kernel.directoryOf p = s.kernel.directoryOf q → p = q
  tables : DirsOk s.kernel.pages s.kernel.IsDirectory
  mapped : ∀ p page, ¬ s.mapped p page

/-! ## One call to the heap -/

/-- `heap_malloc` under its condition fails and changes nothing, or returns a fresh run. -/
theorem heapMalloc_of_mallocOk {heap : Heap} {S : RunSet} {size : Nat} (h : Encodes heap.table S)
    (hheap : KernelHeap heap) (hsize : size < 4294967296) (hok : heap.table.MallocOk size) :
    heapMalloc heap size = (0, heap) ∨
      ∃ (r : Run) (hpos : 0 < r.len) (hap : ∀ q ∈ S.runs, r.Apart q),
        heapMalloc heap size
          = (bimbleosHeapAddress + 4096 * r.start, heapMarkBlocksTaken heap r.start r.len) ∧
        1 ≤ size ∧ size ≤ 4096 * r.len ∧ 4096 * r.len < size + 4096 ∧ r.fin ≤ 25600 ∧
        Encodes (heapMarkBlocksTaken heap r.start r.len).table (S.insert r hpos hap) := by
  have htotal := hheap.total
  have hstart := hheap.start
  rcases Nat.eq_zero_or_pos size with rfl | hpos
  · -- nothing is asked for, and the scan finds the table full
    have hlast : heap.table.LastTaken := by
      rcases hok with hlast | ⟨hpos, _⟩
      · exact hlast
      · exact absurd hpos (Nat.not_succ_le_zero 0)
    rw [heapMalloc_eq]
    rcases heapMallocBlocks_cases heap (heapBlocks 0) (by omega) with ⟨hnull, _⟩ | ⟨s, _, hres⟩
    · exact Or.inl hnull
    · generalize hs : (s : Int) = i at hres
      cases hres with
      | fit hk => exact absurd hk (by decide)
      | tail hlt hfree => exact absurd hlast (ScanResult.tail_last hlt hfree)
      | full => omega
  · have hroom : heap.table.RoomFor size := hok.imp id fun hfits => hfits.2
    rcases heapMalloc_of_roomFor h hpos hsize hroom (by omega)
        (by rw [hstart]; unfold bimbleosHeapAddress; omega) with
      hnull | ⟨r, hlen, hap, hres, hfits, htight, hfin, henc, _⟩
    · exact Or.inl hnull
    · rw [hstart] at hres
      exact Or.inr ⟨r, hlen, hap, hres, hpos, hfits, htight, htotal ▸ hfin, henc⟩

/-- `heap_free` of a null pointer does nothing: its block number is huge. -/
theorem heapFree_null {heap : Heap} (hheap : KernelHeap heap) : heapFree heap 0 = heap := by
  have hblock : u32 (heapAddressToBlock heap 0) = 4294963200 := by
    unfold heapAddressToBlock
    rw [hheap.start]
    rfl
  unfold heapFree heapMarkBlocksFree
  simp only [hblock, hheap.total]
  rfl

/-! ## Mapping the pages of a run -/

/-- The address of a run. -/
def runAddress (r : Run) : Nat := bimbleosHeapAddress + 4096 * r.start

/-- The page tables after a run was mapped onto itself. -/
def PageStore.setRun (s : PageStore) (d : Nat) (r : Run) (flags : BitVec 32) : PageStore :=
  s.setRange d (runAddress r) (runAddress r) flags r.len

section Run

variable {s : PageStore} {ds : Nat → Prop} {d size : Nat} {r : Run} {flags : BitVec 32}

theorem pagingMapTo_run (hfin : r.fin ≤ 25600) (hfits : size ≤ 4096 * r.len)
    (htight : 4096 * r.len < size + 4096) :
    pagingMapTo s d (runAddress r) (runAddress r)
        (pagingAlignAddress (u32 (runAddress r + size : Nat))) flags = (0, s.setRun d r flags) := by
  unfold Run.fin at hfin
  have hptr : runAddress r = 16777216 + 4096 * r.start := rfl
  have hend : pagingAlignAddress (u32 (runAddress r + size : Nat)) = runAddress r + 4096 * r.len := by
    rw [u32_of_lt (by omega), hptr]
    unfold pagingAlignAddress pagingPageSize
    split
    · rw [u32_of_lt (by omega)]
      omega
    · omega
  have hlen : (runAddress r + 4096 * r.len - runAddress r) / 4096 = r.len := by omega
  have halign : runAddress r % 4096 = 0 := by omega
  rw [pagingMapTo_eq, hend, if_pos (by omega), hlen]
  exact Prod.ext (pagingMapRange_pages halign halign (by omega) (by omega)).1 rfl

/-- The page `v` of the run, as the `pageOffset v` pages behind its start. -/
theorem pageOffset_run (hfin : r.fin ≤ 25600) {v : Nat} (hv : IsPage v) :
    pageOffset (runAddress r) v < r.len ↔ runAddress r ≤ v ∧ v < runAddress r + 4096 * r.len := by
  obtain ⟨halign, hlt⟩ := hv
  unfold Run.fin at hfin
  have hptr : runAddress r = 16777216 + 4096 * r.start := rfl
  unfold pageOffset u32
  omega

/-- **Mapping a run** gives its pages the flags, in this directory, and leaves all other entries. -/
theorem DirsOk.setRun (h : DirsOk s ds) (hd : ds d) (hfin : r.fin ≤ 25600) :
    DirsOk (s.setRun d r flags) ds ∧
    ∀ d' v, ds d' → IsPage v →
      (s.setRun d r flags).pageEntry ((s.setRun d r flags).directory d') v
        = if d' = d ∧ runAddress r ≤ v ∧ v < runAddress r + 4096 * r.len then BitVec.ofNat 32 v ||| flags
          else s.pageEntry (s.directory d') v := by
  have hptr : runAddress r = 16777216 + 4096 * r.start := rfl
  have hbound : r.start + r.len ≤ 25600 := hfin
  have halign : runAddress r % 4096 = 0 := by omega
  obtain ⟨hok, hdirs, hentry⟩ := @DirsOk.setRange s ds d (runAddress r) (runAddress r) r.len flags h hd
    halign halign (by omega) (by omega) (by omega)
  refine ⟨hok, fun d' v hd' hv => ?_⟩
  have hpage := hentry d' v hd' hv.1 hv.2
  unfold PageStore.setRun
  rw [hdirs d' hd', hpage]
  have hrange := @pageOffset_run r hfin v hv
  by_cases hin : d' = d ∧ pageOffset (runAddress r) v < r.len
  · have hv' := hrange.mp hin.2
    rw [if_pos hin, if_pos ⟨hin.1, hv'⟩]
    have hself : runAddress r + 4096 * pageOffset (runAddress r) v = v := by
      obtain ⟨haligned, hlt⟩ := hv
      unfold pageOffset u32
      omega
    unfold rangePage
    rw [hself, u32_of_lt hv.2]
  · rw [if_neg hin, if_neg fun hc => hin ⟨hc.1, hrange.mpr hc.2⟩]

/-- What such an entry says. -/
theorem frameOf_run {v : Nat} (hv : IsPage v) (hflags : flags.toNat < 4096) :
    frameOf (BitVec.ofNat 32 v ||| flags) = v :=
  frameOf_or hv.1 hv.2 hflags

theorem userWritable_run {v : Nat} (hv : IsPage v) :
    UserWritable (BitVec.ofNat 32 v ||| flags) ↔ UserWritable flags := by
  unfold UserWritable
  rw [entry_flag hv.1 hv.2 (by decide)]

end Run

/-! ## What the two calls do -/

theorem KernelHeap.mark {heap : Heap} (h : KernelHeap heap) (s k : Nat) :
    KernelHeap (heapMarkBlocksTaken heap s k) where
  total := (heapMarkBlocksTaken_totalEntries heap s k).trans h.total
  start := h.start

theorem KernelHeap.free {heap : Heap} (h : KernelHeap heap) (ptr : Nat) :
    KernelHeap (heapFree heap ptr) where
  total := (heapMarkBlocksFree_totalEntries heap _).trans h.total
  start := h.start

/-- A free slot of the table is one of its slots, and empty. -/
theorem processFindFreeAllocationIndex_ok {process : Process}
    (h : ¬ processFindFreeAllocationIndex process < 0) :
    ∃ i, processFindFreeAllocationIndex process = (i : Nat) ∧ i < bimbleosMaxProgramAllocations ∧
      (process.allocations i).ptr = 0 := by
  unfold processFindFreeAllocationIndex at h ⊢
  split
  · next i hfind =>
      have hempty := List.find?_some hfind
      rw [decide_eq_true_eq] at hempty
      exact ⟨i, rfl, List.mem_range.mp (List.mem_of_find?_eq_some hfind), hempty⟩
  · next hfind =>
      rw [hfind] at h
      exact absurd (by decide : -ENOMEM < 0) h

/-- The kernel after a successful `process_malloc`. -/
def Kernel.afterMalloc (k : Kernel) (p size : Nat) (r : Run) (i : Nat) (m : Mem) : Kernel :=
  { k with
    heap := heapMarkBlocksTaken k.heap r.start r.len
    memory := m
    pages := k.pages.setRun (k.directoryOf p) r processMallocFlags
    process := Function.update k.process p { k.process p with
      allocations := Function.update (k.process p).allocations i ⟨runAddress r, size⟩ } }

/-- A `process_malloc` that gets memory and finds a slot, and whose pages can be mapped. -/
theorem processMalloc_of_ok {k : Kernel} {p size ptr i : Nat} {heap : Heap} {pages : PageStore}
    (hmalloc : heapMalloc k.heap size = (ptr, heap)) (hptr : ptr ≠ 0) (hbound : ptr + size ≤ 4294967296)
    (hindex : processFindFreeAllocationIndex (k.process p) = (i : Nat)) (htask : (k.process p).task ≠ 0)
    (hmap : pagingMapTo k.pages (k.directoryOf p) ptr ptr (pagingAlignAddress (u32 (ptr + size : Nat)))
      processMallocFlags = (0, pages)) :
    processMalloc p size k = .ok (ptr, { k with
      heap := heap
      memory := fill k.memory ptr size 0
      pages := pages
      process := Function.update k.process p { k.process p with
        allocations := Function.update (k.process p).allocations i ⟨ptr, size⟩ } }) := by
  have hz : kzalloc size k = .ok (ptr, { k with heap := heap, memory := fill k.memory ptr size 0 }) := by
    rw [kzalloc_eq, hmalloc]
    simp only [if_neg hptr, if_neg (Nat.not_lt.mpr hbound)]
  have hdir : processPageDirectory p { k with heap := heap, memory := fill k.memory ptr size 0 }
      = .ok (k.directoryOf p, { k with heap := heap, memory := fill k.memory ptr size 0 }) := by
    rw [processPageDirectory_eq, if_neg htask]
    rfl
  unfold processMalloc
  rw [bind_of_ok hz, if_neg hptr, bind_of_ok rfl]
  simp only [hindex]
  rw [if_neg (Int.not_lt.mpr (Int.natCast_nonneg i)), bind_of_ok hdir,
    bind_of_ok (kernelMapTo_eq _ _ _ _ _ _)]
  simp only [hmap]
  rw [if_neg (Int.lt_irrefl 0)]
  rfl

/-- **A request of one block** is served as long as there are a free block and a free slot. -/
theorem processMalloc_one {k : Kernel} {p size i : Nat} (hready : k.heap.Ready) (h₁ : 1 ≤ size) (h₂ : size ≤ 4096)
    (hfree : 0 < k.heap.freeBlocks) (htask : (k.process p).task ≠ 0)
    (hslot : processFindFreeAllocationIndex (k.process p) = (i : Nat)) : ∃ s, s < k.heap.table.totalEntries ∧
      k.heap.table.Free s ∧ (heapMarkBlocksTaken k.heap s 1).freeBlocks + 1 = k.heap.freeBlocks ∧
      processMalloc p size k = .ok (runAddress ⟨s, 1⟩, k.afterMalloc p size ⟨s, 1⟩ i
        (fill k.memory (runAddress ⟨s, 1⟩) size 0)) := by
  have htotal := hready.total
  rcases @heapMalloc_one k.heap size hready h₁ h₂ with ⟨_, hzero⟩ | ⟨s, hs, hsfree, hmalloc, hcount⟩
  · omega
  have hptr : runAddress ⟨s, 1⟩ = 16777216 + 4096 * s := rfl
  rw [hready.start] at hmalloc
  have hfin : Run.fin ⟨s, 1⟩ ≤ 25600 := by
    show s + 1 ≤ 25600
    omega
  have hmap : pagingMapTo k.pages (k.directoryOf p) (runAddress ⟨s, 1⟩) (runAddress ⟨s, 1⟩)
      (pagingAlignAddress (u32 (runAddress ⟨s, 1⟩ + size : Nat))) processMallocFlags
      = (0, k.pages.setRun (k.directoryOf p) ⟨s, 1⟩ processMallocFlags) :=
    pagingMapTo_run hfin (by show size ≤ 4096; omega) (by show 4096 < size + 4096; omega)
  exact ⟨s, hs, hsfree, hcount, processMalloc_of_ok hmalloc (by omega) (by omega) hslot htask hmap⟩

/-- **`process_malloc` under its condition** changes no more than the heap table's bytes and the memory, or
    maps a fresh run and enters it into a free slot. -/
theorem processMalloc_run {k k' : Kernel} {S : RunSet} {p size ptr : Nat}
    (h : Encodes k.heap.table S) (hheap : KernelHeap k.heap) (hsize : size < 4294967296)
    (hok : k.heap.table.MallocOk size) (hrun : processMalloc p size k = .ok (ptr, k')) :
    (ptr = 0 ∧ ∃ heap m, KernelHeap heap ∧ Encodes heap.table S ∧
      k' = { k with heap := heap, memory := m }) ∨
    ∃ (r : Run) (hpos : 0 < r.len) (hap : ∀ q ∈ S.runs, r.Apart q) (i : Nat) (m : Mem),
      ptr = runAddress r ∧ SlotHolds ⟨ptr, size⟩ r ∧ r.fin ≤ 25600 ∧
      Encodes (heapMarkBlocksTaken k.heap r.start r.len).table (S.insert r hpos hap) ∧
      i < bimbleosMaxProgramAllocations ∧ ((k.process p).allocations i).ptr = 0 ∧
      k' = k.afterMalloc p size r i m := by
  unfold processMalloc at hrun
  obtain ⟨a, k₁, hz, hrest⟩ := bind_eq_ok.mp hrun
  rw [kzalloc_eq] at hz
  rcases heapMalloc_of_mallocOk h hheap hsize hok with
    hnull | ⟨r, hpos, hap, hres, hone, hfits, htight, hfin, henc⟩
  · -- the heap has no room
    rw [hnull, if_pos rfl] at hz
    cases hz
    cases hrest
    exact Or.inl ⟨rfl, k.heap, k.memory, hheap, h, rfl⟩
  · have hptr : bimbleosHeapAddress + 4096 * r.start = runAddress r := rfl
    have hbound : runAddress r + size ≤ 4294967296 := by
      unfold Run.fin at hfin
      unfold runAddress bimbleosHeapAddress
      omega
    have hne : runAddress r ≠ 0 := by
      unfold runAddress bimbleosHeapAddress
      omega
    rw [hres] at hz
    simp only [hptr, if_neg hne, if_neg (Nat.not_lt.mpr hbound)] at hz
    cases hz
    rw [if_neg hne] at hrest
    obtain ⟨k₂, k₂', hget, hrest⟩ := bind_eq_ok.mp hrest
    cases hget
    by_cases hfull : processFindFreeAllocationIndex (k.process p) < 0
    · -- the allocation table is full, and the blocks are given back
      rw [if_pos hfull] at hrest
      cases hrest
      have hmem : r ∈ (S.insert r hpos hap).runs := RunSet.mem_insert.mpr (Or.inl rfl)
      have hback := heapFree_of_run henc hmem
        (by rw [(hheap.mark r.start r.len).total]; decide)
      rw [RunSet.erase_insert, heapMarkBlocksTaken_saddr, hheap.start] at hback
      exact Or.inl ⟨rfl, _, _, (hheap.mark r.start r.len).free (runAddress r), hback, rfl⟩
    · obtain ⟨i, hindex, hi, hfree⟩ := processFindFreeAllocationIndex_ok hfull
      rw [if_neg hfull] at hrest
      obtain ⟨d, k₃, hdir, hrest⟩ := bind_eq_ok.mp hrest
      rw [processPageDirectory_eq] at hdir
      split at hdir
      · cases hdir
      · cases hdir
        obtain ⟨res, k₄, hmap, hrest⟩ := bind_eq_ok.mp hrest
        rw [kernelMapTo_eq, pagingMapTo_run hfin hfits htight] at hmap
        cases hmap
        rw [if_neg (Int.lt_irrefl 0)] at hrest
        cases hrest
        refine Or.inr ⟨r, hpos, hap, i, fill k.memory (runAddress r) size 0, rfl,
          ⟨rfl, hone, hfits, htight⟩, hfin, henc, hi, hfree, ?_⟩
        have hindex' : (processFindFreeAllocationIndex (k.process p)).toNat = i := by rw [hindex]; rfl
        unfold Kernel.afterMalloc
        rw [← hindex']
        rfl

theorem SlotHolds.ptr_ne_zero {a : ProcessAllocation} {r : Run} (h : SlotHolds a r) : a.ptr ≠ 0 := by
  rw [h.ptr]
  unfold bimbleosHeapAddress
  omega

/-- The slot that `process_get_allocation_by_addr` finds. -/
theorem processGetAllocationByAddr_some {process : Process} {addr : Nat} {a : ProcessAllocation}
    (h : processGetAllocationByAddr process addr = some a) :
    ∃ i, i < bimbleosMaxProgramAllocations ∧ process.allocations i = a ∧ a.ptr = addr := by
  obtain ⟨i, hfind, rfl⟩ := Option.map_eq_some_iff.mp h
  have hptr := List.find?_some hfind
  rw [decide_eq_true_eq] at hptr
  exact ⟨i, List.mem_range.mp (List.mem_of_find?_eq_some hfind), rfl, hptr⟩

/-- Clearing the free slots of a table changes nothing. -/
theorem processAllocationUnjoin_null {process : Process}
    (h : ∀ i, i < bimbleosMaxProgramAllocations → (process.allocations i).ptr = 0 →
      process.allocations i = {}) : processAllocationUnjoin process 0 = process := by
  have hslots : (fun i => if i < bimbleosMaxProgramAllocations ∧ (process.allocations i).ptr = 0 then {}
      else process.allocations i) = process.allocations := by
    funext i
    split
    · next hi => exact (h i hi.1 hi.2).symm
    · rfl
  unfold processAllocationUnjoin
  rw [hslots]

/-- A `process_free` of a pointer in the table, whose pages can be mapped. -/
theorem processFree_of_ok {k : Kernel} {p ptr : Nat} {a : ProcessAllocation} {pages : PageStore}
    (hfind : processGetAllocationByAddr (k.process p) ptr = some a) (htask : (k.process p).task ≠ 0)
    (hmap : pagingMapTo k.pages (k.directoryOf p) a.ptr a.ptr
      (pagingAlignAddress (u32 (a.ptr + a.size : Nat))) 0x00 = (0, pages)) :
    processFree p ptr k = .ok ((), { k with
      heap := heapFree k.heap ptr
      pages := pages
      process := Function.update k.process p (processAllocationUnjoin (k.process p) ptr) }) := by
  have hdir : processPageDirectory p k = .ok (k.directoryOf p, k) := by
    rw [processPageDirectory_eq, if_neg htask]
    rfl
  unfold processFree
  rw [bind_of_ok rfl]
  simp only [hfind]
  rw [bind_of_ok hdir, bind_of_ok (kernelMapTo_eq _ _ _ _ _ _)]
  simp only [hmap]
  rw [if_neg (Int.lt_irrefl 0)]
  rfl

/-- The kernel after `process_free` of a run. -/
def Kernel.afterFree (k : Kernel) (p : Nat) (r : Run) : Kernel :=
  { k with
    heap := heapFree k.heap (runAddress r)
    pages := k.pages.setRun (k.directoryOf p) r 0x00
    process := Function.update k.process p (processAllocationUnjoin (k.process p) (runAddress r)) }

/-- **`process_free`** does nothing for a pointer that is not in the table, and for the null pointer; a run
    of the process is unmapped and freed. -/
theorem processFree_run {k k' : Kernel} {p ptr : Nat} (hheap : KernelHeap k.heap)
    (hslots : ∀ i, i < bimbleosMaxProgramAllocations → (k.process p).allocations i = {} ∨
      ∃ r : Run, r.fin ≤ 25600 ∧ SlotHolds ((k.process p).allocations i) r)
    (hrun : processFree p ptr k = .ok ((), k')) :
    k' = k ∨ ∃ i r, i < bimbleosMaxProgramAllocations ∧ r.fin ≤ 25600 ∧
      SlotHolds ((k.process p).allocations i) r ∧ k' = k.afterFree p r := by
  unfold processFree at hrun
  obtain ⟨k₁, k₁', hget, hrest⟩ := bind_eq_ok.mp hrun
  cases hget
  rcases hfind : processGetAllocationByAddr (k.process p) ptr with _ | a
  · -- not a pointer of this process
    rw [hfind] at hrest
    cases hrest
    exact Or.inl rfl
  · rw [hfind] at hrest
    obtain ⟨i, hi, ha, rfl⟩ := processGetAllocationByAddr_some hfind
    obtain ⟨d, k₂, hdir, hrest⟩ := bind_eq_ok.mp hrest
    rw [processPageDirectory_eq] at hdir
    split at hdir
    · cases hdir
    · cases hdir
      obtain ⟨res, k₃, hmap, hrest⟩ := bind_eq_ok.mp hrest
      rw [kernelMapTo_eq] at hmap
      rcases hslots i hi with hempty | ⟨r, hfin, hholds⟩
      · -- a free slot: no page is mapped, no slot changes, and the heap ignores the null pointer
        rw [ha] at hempty
        subst hempty
        cases hmap
        have hmapped : pagingMapTo k.pages (k.tasks.task (k.process p).task).pageDirectory 0 0
            (pagingAlignAddress (u32 (0 + 0 : Nat))) 0x00 = (0, k.pages) := rfl
        have hnone : processAllocationUnjoin (k.process p) 0 = k.process p := by
          refine processAllocationUnjoin_null fun j hj hzero => ?_
          rcases hslots j hj with hempty | ⟨r, _, hholds⟩
          · exact hempty
          · exact absurd hzero hholds.ptr_ne_zero
        simp only [hmapped] at hrest
        rw [if_neg (Int.lt_irrefl 0)] at hrest
        cases hrest
        refine Or.inl ?_
        simp only [hnone, Function.update_eq_self, heapFree_null hheap]
      · have hptr : a.ptr = runAddress r := by
          rw [← ha]
          exact hholds.ptr
        have hsize : a.size ≤ 4096 * r.len ∧ 4096 * r.len < a.size + 4096 := by
          rw [← ha]
          exact ⟨hholds.fits, hholds.tight⟩
        rw [hptr, pagingMapTo_run hfin hsize.1 hsize.2] at hmap
        cases hmap
        rw [if_neg (Int.lt_irrefl 0)] at hrest
        cases hrest
        refine Or.inr ⟨i, r, hi, hfin, hholds, ?_⟩
        unfold Kernel.afterFree
        rw [hptr]
        rfl

end BimbleOS
