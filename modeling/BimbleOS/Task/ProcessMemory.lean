import BimbleOS.Memory.PagingUse
import BimbleOS.Task.IsolationRuns
import BimbleOS.Task.ProcessTerminate

/-!
# `Task.ProcessMemory` — what `process_malloc` and the end of a process do to memory

The functions of `task/process.c` that connect the heap, the allocation table of a process and its page
directory, with everything they leave alone. The allocator enters through what its callers rely on
(`AllocatorMeets`); the heap of the kernel meets it.
-/

namespace BimbleOS

open CWord Bytes BlockRuns Exec

/-! ## What the allocator promises -/

/-- The heap blocks of the `len` pages from `ptr` on. -/
def blocksFrom (ptr len : Nat) : Set Nat :=
  { b | ptr ≤ bimbleosHeapAddress + 4096 * b ∧ bimbleosHeapAddress + 4096 * b < ptr + 4096 * len }

/-- `heap₁` is `heap` with a run of `len` fresh blocks at `ptr` for `size` bytes, and freeing `ptr` gives back
    that run. -/
structure FreshRun (heap heap₁ : Heap) (ptr size len : Nat) : Prop where
  ne : ptr ≠ 0
  aligned : ptr % 4096 = 0
  covers : size ≤ 4096 * len
  noWrap : ptr + 4096 * len < 4294967296
  fresh : ∀ b ∈ blocksFrom ptr len, b ∉ heap.taken
  taken : heap₁.taken = heap.taken ∪ blocksFrom ptr len
  released : (heapFree heap₁ ptr).taken = heap₁.taken \ blocksFrom ptr len

/-- The contract of the allocator for one request: nothing happens, or a fresh run. -/
def AllocatorMeets (k : Kernel) (size : Nat) : Prop :=
  kzalloc size k = .ok (0, k) ∨
    ∃ ptr k₁ len, kzalloc size k = .ok (ptr, k₁) ∧ FreshRun k.heap k₁.heap ptr size len

/-- A run that is given back leaves no trace. -/
theorem FreshRun.restored {heap heap₁ : Heap} {ptr size len : Nat} (h : FreshRun heap heap₁ ptr size len) :
    (heapFree heap₁ ptr).taken = heap.taken := by
  rw [h.released, h.taken]
  ext b
  constructor
  · rintro ⟨hb | hb, hnot⟩
    · exact hb
    · exact absurd hb hnot
  · intro hb
    exact ⟨Or.inl hb, fun hin => h.fresh b hin hb⟩

section Encodes

variable {heap : Heap} {S : RunSet} {r : Run} {size b : Nat} {k : Kernel}

/-- The blocks that are taken are those of the recorded runs. -/
theorem Encodes.mem_taken (h : Encodes heap.table S) : b ∈ heap.taken ↔ S.Covers b := by
  constructor
  · rintro ⟨hb, hnot⟩
    by_contra hno
    exact hnot ((h.free_iff hb).mpr hno)
  · rintro ⟨r, hr, hhas⟩
    have hb : b < heap.table.totalEntries := Nat.lt_of_lt_of_le hhas.2 (h.bound r hr)
    exact ⟨hb, fun hfree => (h.free_iff hb).mp hfree ⟨r, hr, hhas⟩⟩

theorem mem_blocksFrom_run : b ∈ blocksFrom (runAddress r) r.len ↔ r.Has b := by
  have hptr : runAddress r = bimbleosHeapAddress + 4096 * r.start := rfl
  show runAddress r ≤ bimbleosHeapAddress + 4096 * b ∧ _ < _ ↔ r.start ≤ b ∧ b < r.start + r.len
  omega

/-- **The heap of the kernel meets the contract** for a request it has room for, or can tell that it has none. -/
theorem allocatorMeets_of_mallocOk (h : Encodes k.heap.table S) (hheap : KernelHeap k.heap)
    (hsize : size < 4294967296) (hok : k.heap.table.MallocOk size) : AllocatorMeets k size := by
  unfold AllocatorMeets
  rcases heapMalloc_of_mallocOk h hheap hsize hok with
    hnull | ⟨r, hpos, hap, hres, _, hfits, _, hfin, henc⟩
  · left
    rw [kzalloc_eq, hnull]
    rfl
  · right
    have hbound : r.start + r.len ≤ 25600 := hfin
    have hptr : runAddress r = 16777216 + 4096 * r.start := rfl
    have hz : kzalloc size k = .ok (runAddress r, { k with
        heap := heapMarkBlocksTaken k.heap r.start r.len
        memory := fill k.memory (runAddress r) size 0 }) := by
      have hne : runAddress r ≠ 0 := by omega
      have hinside : ¬ 4294967296 < runAddress r + size := by omega
      rw [kzalloc_eq, hres]
      show (if runAddress r = 0 then _ else if 4294967296 < runAddress r + size then _ else _) = _
      rw [if_neg hne, if_neg hinside]
      rfl
    have hmem : r ∈ (S.insert r hpos hap).runs := RunSet.mem_insert.mpr (Or.inl rfl)
    have hback : Encodes (heapFree (heapMarkBlocksTaken k.heap r.start r.len) (runAddress r)).table S := by
      have hfree := heapFree_of_run henc hmem (by rw [(hheap.mark r.start r.len).total]; decide)
      rw [RunSet.erase_insert, heapMarkBlocksTaken_saddr, hheap.start] at hfree
      exact hfree
    have hfresh : ∀ b, r.Has b → ¬ S.Covers b := by
      rintro b hb ⟨q, hq, hqb⟩
      exact (hap q hq).not_has hb hqb
    have htaken : ∀ b, b ∈ (heapMarkBlocksTaken k.heap r.start r.len).taken ↔ r.Has b ∨ S.Covers b := by
      intro b
      rw [henc.mem_taken, RunSet.covers_insert]
    refine ⟨runAddress r, _, r.len, hz, by omega, by omega, hfits, by omega, ?_, ?_, ?_⟩
    · intro b hb hin
      exact hfresh b (mem_blocksFrom_run.mp hb) (h.mem_taken.mp hin)
    · ext b
      rw [Set.mem_union, mem_blocksFrom_run, h.mem_taken, or_comm]
      exact htaken b
    · ext b
      rw [Set.mem_sdiff, mem_blocksFrom_run, hback.mem_taken]
      constructor
      · intro hcovers
        exact ⟨(htaken b).mpr (Or.inr hcovers), fun hb => hfresh b hb hcovers⟩
      · rintro ⟨hin, hnot⟩
        exact ((htaken b).mp hin).resolve_left hnot

end Encodes

/-- A block that is marked taken alone, on a heap whose free blocks have no next one, is a run of its own. -/
theorem freshRun_one {heap : Heap} {s size : Nat} (h : heap.Clean) (hs : s < heap.table.totalEntries)
    (hfree : heap.table.Free s) (h₂ : size ≤ 4096) :
    FreshRun heap (heapMarkBlocksTaken heap s 1) (bimbleosHeapAddress + 4096 * s) size 1 := by
  have htotal := h.ready.total
  have hstart : bimbleosHeapAddress = 16777216 := rfl
  have hready : (heapMarkBlocksTaken heap s 1).Ready :=
    ⟨h.ready.start, by rw [heapMarkBlocksTaken_totalEntries]; exact htotal⟩
  have hblock : kfreeBlock (bimbleosHeapAddress + 4096 * s) = s := kfreeBlock_block (by omega)
  have hmem : ∀ b, b ∈ blocksFrom (bimbleosHeapAddress + 4096 * s) 1 ↔ b = s := by
    intro b
    show _ ≤ _ ∧ _ < _ ↔ _
    omega
  have hnew : ∀ b, b ∈ (heapMarkBlocksTaken heap s 1).taken ↔ b ∈ heap.taken ∨ b = s := by
    intro b
    by_cases hb : b = s
    · refine ⟨fun _ => Or.inr hb, fun _ => ⟨?_, ?_⟩⟩
      · rw [heapMarkBlocksTaken_totalEntries, hb]
        exact hs
      · rw [hb]
        exact marked_taken Nat.one_pos (by omega) (Nat.le_refl s) (by omega)
    · have hentry : (heapMarkBlocksTaken heap s 1).table.entries b = heap.table.entries b := by
        rw [heapMarkBlocksTaken_entries Nat.one_pos (by omega), if_neg (by omega)]
      show (_ ∧ ¬ heapGetEntryType _ = _) ↔ (_ ∧ ¬ heapGetEntryType _ = _) ∨ _
      rw [heapMarkBlocksTaken_totalEntries, hentry]
      exact ⟨Or.inl, fun hor => hor.resolve_right hb⟩
  have hlast : ¬ (heapMarkBlocksTaken heap s 1).table.HasNext s :=
    fun hnext => (marked_last Nat.one_pos (by omega) rfl hnext).1 rfl
  refine ⟨by omega, by omega, by omega, by omega, fun b hb hin => ?_, ?_, ?_⟩
  · rw [(hmem b).mp hb] at hin
    exact hin.2 hfree
  · ext b
    rw [Set.mem_union, hmem]
    exact hnew b
  · ext b
    rw [Set.mem_sdiff, hmem]
    constructor
    · intro hin
      refine ⟨hready.taken_free _ hin, ?_⟩
      rintro rfl
      exact heapFree_inside hready ⟨Nat.le_of_eq hblock, fun j hlo hj => absurd hj (by omega)⟩ hin
    · rintro ⟨⟨hlt, htaken⟩, hne⟩
      have hout : b ∉ (heapMarkBlocksTaken heap s 1).blocksFrom (bimbleosHeapAddress + 4096 * s) := by
        rintro ⟨hlo, hchain⟩
        rw [hblock] at hlo hchain
        exact hlast (hchain s (Nat.le_refl s) (by omega))
      refine ⟨?_, ?_⟩
      · rwa [heapFree_totalEntries hready]
      · unfold HeapTable.Free at htaken ⊢
        rwa [heapFree_outside hready hout]

/-- **A heap whose free blocks have no next one meets the contract** for a request of one block. -/
theorem allocatorMeets_one {k : Kernel} {size : Nat} (h : k.heap.Clean) (h₁ : 1 ≤ size) (h₂ : size ≤ 4096) :
    AllocatorMeets k size := by
  have htotal := h.ready.total
  have hstart : bimbleosHeapAddress = 16777216 := rfl
  unfold AllocatorMeets
  rw [kzalloc_eq]
  rcases heapMalloc_one h.ready h₁ h₂ with ⟨hnone, _⟩ | ⟨s, hs, hfree, hmalloc, _⟩
  · left
    rw [hnone, if_pos rfl]
  · right
    rw [hmalloc, h.ready.start, if_neg (by omega), if_neg (by omega)]
    exact ⟨_, _, 1, rfl, freshRun_one h hs hfree h₂⟩

/-! ## `process_malloc` -/

/-- The number of bytes in the pages of `size` bytes. -/
def pageRound (size : Nat) : Nat := (size + 4095) / 4096 * 4096

/-- Nothing is left of a `process_malloc` that failed. -/
structure MallocFailed (k k' : Kernel) (p : Nat) : Prop where
  heap : k'.heap.taken = k.heap.taken
  slots : ∀ i, (k'.process p).allocations i = (k.process p).allocations i
  pages : ∀ v, k'.entry p v = k.entry p v

/-- What a `process_malloc` that returned `ptr` has changed, in the heap, the table and the page directory. -/
structure MallocGranted (k k' : Kernel) (p ptr size : Nat) : Prop where
  heap : ∃ len, FreshRun k.heap k'.heap ptr size len
  slot : ∃ i, i < bimbleosMaxProgramAllocations ∧ ((k.process p).allocations i).ptr = 0 ∧
    (k'.process p).allocations i = ⟨ptr, size⟩ ∧
    ∀ j, j ≠ i → (k'.process p).allocations j = (k.process p).allocations j
  inside : ∀ v, IsPage v → ptr ≤ v → v < ptr + pageRound size →
    k'.entry p v = BitVec.ofNat 32 v ||| processMallocFlags
  outside : ∀ v, IsPage v → ¬ (ptr ≤ v ∧ v < ptr + pageRound size) → k'.entry p v = k.entry p v

section Malloc

variable {k : Kernel} {p size ptr : Nat} {ds : Nat → Prop}

/-- The end of the pages that are mapped. -/
theorem pagingAlignAddress_end (halign : ptr % 4096 = 0) (hend : ptr + pageRound size < 4294967296) :
    pagingAlignAddress (u32 (ptr + size : Nat)) = ptr + pageRound size := by
  unfold pageRound at hend ⊢
  rw [u32_of_lt (by omega)]
  unfold pagingAlignAddress pagingPageSize
  by_cases hpage : (ptr + size) % 4096 = 0
  · rw [if_neg (not_not.mpr hpage)]
    omega
  · rw [if_pos hpage, u32_of_lt (by omega)]
    omega

/-- The pages of an allocation are mapped to themselves. -/
theorem MappedTo.self {s s' : PageStore} {d : Nat} {flags : BitVec 32} (halign : ptr % 4096 = 0)
    (hend : ptr + pageRound size < 4294967296)
    (h : MappedTo s s' d ptr ptr flags ((ptr + pageRound size - ptr) / 4096)) :
    (∀ v, IsPage v → ptr ≤ v → v < ptr + pageRound size →
      s'.pageEntry (s'.directory d) v = BitVec.ofNat 32 v ||| flags) ∧
    ∀ v, IsPage v → ¬ (ptr ≤ v ∧ v < ptr + pageRound size) →
      s'.pageEntry (s'.directory d) v = s.pageEntry (s.directory d) v := by
  unfold pageRound at hend h ⊢
  constructor
  · rintro v ⟨hpage, hlt⟩ hlo hhi
    have hentry := h.inside ((v - ptr) / 4096) (by omega)
    have hv : ptr + 4096 * ((v - ptr) / 4096) = v := by omega
    rwa [hv, Nat.mod_eq_of_lt hlt] at hentry
  · rintro v ⟨hpage, hlt⟩ hout
    apply h.outside v hpage hlt
    intro i hi heq
    apply hout
    omega

/-- **`process_malloc` under the contract of the allocator** returns 0 without a trace, or maps and records
    exactly the run it was given. -/
theorem processMalloc_spec (htask : (k.process p).task ≠ 0) (hdirs : DirsOk k.pages ds)
    (hd : ds (k.directoryOf p)) (hsize : 1 ≤ size) (halloc : AllocatorMeets k size) :
    ∃ ptr k', processMalloc p size k = .ok (ptr, k') ∧ (ptr = 0 → MallocFailed k k' p) ∧
      (ptr ≠ 0 → MallocGranted k k' p ptr size) := by
  rcases halloc with hnull | ⟨ptr, k₁, len, hgive, hfresh⟩
  · -- the heap gives nothing
    refine ⟨0, k, ?_, fun _ => ⟨rfl, fun _ => rfl, fun _ => rfl⟩, fun h => absurd rfl h⟩
    unfold processMalloc
    rw [bind_of_ok hnull, if_pos rfl]
    rfl
  obtain ⟨hptr, memory, rfl⟩ := kzalloc_run hgive
  by_cases hfull : processFindFreeAllocationIndex (k.process p) < 0
  · -- the allocation table is full, and the run is given back
    refine ⟨0, { k with heap := heapFree (heapMalloc k.heap size).2 ptr, memory := memory }, ?_,
      fun _ => ⟨hfresh.restored, fun _ => rfl, fun _ => rfl⟩, fun h => absurd rfl h⟩
    unfold processMalloc
    rw [bind_of_ok hgive, if_neg hfresh.ne, get_bind]
    dsimp only
    rw [if_pos hfull]
    rfl
  · obtain ⟨i, hindex, hi, hempty⟩ := processFindFreeAllocationIndex_ok hfull
    have halign := hfresh.aligned
    have hcovers := hfresh.covers
    have hwrap := hfresh.noWrap
    have hend : ptr + pageRound size < 4294967296 := by
      unfold pageRound
      omega
    obtain ⟨hres, hmapped⟩ := @pagingMapTo_aligned k.pages ds (k.directoryOf p) ptr ptr (ptr + pageRound size)
      processMallocFlags hdirs hd (by omega) (by omega) hend halign halign (by unfold pageRound; omega)
      (Nat.le_add_right ptr _)
    have hpages : pagingMapTo k.pages (k.directoryOf p) ptr ptr (pagingAlignAddress (u32 (ptr + size : Nat)))
        processMallocFlags
        = (0, (pagingMapTo k.pages (k.directoryOf p) ptr ptr (ptr + pageRound size) processMallocFlags).2) := by
      rw [pagingAlignAddress_end halign hend]
      exact Prod.ext hres rfl
    have hrun := processMalloc_of_ok (k := k) (p := p) (Prod.ext hptr.symm rfl) hfresh.ne (by omega) hindex htask hpages
    refine ⟨ptr, _, hrun, fun h => absurd h hfresh.ne, fun _ => ?_⟩
    obtain ⟨hinside, houtside⟩ := hmapped.self halign hend
    -- the process and its page directory are the old ones
    have hentry : ∀ v, Kernel.entry { k with
        heap := (heapMalloc k.heap size).2
        memory := fill k.memory ptr size 0
        pages := (pagingMapTo k.pages (k.directoryOf p) ptr ptr (ptr + pageRound size) processMallocFlags).2
        process := Function.update k.process p { k.process p with
          allocations := Function.update (k.process p).allocations i ⟨ptr, size⟩ } } p v
        = (pagingMapTo k.pages (k.directoryOf p) ptr ptr (ptr + pageRound size) processMallocFlags).2.pageEntry
          ((pagingMapTo k.pages (k.directoryOf p) ptr ptr (ptr + pageRound size) processMallocFlags).2.directory
            (k.directoryOf p)) v := by
      intro v
      unfold Kernel.entry Kernel.directoryOf
      simp only [Function.update_self]
    refine ⟨⟨len, hfresh⟩, ⟨i, hi, hempty, ?_, ?_⟩, ?_, ?_⟩
    · simp only [Function.update_self]
    · intro j hj
      simp only [Function.update_self, Function.update_of_ne hj]
    · intro v hv hlo hhi
      rw [hentry v]
      exact hinside v hv hlo hhi
    · intro v hv hout
      rw [hentry v]
      exact houtside v hv hout

end Malloc

/-! ## `process_terminate_allocations` -/

/-- Every slot in use holds the start of a run of its own that the heap records. -/
structure HoldsRuns (S : RunSet) (p : Nat) (k : Kernel) : Prop where
  enc : Encodes k.heap.table S
  heap : KernelHeap k.heap
  task : (k.process p).task ≠ 0
  slot : ∀ i, i < bimbleosMaxProgramAllocations → (k.process p).allocations i = {} ∨
    ∃ r ∈ S.runs, ((k.process p).allocations i).ptr = runAddress r ∧
      ((k.process p).allocations i).ptr + ((k.process p).allocations i).size ≤ 0xFFFFF000
  distinct : ∀ i j, i < bimbleosMaxProgramAllocations → j < bimbleosMaxProgramAllocations →
    ((k.process p).allocations i).ptr ≠ 0 →
    ((k.process p).allocations i).ptr = ((k.process p).allocations j).ptr → i = j

/-- The runs in the slots from `i` on, `n` of them. -/
def slotRuns (S : RunSet) (process : Process) (i n : Nat) : Set Run :=
  { r | r ∈ S.runs ∧ ∃ j, i ≤ j ∧ j < i + n ∧ (process.allocations j).ptr = runAddress r }

section Terminate

variable {S : RunSet} {k : Kernel} {p i n : Nat} {process : Process}

theorem runAddress_ne_zero (r : Run) : runAddress r ≠ 0 := by
  unfold runAddress bimbleosHeapAddress
  omega

/-- A slot with the null pointer is an empty one. -/
theorem HoldsRuns.empty_of_null (h : HoldsRuns S p k) (hi : i < bimbleosMaxProgramAllocations)
    (hnull : ((k.process p).allocations i).ptr = 0) : (k.process p).allocations i = {} := by
  rcases h.slot i hi with hempty | ⟨r, _, hptr, _⟩
  · exact hempty
  · exact absurd (hptr.symm.trans hnull) (runAddress_ne_zero r)

/-- The first slot that holds the pointer of slot `i`. -/
theorem processGetAllocationByAddr_of_slot (hi : i < bimbleosMaxProgramAllocations) :
    ∃ j, j < bimbleosMaxProgramAllocations ∧ (process.allocations j).ptr = (process.allocations i).ptr ∧
      processGetAllocationByAddr process (process.allocations i).ptr = some (process.allocations j) := by
  unfold processGetAllocationByAddr
  cases hfind : (List.range bimbleosMaxProgramAllocations).find?
      fun j => decide ((process.allocations j).ptr = (process.allocations i).ptr) with
  | none => exact absurd (decide_eq_true rfl) (List.find?_eq_none.mp hfind i (List.mem_range.mpr hi))
  | some j =>
      have hptr := List.find?_some hfind
      rw [decide_eq_true_eq] at hptr
      exact ⟨j, List.mem_range.mp (List.mem_of_find?_eq_some hfind), hptr, rfl⟩

/-- **Freeing the null pointer of an empty slot changes nothing**: no page is mapped, the empty slots are
    emptied, and the heap looks for a block far behind its table. -/
theorem HoldsRuns.free_null (h : HoldsRuns S p k) (hi : i < bimbleosMaxProgramAllocations)
    (hempty : (k.process p).allocations i = {}) : processFree p 0 k = .ok ((), k) := by
  have hzero : ((k.process p).allocations i).ptr = 0 := by rw [hempty]
  obtain ⟨j, hj, hptr, hfind⟩ := @processGetAllocationByAddr_of_slot i (k.process p) hi
  rw [hzero] at hptr hfind
  rw [h.empty_of_null hj hptr] at hfind
  have hrun := @processFree_of_ok k p 0 {} k.pages hfind h.task rfl
  rw [hrun, heapFree_null h.heap, processAllocationUnjoin_null (fun j hj hnull => h.empty_of_null hj hnull),
    Function.update_eq_self]

/-- One round of the loop: the run of slot `i` is freed, and the slot is empty. -/
theorem HoldsRuns.free_slot (h : HoldsRuns S p k) (hi : i < bimbleosMaxProgramAllocations) :
    ∃ S' k', processFree p ((k.process p).allocations i).ptr k = .ok ((), k') ∧ HoldsRuns S' p k' ∧
      S'.runs = S.runs \ slotRuns S (k.process p) i 1 ∧
      ∀ j, (k'.process p).allocations j = if j = i then {} else (k.process p).allocations j := by
  rcases h.slot i hi with hempty | ⟨r, hr, hptr, hend⟩
  · refine ⟨S, k, ?_, h, ?_, ?_⟩
    · rw [hempty]
      exact h.free_null hi hempty
    · ext q
      refine (and_iff_left ?_).symm
      rintro ⟨_, j, hlo, hhi, hq⟩
      obtain rfl : j = i := by omega
      rw [hempty] at hq
      exact runAddress_ne_zero q hq.symm
    · intro j
      by_cases hj : j = i
      · rw [if_pos hj, hj, hempty]
      · rw [if_neg hj]
  · obtain ⟨j, hj, hsame, hfind⟩ := @processGetAllocationByAddr_of_slot i (k.process p) hi
    have hne : ((k.process p).allocations i).ptr ≠ 0 := hptr ▸ runAddress_ne_zero r
    obtain rfl := h.distinct i j hi hj hne hsame.symm
    have halign : runAddress r % 4096 = 0 := by
      unfold runAddress bimbleosHeapAddress
      omega
    obtain ⟨pages, hmap⟩ : ∃ pages, pagingMapTo k.pages (k.directoryOf p) ((k.process p).allocations i).ptr
        ((k.process p).allocations i).ptr (pagingAlignAddress
          (u32 (((k.process p).allocations i).ptr + ((k.process p).allocations i).size : Nat))) 0x00 = (0, pages) := by
      rw [hptr] at hend ⊢
      generalize ((k.process p).allocations i).size = size at hend ⊢
      rw [pagingAlignAddress_end halign (by unfold pageRound; omega), pagingMapTo_eq,
        if_pos ⟨halign, halign, by unfold pageRound; omega, Nat.le_add_right _ _⟩]
      exact ⟨_, Prod.ext (pagingMapRange_pages halign halign (by omega) (by omega)).1 rfl⟩
    have hrun := processFree_of_ok hfind h.task hmap
    have hslots : ∀ j, (processAllocationUnjoin (k.process p) ((k.process p).allocations i).ptr).allocations j
        = if j = i then {} else (k.process p).allocations j := by
      intro j
      show (if j < bimbleosMaxProgramAllocations ∧ _ then _ else _) = _
      by_cases hji : j = i
      · rw [if_pos hji, if_pos ⟨hji ▸ hi, by rw [hji]⟩]
      · rw [if_neg hji, if_neg]
        rintro ⟨hj, heq⟩
        exact hji (h.distinct i j hi hj hne heq.symm).symm
    have hfreed : Encodes (heapFree k.heap ((k.process p).allocations i).ptr).table (S.erase r) := by
      have hfree := heapFree_of_run h.enc hr (by rw [h.heap.total]; decide)
      rw [h.heap.start] at hfree
      rw [hptr]
      exact hfree
    refine ⟨S.erase r, _, hrun, ⟨hfreed, h.heap.free _, ?_, ?_, ?_⟩, ?_, ?_⟩
    · simp only [Function.update_self]
      exact h.task
    · intro j hj
      simp only [Function.update_self, hslots j]
      by_cases hji : j = i
      · rw [if_pos hji]
        exact Or.inl rfl
      · rw [if_neg hji]
        rcases h.slot j hj with hempty | ⟨q, hq, hqptr, hqend⟩
        · exact Or.inl hempty
        · refine Or.inr ⟨q, RunSet.mem_erase.mpr ⟨hq, ?_⟩, hqptr, hqend⟩
          rintro rfl
          exact hji (h.distinct i j hi hj hne (hptr.trans hqptr.symm)).symm
    · intro a b ha hb hnull heq
      simp only [Function.update_self, hslots] at hnull heq
      by_cases hai : a = i
      · rw [if_pos hai] at hnull
        exact absurd rfl hnull
      · rw [if_neg hai] at hnull heq
        by_cases hbi : b = i
        · rw [if_pos hbi] at heq
          exact absurd heq hnull
        · rw [if_neg hbi] at heq
          exact h.distinct a b ha hb hnull heq
    · ext q
      rw [RunSet.mem_erase]
      show _ ↔ q ∈ S.runs ∧ q ∉ slotRuns S (k.process p) i 1
      refine and_congr_right fun hq => not_congr ?_
      constructor
      · rintro rfl
        exact ⟨hq, i, Nat.le_refl i, Nat.lt_succ_self i, hptr⟩
      · rintro ⟨_, j, hlo, hhi, hqptr⟩
        obtain rfl : j = i := by omega
        exact run_eq_of_address hq hr (hqptr.symm.trans hptr)
    · intro j
      simp only [Function.update_self]
      exact hslots j

/-- The loop empties the slots it passes and frees their runs. -/
theorem processTerminateLoop_run (h : HoldsRuns S p k) (hin : i + n ≤ bimbleosMaxProgramAllocations) :
    ∃ S' k', processTerminateLoop p n i k = .ok ((), k') ∧ HoldsRuns S' p k' ∧
      S'.runs = S.runs \ slotRuns S (k.process p) i n ∧
      ∀ j, (k'.process p).allocations j = if i ≤ j ∧ j < i + n then {} else (k.process p).allocations j := by
  induction n generalizing i k S with
  | zero =>
      refine ⟨S, k, rfl, h, ?_, ?_⟩
      · ext q
        refine (and_iff_left ?_).symm
        rintro ⟨_, j, hlo, hhi, _⟩
        omega
      · intro j
        rw [if_neg (by omega)]
  | succ n ih =>
      obtain ⟨S₁, k₁, hfree, hholds, hruns₁, hslots₁⟩ := h.free_slot (i := i) (by omega)
      obtain ⟨S', k', hrun, hholds', hruns, hslots⟩ := ih hholds (i := i + 1) (by omega)
      refine ⟨S', k', ?_, hholds', ?_, ?_⟩
      · rw [processTerminateLoop, get_bind, bind_of_ok hfree]
        exact hrun
      · -- the run of slot `i`, or one of the later ones
        rw [hruns, hruns₁]
        ext q
        constructor
        · rintro ⟨⟨hq, hfirst⟩, hlater⟩
          refine ⟨hq, ?_⟩
          rintro ⟨_, j, hlo, hhi, hptr⟩
          by_cases hj : j = i
          · exact hfirst ⟨hq, j, hlo, by omega, hptr⟩
          · refine hlater ⟨hruns₁ ▸ ⟨hq, hfirst⟩, j, by omega, by omega, ?_⟩
            rw [hslots₁ j, if_neg hj]
            exact hptr
        · rintro ⟨hq, hnone⟩
          refine ⟨⟨hq, ?_⟩, ?_⟩
          · rintro ⟨_, j, hlo, hhi, hptr⟩
            exact hnone ⟨hq, j, hlo, by omega, hptr⟩
          · rintro ⟨_, j, hlo, hhi, hptr⟩
            rw [hslots₁ j, if_neg (by omega)] at hptr
            exact hnone ⟨hq, j, by omega, by omega, hptr⟩
      · intro j
        rw [hslots j, hslots₁ j]
        by_cases hj : j = i
        · rw [if_pos hj, ite_self, if_pos (by omega)]
        · rw [if_neg hj]
          by_cases hlater : i + 1 ≤ j ∧ j < i + 1 + n
          · rw [if_pos hlater, if_pos (by omega)]
          · rw [if_neg hlater, if_neg (by omega)]

/-- The heap blocks of the allocations of a process. -/
def allocationBlocks (S : RunSet) (process : Process) : Set Nat :=
  { b | ∃ r ∈ S.runs, r.Has b ∧ ∃ i, i < bimbleosMaxProgramAllocations ∧ (process.allocations i).ptr = runAddress r }

/-- **`process_terminate_allocations`** empties every slot and gives back the runs of the allocations, and no
    other block. What it does for an empty slot on its way changes nothing. -/
theorem processTerminateAllocations_spec (h : HoldsRuns S p k) :
    ∃ k', processTerminateAllocations p k = .ok (0, k') ∧
      (∀ i, i < bimbleosMaxProgramAllocations → (k'.process p).allocations i = {}) ∧
      k'.heap.taken = k.heap.taken \ allocationBlocks S (k.process p) ∧
      ∀ n kₙ, n < bimbleosMaxProgramAllocations → processTerminateLoop p n 0 k = .ok ((), kₙ) →
        (kₙ.process p).allocations n = {} → processFree p 0 kₙ = .ok ((), kₙ) := by
  obtain ⟨S', k', hrun, hholds, hruns, hslots⟩ := processTerminateLoop_run (i := 0)
    (n := bimbleosMaxProgramAllocations) h (by omega)
  refine ⟨k', ?_, ?_, ?_, ?_⟩
  · unfold processTerminateAllocations
    rw [bind_of_ok hrun]
    rfl
  · intro i hi
    rw [hslots i, if_pos (by omega)]
  · ext b
    rw [Set.mem_sdiff, hholds.enc.mem_taken, h.enc.mem_taken]
    constructor
    · rintro ⟨r, hr, hb⟩
      rw [hruns] at hr
      refine ⟨⟨r, hr.1, hb⟩, ?_⟩
      rintro ⟨q, hq, hqb, i, hi, hptr⟩
      -- a block lies in one run only
      obtain rfl := RunSet.eq_of_has hr.1 hq hb hqb
      exact hr.2 ⟨hq, i, Nat.zero_le i, by omega, hptr⟩
    · rintro ⟨⟨r, hr, hb⟩, hnone⟩
      refine ⟨r, ?_, hb⟩
      rw [hruns]
      refine ⟨hr, ?_⟩
      rintro ⟨_, i, _, hi, hptr⟩
      exact hnone ⟨r, hr, hb, i, by omega, hptr⟩
  · intro n kₙ hn hpart hempty
    obtain ⟨_, k₁, hrun₁, hholds₁, _, _⟩ := processTerminateLoop_run (i := 0) (n := n) h (by omega)
    rw [hpart] at hrun₁
    cases hrun₁
    exact hholds₁.free_null hn hempty

end Terminate

/-- In every state that `malloc` and `free` calls lead to, the slots are as the end of a process needs them. -/
theorem MallocInv.holdsRuns {own : Nat → Run → Prop} {S : RunSet} {s : MallocState} {p : Nat}
    (h : MallocInv own S s) (hp : s.kernel.Live p) (htask : (s.kernel.process p).task ≠ 0) :
    HoldsRuns S p s.kernel where
  enc := h.enc
  heap := h.heap
  task := htask
  slot := by
    intro i hi
    rcases h.slots p i hp hi with hempty | ⟨r, hr, hslot, _⟩
    · exact Or.inl hempty
    · have hfin : r.start + r.len ≤ 25600 := h.run_le hr
      have hptr := hslot.ptr
      have hfits := hslot.fits
      refine Or.inr ⟨r, hr, hptr, ?_⟩
      unfold bimbleosHeapAddress at hptr
      omega
  distinct := fun i j hi hj hne heq => (h.slotsApart p p i j hp hp hi hj hne heq).2

theorem processMalloc_spec_two :
    ∃ ptr k', processMalloc (heapAt 2062) 4096 twoKernel = .ok (ptr, k') ∧
      (ptr = 0 → MallocFailed twoKernel k' (heapAt 2062)) ∧
      (ptr ≠ 0 → MallocGranted twoKernel k' (heapAt 2062) ptr 4096) :=
  processMalloc_spec (by decide) twoKernel_tables ⟨heapAt 2062, twoKernel_live.mpr (Or.inl rfl), rfl⟩ (by decide)
    (allocatorMeets_of_mallocOk twoHeap_encodes ⟨rfl, rfl⟩ (by decide) twoKernel_mallocOk)

/-- The process of `twoKernel` that has allocated a page is ended. -/
theorem processTerminateAllocations_spec_two : ∃ ptr k S,
    processMalloc (heapAt 2062) 4096 twoKernel = .ok (ptr, k) ∧
    ∃ k', processTerminateAllocations (heapAt 2062) k = .ok (0, k') ∧
      (∀ i, i < bimbleosMaxProgramAllocations → (k'.process (heapAt 2062)).allocations i = {}) ∧
      k'.heap.taken = k.heap.taken \ allocationBlocks S (k.process (heapAt 2062)) ∧
      ∀ n kₙ, n < bimbleosMaxProgramAllocations → processTerminateLoop (heapAt 2062) n 0 k = .ok ((), kₙ) →
        (kₙ.process (heapAt 2062)).allocations n = {} → processFree (heapAt 2062) 0 kₙ = .ok ((), kₙ) := by
  have hlive : twoKernel.Live (heapAt 2062) := twoKernel_live.mpr (Or.inl rfl)
  obtain ⟨S₀, hinv⟩ := twoStart.inv
  have hok : MallocCall.Ok ⟨twoKernel, fun _ _ => False⟩ (heapAt 2062, .malloc 4096) := twoKernel_mallocOk
  obtain ⟨S, hinv'⟩ := hinv.step hok (.malloc hlive (by decide) twoKernel_malloc)
  exact ⟨_, _, S, twoKernel_malloc, processTerminateAllocations_spec (hinv'.holdsRuns hlive (by decide))⟩

end BimbleOS
