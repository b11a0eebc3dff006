import BimbleOS.Memory.HeapLoans

/-!
# `Memory.HeapChunks` — runs of blocks that are freed while they are taken

A structure takes a run of blocks, and `kfree` follows the chain of that run. As long as the runs do not overlap,
freeing one leaves the others taken (`Heap.Chunks.freesTaken`), and every request that is answered inside the table is
one more run (`Heap.Chunks.malloc`).

The heap answers with the first run that is long enough, so a request that follows one of a single block is answered if
and only if a run fits behind the first free block (`roomBehind_iff`).
-/

namespace BimbleOS

open CWord Exec

/-! ## Blocks that are freed while they are taken -/

/-- The `size` bytes at `ptr` lie in taken blocks, and so does `ptr` when there are none. -/
def Heap.BufferTaken (heap : Heap) (ptr size : Nat) : Prop :=
  kfreeBlock ptr ∈ heap.taken ∧
    ∀ b, kfreeBlock ptr ≤ b → 4096 * b < 4096 * kfreeBlock ptr + size → b ∈ heap.taken

/-- Pointers that are freed one after the other, each while its block is taken. -/
def Heap.FreesTaken : Heap → List Nat → Prop
  | _, [] => True
  | heap, ptr :: ptrs => kfreeBlock ptr ∈ heap.taken ∧ (heapFree heap ptr).FreesTaken ptrs

/-- The `n` blocks from `ptr` on are taken, and freeing them ends with the last one. -/
structure Heap.Chunk (heap : Heap) (ptr n : Nat) : Prop where
  pos : 0 < n
  taken : ∀ b, kfreeBlock ptr ≤ b → b < kfreeBlock ptr + n → b ∈ heap.taken
  last : ¬ heap.table.HasNext (kfreeBlock ptr + n - 1)

/-- Two chunks that do not overlap, each as a pointer and a number of blocks. -/
def ChunkApart (c c' : Nat × Nat) : Prop :=
  kfreeBlock c.1 + c.2 ≤ kfreeBlock c'.1 ∨ kfreeBlock c'.1 + c'.2 ≤ kfreeBlock c.1

structure Heap.Chunks (chunks : List (Nat × Nat)) (heap : Heap) : Prop where
  chunk : ∀ c ∈ chunks, heap.Chunk c.1 c.2
  apart : chunks.Pairwise ChunkApart

section Chunks

variable {heap heap₀ : Heap} {ptr n b size : Nat} {chunks : List (Nat × Nat)} {c c' : Nat × Nat}

theorem Heap.chunks_nil (heap : Heap) : heap.Chunks [] where
  chunk := fun _ hc => absurd hc List.not_mem_nil
  apart := List.Pairwise.nil

/-- Freeing a chunk frees nothing outside it. -/
theorem Heap.Chunk.free_outside (h : heap.Chunk ptr n) (hout : b < kfreeBlock ptr ∨ kfreeBlock ptr + n ≤ b) :
    b ∉ heap.blocksFrom ptr := by
  rintro ⟨hlo, hchain⟩
  have hpos := h.pos
  rcases hout with hlt | hge
  · omega
  · exact h.last (hchain _ (by omega) (by omega))

/-- A chunk that is apart from the freed one stays. -/
theorem Heap.Chunk.free (h : heap.Chunk c.1 c.2) (h' : heap.Chunk c'.1 c'.2) (hready : heap.Ready)
    (hapart : ChunkApart c c') : (heapFree heap c.1).Chunk c'.1 c'.2 where
  pos := h'.pos
  taken := by
    intro b hlo hhi
    obtain ⟨hlt, htaken⟩ := h'.taken b hlo hhi
    -- the freed chain ends with the other chunk
    have hout : b ∉ heap.blocksFrom c.1 := by
      apply h.free_outside
      unfold ChunkApart at hapart
      omega
    refine ⟨?_, ?_⟩
    · rwa [heapFree_totalEntries hready]
    · unfold HeapTable.Free at htaken ⊢
      rwa [heapFree_outside hready hout]
  last := fun hnext => h'.last (heapFree_hasNext hready hnext)

/-- **Chunks that do not overlap are freed while they are taken.** The induction is on the chunks. -/
theorem Heap.Chunks.freesTaken (h : heap.Chunks chunks) (hready : heap.Ready) :
    heap.FreesTaken (chunks.map Prod.fst) := by
  induction chunks generalizing heap with
  | nil => exact trivial
  | cons c chunks ih =>
      have hfirst := h.chunk c List.mem_cons_self
      obtain ⟨hapart, hrest⟩ := List.pairwise_cons.mp h.apart
      have hpos := hfirst.pos
      refine ⟨hfirst.taken _ (Nat.le_refl _) (by omega), ih ⟨?_, hrest⟩ hready.free⟩
      intro c' hc'
      exact hfirst.free (h.chunk c' (List.mem_cons_of_mem c hc')) hready (hapart c' hc')

/-- Blocks that are kept keep the chunks in them. -/
theorem Heap.Chunks.kept (h : heap₀.Chunks chunks) (hkept : heap₀.Kept heap₀.taken heap) : heap.Chunks chunks where
  chunk := by
    intro c hc
    have hchunk := h.chunk c hc
    have hpos := hchunk.pos
    refine ⟨hpos, fun b hlo hhi => hkept.shields.taken (hchunk.taken b hlo hhi), fun hnext => ?_⟩
    exact hchunk.last ((hkept.next _ (hchunk.taken _ (by omega) (by omega))).mp hnext)
  apart := h.apart

/-- The heap answers with the first run of free blocks that is long enough. -/
theorem heapMalloc_fits (h : heap.Ready) (hpos : 0 < heapBlocks size) (hfits : heap.table.Fits (heapBlocks size)) :
    ∃ s, heap.table.FirstFit (heapBlocks size) s ∧ heapMalloc heap size
      = (bimbleosHeapAddress + 4096 * s, heapMarkBlocksTaken heap s (heapBlocks size)) := by
  have htotal := h.total
  obtain ⟨s, hfirst⟩ := hfits.first
  have hinside := hfirst.inside
  have hstart : heapGetStartBlock heap (heapBlocks size) = s :=
    heapGetStartBlock_of_firstFit hpos hfirst (by omega)
  refine ⟨s, hfirst, ?_⟩
  rw [heapMalloc_eq]
  unfold heapMallocBlocks
  simp only [hstart, Int.not_lt.mpr (Int.natCast_nonneg s), if_false, Int.toNat_natCast]
  rw [heapBlockToAddress_eq (by rw [h.start]; unfold bimbleosHeapAddress; omega), h.start]

/-- A request of one block that is answered fits. -/
theorem Heap.Ready.fits_one (h : heap.Ready) (h₁ : 1 ≤ size) (h₂ : size ≤ 4096) (hne : (heapMalloc heap size).1 ≠ 0) :
    heap.table.Fits 1 := by
  rcases heapMalloc_one h h₁ h₂ with ⟨hnull, _⟩ | ⟨s, hs, hfree, _⟩
  · rw [hnull] at hne
    exact absurd rfl hne
  · refine ⟨s, hs, fun j hlo hhi => ?_⟩
    obtain rfl : j = s := by omega
    exact hfree

/-- A request that is answered inside the table is one more chunk. -/
theorem Heap.Chunks.malloc (h : heap.Chunks chunks) (hclean : heap.Clean) (h₁ : 1 ≤ size) (h₂ : size ≤ 0xFFFFF000)
    (hfits : heap.table.Fits (heapBlocks size)) :
    (heapMalloc heap size).2.Chunks (((heapMalloc heap size).1, heapBlocks size) :: chunks) := by
  have hready := hclean.ready
  have htotal := hready.total
  obtain ⟨hpos, _, _⟩ := heapBlocks_of_le h₁ h₂
  obtain ⟨s, hfirst, heq⟩ := heapMalloc_fits hready hpos hfits
  have hinside := hfirst.inside
  have hblock : kfreeBlock (bimbleosHeapAddress + 4096 * s) = s := kfreeBlock_block (by omega)
  have hkept : heap.Kept heap.taken (heapMalloc heap size).2 :=
    ((keptRule heap.taken heap).malloc hclean.shields.kept (by omega)).1
  refine ⟨?_, List.pairwise_cons.mpr ⟨?_, h.apart⟩⟩
  · intro c hc
    rcases List.mem_cons.mp hc with rfl | hc
    · show (heapMalloc heap size).2.Chunk (heapMalloc heap size).1 (heapBlocks size)
      rw [heq]
      refine ⟨hpos, fun b hlo hhi => ⟨?_, ?_⟩, fun hnext => ?_⟩
      · rw [hblock] at hhi
        rw [heapMarkBlocksTaken_totalEntries]
        omega
      · rw [hblock] at hlo hhi
        exact marked_taken hpos (by omega) hlo hhi
      · rw [hblock] at hnext
        -- the block behind the last one was free, so nothing is chained to it
        have hold := (marked_last hpos (by omega) (by omega) hnext).2
        exact hclean.free _ (by omega) (hfirst.free _ (by omega) (by omega)) hold
    · exact (h.kept hkept).chunk c hc
  · intro c hc
    rw [heq]
    unfold ChunkApart
    rw [hblock]
    have hpos' := (h.chunk c hc).pos
    -- a block in both would have been free and taken
    by_contra hover
    obtain ⟨b, hlo, hhi, hlo', hhi'⟩ : ∃ b, s ≤ b ∧ b < s + heapBlocks size ∧ kfreeBlock c.1 ≤ b ∧
        b < kfreeBlock c.1 + c.2 := ⟨max s (kfreeBlock c.1), by omega, by omega, by omega, by omega⟩
    exact ((h.chunk c hc).taken b hlo' hhi').2 (hfirst.free b hlo hhi)

end Chunks

/-! ## What fits behind the first free block -/

/-- Behind the first free block there is a run of `n` free blocks. -/
def Heap.RoomBehind (heap : Heap) (n : Nat) : Prop :=
  ∃ s i, heap.table.FirstFit 1 s ∧ s < i ∧ i + n ≤ heap.table.totalEntries ∧ heap.table.FreeRun i n

section Room

variable {heap : Heap} {n size : Nat}

/-- Once the first free block is taken, a run fits if it is behind that block. -/
theorem roomBehind_iff (hready : heap.Ready) (h₁ : 1 ≤ size) (h₂ : size ≤ 4096) (hne : (heapMalloc heap size).1 ≠ 0)
    (hn : 0 < n) : heap.RoomBehind n ↔ (heapMalloc heap size).2.table.Fits n := by
  have htotal := hready.total
  have hone := heapBlocks_one h₁ h₂
  have hfits : heap.table.Fits (heapBlocks size) := by
    rw [hone]
    exact hready.fits_one h₁ h₂ hne
  obtain ⟨s, hfirst, heq⟩ := heapMalloc_fits hready (by omega) hfits
  rw [hone] at hfirst heq
  have hinside := hfirst.inside
  have hmark : ∀ b, (heapMarkBlocksTaken heap s 1).table.Free b ↔ heap.table.Free b ∧ b ≠ s :=
    fun b => free_mark_one (by omega)
  rw [heq]
  constructor
  · rintro ⟨s', i, hfirst', hlt, hend, hrun⟩
    -- the first free block is the same one
    have hs : s ≤ s' := by
      by_contra hbefore
      exact hfirst.first s' (by omega) hfirst'.free
    refine ⟨i, ?_, fun j hlo hhi => (hmark j).mpr ⟨hrun j hlo hhi, by omega⟩⟩
    rwa [heapMarkBlocksTaken_totalEntries]
  · rintro ⟨i, hend, hrun⟩
    rw [heapMarkBlocksTaken_totalEntries] at hend
    obtain ⟨hfree, hother⟩ := (hmark i).mp (hrun i (Nat.le_refl i) (by omega))
    -- a run in front of it would start with an earlier free block
    have hbehind : ¬ i < s := by
      intro hbefore
      refine hfirst.first i hbefore fun j hlo hhi => ?_
      obtain rfl : j = i := by omega
      exact hfree
    exact ⟨s, i, hfirst, by omega, hend, fun j hlo hhi => ((hmark j).mp (hrun j hlo hhi)).1⟩

/-- An array of no bytes is no block: the one that is answered stays free. -/
theorem heapMalloc_nothing (hready : heap.Ready) (hused : ∃ b, b ∈ heap.taken) (hne : (heapMalloc heap 0).1 ≠ 0) :
    kfreeBlock (heapMalloc heap 0).1 ∉ (heapMalloc heap 0).2.taken := by
  have htotal := hready.total
  rcases @heapMalloc_answer heap 0 hready with ⟨heq, _⟩ | ⟨s, heq, hlt, hres⟩
  · rw [heq] at hne
    exact absurd rfl hne
  have hnone : heapBlocks 0 = 0 := rfl
  rw [hnone] at heq hres
  -- the answer is block 0 only when no block is taken
  have hpos : 0 < s := by
    rcases Nat.eq_zero_or_pos s with rfl | hpos
    · obtain ⟨b, hb, htaken⟩ := hused
      exact absurd (hres.empty_first hb) htaken
    · exact hpos
  rw [heq, kfreeBlock_block (by omega)]
  intro hin
  apply hin.2
  unfold HeapTable.Free
  rw [heapMarkBlocksTaken_zero_entries hpos (by omega), if_neg (by omega), if_pos rfl]
  rfl

/-- A request whose bytes lie in taken blocks was answered with a run that fits. -/
theorem fits_of_bufferTaken (hready : heap.Ready) (h₁ : 1 ≤ size) (h₂ : size ≤ 0xFFFFF000)
    (hne : (heapMalloc heap size).1 ≠ 0)
    (hbuffer : (heapMalloc heap size).2.BufferTaken (heapMalloc heap size).1 size) :
    heap.table.Fits (heapBlocks size) := by
  have htotal := hready.total
  obtain ⟨hpos, _, hround⟩ := heapBlocks_of_le h₁ h₂
  rcases @heapMalloc_answer heap size hready with ⟨heq, _⟩ | ⟨s, heq, hlt, hres⟩
  · rw [heq] at hne
    exact absurd rfl hne
  rw [heq] at hbuffer
  obtain ⟨_, hall⟩ := hbuffer
  rw [kfreeBlock_block (by omega)] at hall
  obtain ⟨hinside, _⟩ := hall (s + heapBlocks size - 1) (by omega) (by omega)
  rw [heapMarkBlocksTaken_totalEntries] at hinside
  exact ⟨s, by omega, fun j hlo hhi => hres.start.2.2.2 j hlo hhi (by omega)⟩

end Room

/-! ## In the kernel -/

section Kernel

variable {k k' : Kernel} {chunks : List (Nat × Nat)} {size addr : Nat}

theorem kzalloc_heap (hrun : kzalloc size k = .ok (addr, k')) :
    addr = (heapMalloc k.heap size).1 ∧ k'.heap = (heapMalloc k.heap size).2 := by
  obtain ⟨haddr, memory, rfl⟩ := kzalloc_run hrun
  exact ⟨haddr, rfl⟩

/-- A structure of one block is refused when no block is free. -/
theorem kzalloc_refused (hready : k.heap.Ready) (h₁ : 1 ≤ size) (h₂ : size ≤ 4096)
    (hrun : kzalloc size k = .ok (0, k')) : k.heap.freeBlocks = 0 ∧ k'.heap = k.heap := by
  obtain ⟨hnull, hheap⟩ := kzalloc_heap hrun
  rcases heapMalloc_one hready h₁ h₂ with ⟨heq, hfull⟩ | ⟨s, _, _, heq, _⟩
  · exact ⟨hfull, by rw [hheap, heq]⟩
  · rw [heq, hready.start] at hnull
    unfold bimbleosHeapAddress at hnull
    omega

/-- A structure of one block is a chunk. -/
theorem Heap.Chunks.kzalloc_one (h : k.heap.Chunks chunks) (hclean : k.heap.Clean) (h₁ : 1 ≤ size) (h₂ : size ≤ 4096)
    (hrun : kzalloc size k = .ok (addr, k')) (hne : addr ≠ 0) :
    k'.heap.Chunks ((addr, 1) :: chunks) ∧ k'.heap.Clean := by
  obtain ⟨haddr, hheap⟩ := kzalloc_heap hrun
  have hone := heapBlocks_one h₁ h₂
  have hmore := h.malloc hclean h₁ (by omega) (by rw [hone]; exact hclean.ready.fits_one h₁ h₂ (haddr ▸ hne))
  rw [hone] at hmore
  rw [hheap, haddr]
  exact ⟨hmore, (cleanRule.malloc hclean (by omega)).1⟩

end Kernel

end BimbleOS
