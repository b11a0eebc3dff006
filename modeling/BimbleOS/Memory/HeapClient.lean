import BimbleOS.Memory.HeapRoom

/-!
# `Memory.HeapClient` — what a client of the heap leaves alone

A part of the kernel that allocates and frees keeps a fact about the heap when its requests keep it and
when it only gives back pointers that may be given back (`HeapRule`). The rule that is used is `shieldRule`:
a set of taken blocks stays as it is as long as nobody gives back an address in it and no run from outside
goes on into it (`Heap.Shields`). The blocks that are taken at some moment are such a set, because free
entries never carry `HAS_NEXT` (`Heap.Clean`).
-/

namespace BimbleOS

open CWord

/-- A fact about the heap that a client keeps: every request keeps it and answers with a pointer that may
    be given back, and giving back such a pointer keeps it. -/
structure HeapRule (P : Heap → Prop) (Ok : Nat → Prop) : Prop where
  malloc : ∀ {heap : Heap} {size : Nat}, P heap → size < 4294967296 →
    P (heapMalloc heap size).2 ∧ Ok (heapMalloc heap size).1
  free : ∀ {heap : Heap} {ptr : Nat}, P heap → Ok ptr → P (heapFree heap ptr)

/-- No fact at all. -/
theorem HeapRule.trivial : HeapRule (fun _ => True) (fun _ => True) :=
  ⟨fun _ _ => ⟨True.intro, True.intro⟩, fun _ _ => True.intro⟩

/-- A series of requests. -/
theorem HeapRule.series {P : Heap → Prop} {Ok : Nat → Prop} {heap : Heap} {sizes : List Nat} (hr : HeapRule P Ok)
    (hP : P heap) (hsizes : ∀ size ∈ sizes, size < 4294967296) :
    P (heapAfter heap sizes) ∧ ∀ a ∈ heapAnswers heap sizes, Ok a := by
  induction sizes generalizing heap with
  | nil => exact ⟨hP, fun a ha => absurd ha List.not_mem_nil⟩
  | cons size sizes ih =>
      obtain ⟨hP₁, hok⟩ := hr.malloc hP (hsizes size List.mem_cons_self)
      obtain ⟨hP', hall⟩ := ih hP₁ fun q hq => hsizes q (List.mem_cons_of_mem size hq)
      refine ⟨hP', fun a ha => ?_⟩
      rcases List.mem_cons.mp ha with rfl | ha
      · exact hok
      · exact hall a ha

/-! ## Shields -/

/-- The blocks that are taken. -/
def Heap.taken (heap : Heap) : Set Nat := { b | b < heap.table.totalEntries ∧ ¬ heap.table.Free b }

/-- The kernel's heap, whose free entries do not go on. -/
structure Heap.Clean (heap : Heap) : Prop where
  ready : heap.Ready
  free : ∀ i, i < heap.table.totalEntries → heap.table.Free i → ¬ heap.table.HasNext i

/-- The blocks of `B` are taken, no block outside goes on into `B`, and the blocks of `E` are last ones. -/
structure Heap.Shields (B E : Set Nat) (heap : Heap) : Prop where
  ready : heap.Ready
  taken : B ⊆ heap.taken
  border : ∀ i, i ∉ B → i + 1 ∈ B → ¬ heap.table.HasNext i
  ends : ∀ b ∈ E, b ∈ B ∧ ¬ heap.table.HasNext b

/-- The block that `kfree` starts at. -/
def kfreeBlock (ptr : Nat) : Nat := u32 ((s32 (ptr - bimbleosHeapAddress)).tdiv bimbleosHeapBlockSize)

/-- Giving back `ptr` starts at none of the blocks. -/
def Misses (B : Set Nat) (ptr : Nat) : Prop := kfreeBlock ptr ∉ B

theorem kfreeBlock_block {s : Nat} (hs : s < 524288) : kfreeBlock (bimbleosHeapAddress + 4096 * s) = s := by
  have hdist : ((bimbleosHeapAddress + 4096 * s : Nat) : Int) - bimbleosHeapAddress = 4096 * s := by omega
  unfold kfreeBlock bimbleosHeapBlockSize
  rw [hdist, s32_of_range (by omega) (by omega), Int.tdiv_eq_ediv_of_nonneg (by omega)]
  unfold u32
  omega

/-- On the kernel's heap that is the block of `heap_address_to_block`. -/
theorem heapFree_table {heap : Heap} (h : heap.Ready) (ptr : Nat) : (heapFree heap ptr).table =
    heapFreeLoop heap.table (kfreeBlock ptr) (heap.table.totalEntries - kfreeBlock ptr) := by
  have hblock : kfreeBlock ptr = u32 (heapAddressToBlock heap ptr) := by
    unfold kfreeBlock heapAddressToBlock
    rw [h.start]
  rw [hblock]
  rfl

theorem kfreeBlock_null : kfreeBlock 0 = 4294963200 := by decide

section Rules

variable {heap : Heap} {B E : Set Nat} {b s k size ptr : Nat}

theorem hasNext_taken (entry : HeapBlockTableEntry) :
    (entry ||| heapBlockTableEntryTaken) &&& heapBlockHasNext = entry &&& heapBlockHasNext := by
  have hzero : heapBlockTableEntryTaken &&& heapBlockHasNext = 0#8 := by decide
  rw [BitVec.and_comm, BitVec.and_or_distrib_left, BitVec.and_comm heapBlockHasNext heapBlockTableEntryTaken,
    hzero, BitVec.or_zero, BitVec.and_comm]

theorem taken_or (entry flags : HeapBlockTableEntry) :
    heapGetEntryType (entry ||| (heapBlockTableEntryTaken ||| flags)) ≠ heapBlockTableEntryFree := by
  intro h
  have hbit := congrArg (fun v => v.getLsbD 0) h
  simp [heapGetEntryType, heapBlockTableEntryTaken, heapBlockTableEntryFree] at hbit

/-- A marked block is taken. -/
theorem marked_taken (hk : 0 < k) (h : s + k ≤ 4294967296) (hlo : s ≤ b) (hhi : b < s + k) :
    ¬ (heapMarkBlocksTaken heap s k).table.Free b := by
  unfold HeapTable.Free
  rw [heapMarkBlocksTaken_entries hk h, if_pos ⟨hlo, hhi⟩]
  by_cases hlast : b + 1 < s + k
  · rw [if_pos hlast]
    exact taken_or _ _
  · have htaken := taken_or (if b = s then heapBlockIsFirst else heap.table.entries b) 0#8
    rw [BitVec.or_zero] at htaken
    rwa [if_neg hlast]

/-- An empty request that is answered with the first block marks the whole table. -/
theorem marked_all (hb : b < 4294967295) : ¬ (heapMarkBlocksTaken heap 0 0).table.Free b := by
  have hend : u32 ((0 : Nat) + (0 : Nat) - 1) = 4294967295 := by decide
  have hcount : 4294967295 - 0 = 4294967295 := rfl
  unfold HeapTable.Free heapMarkBlocksTaken
  simp only [hend, hcount, HeapTable.set_entries, heapMarkLoop_entries]
  rw [if_neg (by omega), if_pos (by omega)]
  exact taken_or _ _

/-- The other marked blocks go on. -/
theorem marked_next (h : s + k ≤ 4294967296) (hlo : s ≤ b) (hhi : b + 1 < s + k) :
    (heapMarkBlocksTaken heap s k).table.HasNext b := by
  intro hzero
  rw [heapMarkBlocksTaken_entries (by omega) h, if_pos ⟨hlo, by omega⟩, if_pos hhi] at hzero
  have hbit := congrArg (fun v => v.getLsbD 7) hzero
  simp [heapBlockTableEntryTaken, heapBlockHasNext] at hbit

/-- The last marked block goes on only if it did so before. -/
theorem marked_last (hk : 0 < k) (h : s + k ≤ 4294967296) (hb : b + 1 = s + k)
    (hnext : (heapMarkBlocksTaken heap s k).table.HasNext b) : b ≠ s ∧ heap.table.HasNext b := by
  unfold HeapTable.HasNext at hnext ⊢
  rw [heapMarkBlocksTaken_entries hk h, if_pos ⟨by omega, by omega⟩,
    if_neg (show ¬ b + 1 < s + k by omega), hasNext_taken] at hnext
  by_cases hfirst : b = s
  · rw [if_pos hfirst] at hnext
    exact absurd (by decide) hnext
  · rw [if_neg hfirst] at hnext
    exact ⟨hfirst, hnext⟩

/-- Where a request was answered, the run starts at a free block, and all its blocks in the table are
    free. -/
theorem ScanResult.start {t : HeapTable} (h : ScanResult t k (s : Int)) :
    s < t.totalEntries ∧ t.Free s ∧ (s = 0 ∨ ¬ t.Free (s - 1)) ∧
      ∀ j, s ≤ j → j < s + k → j < t.totalEntries → t.Free j := by
  generalize hr : (s : Int) = r at h
  cases h with
  | @fit a hk hle hfree hleft _ =>
      obtain rfl : s = a := by omega
      exact ⟨by omega, hfree s (Nat.le_refl s) (by omega), hleft, fun j hlo hhi _ => hfree j hlo hhi⟩
  | @tail a hlt hfree hleft _ =>
      obtain rfl : s = a := by omega
      exact ⟨hlt, hfree s (Nat.le_refl s) (by omega), hleft, fun j hlo _ hhi => hfree j hlo (by omega)⟩
  | full => omega

/-- An empty request is answered with the first block only when all blocks are free. -/
theorem ScanResult.empty_first {t : HeapTable} (h : ScanResult t 0 ((0 : Nat) : Int)) (hb : b < t.totalEntries) :
    t.Free b := by
  generalize hr : ((0 : Nat) : Int) = r at h
  cases h with
  | fit hk => exact absurd hk (Nat.lt_irrefl 0)
  | @tail a _ hfree _ _ =>
      obtain rfl : 0 = a := by omega
      exact hfree b (Nat.zero_le b) (by omega)
  | full => omega

/-- The entries after a request that was answered: outside the marked run an entry is taken if it was, and
    goes on if it did. -/
theorem mark_outside (hres : ScanResult heap.table k (s : Int)) (hk : k ≤ 1048576)
    (hn : heap.table.totalEntries ≤ 25600) (hs : s = 0 → 0 < k) (hb : b ≠ s) (hout : ¬ (s ≤ b ∧ b < s + k)) :
    ((heapMarkBlocksTaken heap s k).table.Free b → heap.table.Free b) ∧
      ((heapMarkBlocksTaken heap s k).table.HasNext b ↔ heap.table.HasNext b) := by
  obtain ⟨hlt, _, _, _⟩ := hres.start
  unfold HeapTable.Free HeapTable.HasNext
  rcases Nat.eq_zero_or_pos k with rfl | hk₀
  · have hs₀ : 0 < s := Nat.pos_of_ne_zero fun heq => absurd (hs heq) (Nat.lt_irrefl 0)
    rw [heapMarkBlocksTaken_zero_entries hs₀ (by omega)]
    by_cases hprev : b = s - 1
    · rw [if_pos hprev, hasNext_taken]
      refine ⟨fun hfree => ?_, Iff.rfl⟩
      have htaken := taken_or (heap.table.entries b) 0#8
      rw [BitVec.or_zero] at htaken
      exact absurd hfree htaken
    · rw [if_neg hprev, if_neg hb]
      exact ⟨id, Iff.rfl⟩
  · rw [heapMarkBlocksTaken_entries hk₀ (by omega), if_neg hout]
    exact ⟨id, Iff.rfl⟩

/-- A taken block stays taken by a request, and goes on as before. -/
theorem taken_mark (hres : ScanResult heap.table k (s : Int)) (hk : k ≤ 1048576)
    (hn : heap.table.totalEntries ≤ 25600) (hb : b ∈ heap.taken) : b ∈ (heapMarkBlocksTaken heap s k).taken ∧
      ((heapMarkBlocksTaken heap s k).table.HasNext b ↔ heap.table.HasNext b) := by
  obtain ⟨_, hfree, _, hrun⟩ := hres.start
  obtain ⟨hlt, htaken⟩ := hb
  have hne : b ≠ s := fun heq => htaken (heq ▸ hfree)
  have hout : ¬ (s ≤ b ∧ b < s + k) := fun hin => htaken (hrun b hin.1 hin.2 hlt)
  have hs : s = 0 → 0 < k := by
    rintro rfl
    refine Nat.pos_of_ne_zero fun hzero => ?_
    subst hzero
    exact htaken (hres.empty_first hlt)
  obtain ⟨hback, hnext⟩ := mark_outside hres hk hn hs hne hout
  exact ⟨⟨by rwa [heapMarkBlocksTaken_totalEntries], fun hnew => htaken (hback hnew)⟩, hnext⟩

/-- A block goes on after a request because it did before, or because the next block was marked with it. -/
theorem hasNext_mark (hres : ScanResult heap.table k (s : Int)) (hk : k ≤ 1048576)
    (hn : heap.table.totalEntries ≤ 25600) (hs : s = 0 → 0 < k)
    (hnext : (heapMarkBlocksTaken heap s k).table.HasNext b) :
    heap.table.HasNext b ∨ (s ≤ b ∧ b + 1 < s + k) := by
  obtain ⟨hlt, _, _, _⟩ := hres.start
  by_cases hin : s ≤ b ∧ b < s + k
  · by_cases hlast : b + 1 < s + k
    · exact Or.inr ⟨hin.1, hlast⟩
    · exact Or.inl (marked_last (by omega) (by omega) (by omega) hnext).2
  · by_cases hfirst : b = s
    · -- an empty request leaves the first flag alone
      have hk₀ : k = 0 := by omega
      subst hk₀
      unfold HeapTable.HasNext at hnext
      rw [heapMarkBlocksTaken_zero_entries (by omega) (by omega), if_neg (by omega), if_pos hfirst] at hnext
      exact absurd (by decide) hnext
    · exact Or.inl ((mark_outside hres hk hn hs hfirst hin).2.mp hnext)

/-- Where a run starts outside a set that nothing goes on into, it stays outside. -/
theorem chain_outside {t : HeapTable} {i m : Nat} (hborder : ∀ j, j ∉ B → j + 1 ∈ B → ¬ t.HasNext j)
    (hi : i ∉ B) (hchain : ∀ j, i ≤ j → j + 1 < i + m → t.HasNext j) : ∀ d, d < m → i + d ∉ B := by
  intro d
  induction d with
  | zero => exact fun _ => hi
  | succ d ih =>
      intro hd hmem
      exact hborder (i + d) (ih (by omega)) hmem (hchain (i + d) (by omega) (by omega))

/-- What an answered request does, with the address it returns. -/
theorem heapMalloc_answer (h : heap.Ready) :
    (heapMalloc heap size = (0, heap) ∧ ScanResult heap.table (heapBlocks size) (-1)) ∨
      ∃ s, heapMalloc heap size
          = (bimbleosHeapAddress + 4096 * s, heapMarkBlocksTaken heap s (heapBlocks size)) ∧
        s < heap.table.totalEntries ∧ ScanResult heap.table (heapBlocks size) (s : Int) := by
  have htotal := h.total
  rw [heapMalloc_eq]
  rcases heapMallocBlocks_cases heap (heapBlocks size) (by omega) with ⟨heq, hres⟩ | ⟨s, heq, hres⟩
  · exact Or.inl ⟨heq, hres⟩
  · have hlt := hres.start.1
    have hsmall : heap.saddr + 4096 * s < 4294967296 := by
      rw [h.start]
      unfold bimbleosHeapAddress
      omega
    rw [heapBlockToAddress_eq hsmall, h.start] at heq
    exact Or.inr ⟨s, heq, hlt, hres⟩

/-- Where the table starts with enough free blocks, the first of them is answered. -/
theorem heapMalloc_first (h : heap.Ready) (hpos : 0 < heapBlocks size)
    (hle : heapBlocks size ≤ heap.table.totalEntries) (hfree : heap.table.FreeRun 0 (heapBlocks size)) :
    heapMalloc heap size = (bimbleosHeapAddress, heapMarkBlocksTaken heap 0 (heapBlocks size)) := by
  have hfits : heap.table.Fits (heapBlocks size) := ⟨0, by omega, hfree⟩
  rcases @heapMalloc_answer heap size h with ⟨_, hres⟩ | ⟨s, heq, _, hres⟩
  · generalize hnone : (-1 : Int) = r at hres
    cases hres with
    | fit => omega
    | tail => omega
    | full _ hno => exact absurd hfits (hno hpos)
  · generalize hat : (s : Int) = r at hres
    cases hres with
    | @fit s' _ _ _ _ hmin =>
        obtain rfl : s = s' := by omega
        have hzero : s = 0 := by
          by_contra hne
          exact hmin 0 (Nat.pos_of_ne_zero hne) hfree
        subst hzero
        exact heq
    | tail _ _ _ hno => exact absurd hfits (hno hpos)
    | full => omega

/-- An answer of the heap: nothing, or the block that the scan found. -/
theorem heapMalloc_ready {heap : Heap} (h : heap.Ready) : (heapMalloc heap size).2.Ready ∧
    ((heapMalloc heap size).1 = 0 ∨ ∃ start : Nat, ScanResult heap.table (heapBlocks size) (start : Int) ∧
      (heapMalloc heap size).1 = bimbleosHeapAddress + 4096 * start ∧ (heapMalloc heap size).1 < 4294967296) := by
  have htotal := h.total
  rcases @heapMalloc_answer heap size h with ⟨heq, _⟩ | ⟨start, heq, hlt, hscan⟩
  · rw [heq]
    exact ⟨h, Or.inl rfl⟩
  · rw [heq]
    refine ⟨h.markBlocksTaken, Or.inr ⟨start, hscan, rfl, ?_⟩⟩
    unfold bimbleosHeapAddress
    omega

/-- An answer is the address of a block. -/
theorem heapMalloc_address (h : heap.Ready) (hptr : (heapMalloc heap size).1 = ptr) (hne : ptr ≠ 0) :
    ∃ s, ptr = bimbleosHeapAddress + 4096 * s := by
  rcases @heapMalloc_answer heap size h with ⟨heq, _⟩ | ⟨s, heq, _, _⟩
  · rw [heq] at hptr
    exact absurd hptr.symm hne
  · rw [heq] at hptr
    exact ⟨s, hptr.symm⟩

/-- **A shield stays** until an address in it is given back. -/
theorem shieldRule (B E : Set Nat) : HeapRule (Heap.Shields B E) (Misses B) where
  malloc := by
    intro heap size h hsize
    have htotal := h.ready.total
    rcases heapMalloc_answer h.ready with ⟨heq, _⟩ | ⟨s, heq, hlt, hres⟩
    · rw [heq]
      refine ⟨h, fun hmem => ?_⟩
      have hbound := (h.taken hmem).1
      rw [kfreeBlock_null] at hbound
      omega
    · rw [heq]
      have hk := Nat.le_of_lt (heapBlocks_lt size hsize)
      refine ⟨⟨h.ready.markBlocksTaken, fun b hb => ?_, fun i hi hnext => ?_, fun b hb => ?_⟩, fun hmem => ?_⟩
      · exact (taken_mark hres hk htotal (h.taken hb)).1
      · obtain ⟨hin, htaken⟩ := h.taken hnext
        have hs : s = 0 → 0 < heapBlocks size := by
          rintro rfl
          refine Nat.pos_of_ne_zero fun hzero => ?_
          rw [hzero] at hres
          exact htaken (hres.empty_first hin)
        intro hnew
        rcases hasNext_mark hres hk htotal hs hnew with hold | ⟨hlo, hhi⟩
        · exact h.border i hi hnext hold
        · exact htaken (hres.start.2.2.2 (i + 1) (by omega) hhi hin)
      · obtain ⟨hmem, hlast⟩ := h.ends b hb
        exact ⟨hmem, fun hnew => hlast ((taken_mark hres hk htotal (h.taken hmem)).2.mp hnew)⟩
      · rw [kfreeBlock_block (by omega)] at hmem
        exact (h.taken hmem).2 hres.start.2.1
  free := by
    intro heap ptr h hok
    obtain ⟨m, _, hentries, hchain, _⟩ := heapFreeLoop_spec (heap.table.totalEntries - kfreeBlock ptr) heap.table
      (kfreeBlock ptr)
    rw [← heapFree_table h.ready] at hentries
    have hout := chain_outside h.border hok hchain
    have hkept : ∀ b ∈ B, (heapFree heap ptr).table.entries b = heap.table.entries b := by
      intro b hb
      rw [hentries, if_neg]
      rintro ⟨hlo, hhi⟩
      refine hout (b - kfreeBlock ptr) (by omega) ?_
      rwa [Nat.add_sub_cancel' hlo]
    have htotal : (heapFree heap ptr).table.totalEntries = heap.table.totalEntries := by
      rw [heapFree_table h.ready, heapFreeLoop_totalEntries]
    refine ⟨h.ready.free, fun b hb => ?_, fun i hi hnext hnew => h.border i hi hnext ?_, fun b hb => ?_⟩
    · obtain ⟨hlt, htaken⟩ := h.taken hb
      refine ⟨by rwa [htotal], ?_⟩
      unfold HeapTable.Free
      rw [hkept b hb]
      exact htaken
    · unfold HeapTable.HasNext at hnew ⊢
      rw [hentries] at hnew
      split at hnew
      · exact absurd (by decide) hnew
      · exact hnew
    · obtain ⟨hmem, hlast⟩ := h.ends b hb
      refine ⟨hmem, ?_⟩
      unfold HeapTable.HasNext
      rw [hkept b hmem]
      exact hlast

/-- A region that was answered lies beside the shielded blocks. -/
theorem Heap.Shields.apart (h : heap.Shields B E) (hb : b ∈ B) (hsize : 0 < size)
    (hptr : (heapMalloc heap size).1 = ptr) (hne : ptr ≠ 0) (hend : ptr + size ≤ 4294967296) :
    bimbleosHeapAddress + 4096 * b + 4096 ≤ ptr ∨ ptr + size ≤ bimbleosHeapAddress + 4096 * b := by
  obtain ⟨hlt, htaken⟩ := h.taken hb
  rcases heapMalloc_answer (h.ready) with ⟨heq, _⟩ | ⟨s, heq, _, hres⟩
  · rw [heq] at hptr
    exact absurd hptr.symm hne
  · rw [heq] at hptr
    have hstart : ptr = bimbleosHeapAddress + 4096 * s := hptr.symm
    have hsmall : size ≤ 0xFFFFF000 := by
      unfold bimbleosHeapAddress at hstart
      omega
    obtain ⟨_, hcover, _⟩ := heapBlocks_of_le hsize hsmall
    obtain ⟨_, _, _, hfree⟩ := hres.start
    have hout : ¬ (s ≤ b ∧ b < s + heapBlocks size) := fun hin => htaken (hfree b hin.1 hin.2 hlt)
    omega

/-! ## Clean heaps -/

/-- **Every heap stays clean**, whatever is given back. -/
theorem cleanRule : HeapRule Heap.Clean (fun _ => True) where
  malloc := by
    intro heap size h hsize
    have htotal := h.ready.total
    refine ⟨?_, True.intro⟩
    rcases heapMalloc_answer h.ready with ⟨heq, _⟩ | ⟨s, heq, hlt, hres⟩
    · rw [heq]
      exact h
    · rw [heq]
      have hk := Nat.le_of_lt (heapBlocks_lt size hsize)
      refine ⟨h.ready.markBlocksTaken, fun i hi hfree hnext => ?_⟩
      rw [heapMarkBlocksTaken_totalEntries] at hi
      by_cases hempty : s = 0 ∧ heapBlocks size = 0
      · rw [hempty.1, hempty.2] at hfree
        exact marked_all (by omega) hfree
      have hs : s = 0 → 0 < heapBlocks size := fun heq => Nat.pos_of_ne_zero fun hz => hempty ⟨heq, hz⟩
      have hold : heap.table.Free i := by
        by_cases hin : s ≤ i ∧ i < s + heapBlocks size
        · exact hres.start.2.2.2 i hin.1 hin.2 hi
        · by_cases hfirst : i = s
          · exact hfirst ▸ hres.start.2.1
          · exact (mark_outside hres hk htotal hs hfirst hin).1 hfree
      rcases hasNext_mark hres hk htotal hs hnext with hnext | ⟨hlo, hhi⟩
      · exact h.free i hi hold hnext
      · exact marked_taken (by omega) (by omega) hlo (by omega) hfree
  free := by
    intro heap ptr h _
    obtain ⟨m, _, hentries, _, _⟩ := heapFreeLoop_spec (heap.table.totalEntries - kfreeBlock ptr) heap.table
      (kfreeBlock ptr)
    rw [← heapFree_table h.ready] at hentries
    refine ⟨h.ready.free, fun i hi hfree => ?_⟩
    have htotal : (heapFree heap ptr).table.totalEntries = heap.table.totalEntries := by
      rw [heapFree_table h.ready, heapFreeLoop_totalEntries]
    rw [htotal] at hi
    unfold HeapTable.Free HeapTable.HasNext at *
    rw [hentries] at hfree ⊢
    split
    · exact fun hnext => hnext (by decide)
    · next hout =>
      rw [if_neg hout] at hfree
      exact h.free i hi hfree

/-- **A clean heap shields** the blocks that are taken. -/
theorem Heap.Clean.shields (h : heap.Clean) :
    heap.Shields heap.taken { b | b ∈ heap.taken ∧ ¬ heap.table.HasNext b } where
  ready := h.ready
  taken := subset_rfl
  border := fun i hi hnext => by
    have hlt : i < heap.table.totalEntries := by
      have hbound := hnext.1
      omega
    have hfree : heap.table.Free i := by
      by_contra htaken
      exact hi ⟨hlt, htaken⟩
    exact h.free i hlt hfree
  ends := fun _ hb => hb

/-- An answer of at least one block: the run was free, and is taken now up to the end of the table; its last
    block does not go on. -/
theorem Heap.Clean.malloc (h : heap.Clean) (h₁ : 1 ≤ size) (h₂ : size ≤ 0xFFFFF000)
    (hptr : (heapMalloc heap size).1 = ptr) (hne : ptr ≠ 0) :
    ∃ s, ptr = bimbleosHeapAddress + 4096 * s ∧ s < heap.table.totalEntries ∧
      (heapMalloc heap size).2.table.totalEntries = heap.table.totalEntries ∧
      ∀ b, s ≤ b → b < s + heapBlocks size → b < heap.table.totalEntries →
        heap.table.Free b ∧ ¬ (heapMalloc heap size).2.table.Free b ∧
        (b + 1 = s + heapBlocks size → ¬ (heapMalloc heap size).2.table.HasNext b) := by
  have htotal := h.ready.total
  obtain ⟨hk₀, _, _⟩ := heapBlocks_of_le h₁ h₂
  have hk := Nat.le_of_lt (heapBlocks_lt size (by omega))
  rcases @heapMalloc_answer heap size h.ready with ⟨heq, _⟩ | ⟨s, heq, hlt, hres⟩
  · rw [heq] at hptr
    exact absurd hptr.symm hne
  · rw [heq] at hptr ⊢
    refine ⟨s, hptr.symm, hlt, heapMarkBlocksTaken_totalEntries _ _ _, fun b hlo hhi hb => ?_⟩
    have hfree := hres.start.2.2.2 b hlo hhi hb
    refine ⟨hfree, marked_taken hk₀ (by omega) hlo hhi, fun hlast hnext => ?_⟩
    exact h.free b hb hfree (marked_last hk₀ (by omega) hlast hnext).2

end Rules

/-! ## Room at the end -/

/-- The last `n` blocks of the kernel's heap are free, and one more in front of them. -/
structure Heap.TailRoom (n : Nat) (heap : Heap) : Prop where
  ready : heap.Ready
  room : n < heap.table.totalEntries
  free : heap.table.FreeRun (heap.table.totalEntries - (n + 1)) (n + 1)

/-- Some block is taken. -/
def Heap.Used (heap : Heap) : Prop := ∃ b, b < heap.table.totalEntries ∧ ¬ heap.table.Free b

namespace Heap.TailRoom

variable {heap : Heap} {n m s k size : Nat}

theorem mono (h : heap.TailRoom n) (hm : m ≤ n) : heap.TailRoom m := by
  have hroom := h.room
  exact ⟨h.ready, by omega, fun j hlo hhi => h.free j (by omega) (by omega)⟩

/-- A scan for at least one block stops in front of the room that is left, at a run that is long enough. -/
theorem scan (h : heap.TailRoom (n + k)) (hk : 0 < k) {r : Int} (hres : ScanResult heap.table k r) :
    ∃ s : Nat, r = s ∧ s + k + (n + 1) ≤ heap.table.totalEntries := by
  have hroom := h.room
  have hlast : heap.table.FreeRun (heap.table.totalEntries - (n + k + 1)) k := h.free.mono (by omega)
  have hfits : heap.table.Fits k := ⟨_, by omega, hlast⟩
  cases hres with
  | @fit s _ _ _ _ hmin =>
      refine ⟨s, rfl, ?_⟩
      by_contra hlate
      exact hmin _ (by omega) hlast
  | tail _ _ _ hno => exact absurd hfits (hno hk)
  | full _ hno => exact absurd hfits (hno hk)

/-- A scan for nothing ends at the free run at the end of the heap. -/
theorem scan_empty (h : heap.TailRoom n) (hused : heap.Used) {r : Int} (hres : ScanResult heap.table 0 r) :
    ∃ s : Nat, r = s ∧ 0 < s ∧ s < heap.table.totalEntries ∧ heap.table.Free s ∧ ¬ heap.table.Free (s - 1) := by
  have hroom := h.room
  cases hres with
  | fit hk => exact absurd hk (Nat.lt_irrefl 0)
  | @tail s hlt hfree hleft _ =>
      obtain ⟨b, hb, htaken⟩ := hused
      have hpos : 0 < s := by
        refine Nat.pos_of_ne_zero fun hzero => ?_
        subst hzero
        exact htaken (hfree b (Nat.zero_le b) (by omega))
      have hprev := hleft.resolve_left (by omega)
      exact ⟨s, rfl, hpos, hlt, hfree s (Nat.le_refl s) (by omega), hprev⟩
  | full hlast _ =>
      rcases hlast with hzero | htaken
      · omega
      · exact absurd (h.free _ (by omega) (by omega)) htaken

theorem mark (h : heap.TailRoom (n + k)) (hk : 0 < k) (hs : s + k + (n + 1) ≤ heap.table.totalEntries) :
    (heapMarkBlocksTaken heap s k).TailRoom n := by
  have htotal := h.ready.total
  refine ⟨h.ready.markBlocksTaken, by rw [heapMarkBlocksTaken_totalEntries]; omega, fun j hlo hhi => ?_⟩
  rw [heapMarkBlocksTaken_totalEntries] at hlo hhi
  unfold HeapTable.Free
  rw [heapMarkBlocksTaken_entries hk (by omega), if_neg (by omega)]
  exact h.free j (by omega) (by omega)

/-- An empty request changes no block's type, unless it is answered with the first block. -/
theorem free_mark_empty {j : Nat} (h : heap.TailRoom n) (hs : 0 < s) (hlt : s < heap.table.totalEntries)
    (hfree : heap.table.Free s) (hprev : ¬ heap.table.Free (s - 1)) :
    (heapMarkBlocksTaken heap s 0).table.Free j ↔ heap.table.Free j := by
  have htotal := h.ready.total
  unfold HeapTable.Free at hfree hprev ⊢
  rw [heapMarkBlocksTaken_zero_entries hs (by omega)]
  by_cases hbefore : j = s - 1
  · subst hbefore
    have htaken := taken_or (heap.table.entries (s - 1)) 0#8
    rw [BitVec.or_zero] at htaken
    rw [if_pos rfl]
    exact iff_of_false htaken hprev
  · rw [if_neg hbefore]
    by_cases hfirst : j = s
    · subst hfirst
      rw [if_pos rfl]
      exact iff_of_true (by decide) hfree
    · rw [if_neg hfirst]

/-- **A request** that leaves the room at the end is answered. An empty one needs a taken block somewhere. -/
theorem malloc (h : heap.TailRoom (n + heapBlocks size)) (hused : heapBlocks size = 0 → heap.Used) :
    ∃ s, heapMalloc heap size = (bimbleosHeapAddress + 4096 * s, heapMarkBlocksTaken heap s (heapBlocks size)) ∧
      s + heapBlocks size < heap.table.totalEntries ∧
      (heapMarkBlocksTaken heap s (heapBlocks size)).TailRoom n ∧
      (heapMarkBlocksTaken heap s (heapBlocks size)).Used := by
  have htotal := h.ready.total
  have hanswer := @heapMalloc_answer heap size h.ready
  rcases Nat.eq_zero_or_pos (heapBlocks size) with hk | hk
  · have hroom : heap.TailRoom n := h.mono (Nat.le_add_right n _)
    rcases hanswer with ⟨_, hres⟩ | ⟨s, heq, _, hres⟩
    · rw [hk] at hres
      obtain ⟨s, hnone, _⟩ := hroom.scan_empty (hused hk) hres
      omega
    · rw [hk] at hres
      obtain ⟨s', hs', hpos, hlt, hfree, hprev⟩ := hroom.scan_empty (hused hk) hres
      obtain rfl : s = s' := by omega
      refine ⟨s, heq, by omega, ?_⟩
      rw [hk]
      have hsame := fun j => hroom.free_mark_empty (j := j) hpos hlt hfree hprev
      obtain ⟨b, hb, htaken⟩ := hused hk
      have hentries : (heapMarkBlocksTaken heap s 0).table.totalEntries = heap.table.totalEntries :=
        heapMarkBlocksTaken_totalEntries _ _ _
      refine ⟨⟨h.ready.markBlocksTaken, ?_, fun j hlo hhi => ?_⟩, b, ?_, fun hnew => htaken ((hsame b).mp hnew)⟩
      · rw [hentries]
        exact hroom.room
      · rw [hentries] at hlo hhi
        exact (hsame j).mpr (hroom.free j hlo hhi)
      · rwa [hentries]
  · rcases hanswer with ⟨_, hres⟩ | ⟨s, heq, hlt, hres⟩
    · obtain ⟨s, hnone, _⟩ := h.scan hk hres
      omega
    · obtain ⟨s', hs', hend⟩ := h.scan hk hres
      obtain rfl : s = s' := by omega
      refine ⟨s, heq, by omega, h.mark hk hend, s, ?_, marked_taken hk (by omega) (Nat.le_refl s) (by omega)⟩
      rwa [heapMarkBlocksTaken_totalEntries]

theorem kfree {ptr : Nat} (h : heap.TailRoom n) : (heapFree heap ptr).TailRoom n := by
  have htotal : (heapFree heap ptr).table.totalEntries = heap.table.totalEntries :=
    heapMarkBlocksFree_totalEntries _ _
  refine ⟨h.ready.free, by rw [htotal]; exact h.room, fun j hlo hhi => ?_⟩
  rw [htotal] at hlo hhi
  obtain ⟨m, _, hentries, _, _⟩ := heapFreeLoop_spec
    (heap.table.totalEntries - kfreeBlock ptr) heap.table (kfreeBlock ptr)
  rw [heapFree_table h.ready]
  unfold HeapTable.Free
  rw [hentries]
  split
  · decide
  · exact h.free j hlo hhi

/-- There are that many free blocks. -/
theorem freeBlocks (h : heap.TailRoom n) : n + 1 ≤ heap.freeBlocks := by
  have hroom := h.room
  exact freeBlocks_of_run h.free (by omega)

/-- Requests for at most `c` blocks each. -/
theorem after {c : Nat} {sizes : List Nat} (h : heap.TailRoom (n + c * sizes.length))
    (hsizes : ∀ size ∈ sizes, 1 ≤ heapBlocks size ∧ heapBlocks size ≤ c) : (heapAfter heap sizes).TailRoom n := by
  induction sizes generalizing heap with
  | nil => exact h
  | cons size sizes ih =>
      obtain ⟨hpos, hle⟩ := hsizes size List.mem_cons_self
      have hroom : heap.TailRoom (n + c * sizes.length + heapBlocks size) := by
        apply h.mono
        rw [List.length_cons, Nat.mul_succ]
        omega
      obtain ⟨s, heq, _, hafter, _⟩ := hroom.malloc fun hzero => absurd hzero (by omega)
      rw [heapAfter_cons, heq]
      exact ih hafter fun size hsize => hsizes size (List.mem_cons_of_mem _ hsize)

end Heap.TailRoom

end BimbleOS
