import BimbleOS.Memory.HeapClient

/-!
# `Memory.HeapOwners` — the blocks of one owner

A set of taken blocks is closed when no block of it goes on into a block outside (`Heap.Closed`). What an owner gives
back by its pointers then stays inside its own blocks: all other taken blocks are shielded from it
(`Heap.Closed.shields`). The blocks that a request of a clean heap has taken are closed (`Heap.Clean.closed_new`), and
they stay closed as long as no one else gives back an address in them (`Heap.Closed.kept`).
-/

namespace BimbleOS

open CWord

/-- The blocks of `S` are taken, and each goes on in `S` only. -/
structure Heap.Closed (heap : Heap) (S : Set Nat) : Prop where
  taken : S ⊆ heap.taken
  next : ∀ i, i ∈ S → heap.table.HasNext i → i + 1 < heap.table.totalEntries → i + 1 ∈ S

section Free

variable {heap : Heap} {B E : Set Nat} {b ptr : Nat}

theorem heapFree_totalEntries (h : heap.Ready) :
    (heapFree heap ptr).table.totalEntries = heap.table.totalEntries := by
  rw [heapFree_table h, heapFreeLoop_totalEntries]

/-- A freed entry is free, and does not go on; the others are as before. -/
theorem heapFree_entries (h : heap.Ready) (ptr b : Nat) :
    (heapFree heap ptr).table.entries b = heapBlockTableEntryFree ∨
      (heapFree heap ptr).table.entries b = heap.table.entries b := by
  obtain ⟨m, _, hentries, _, _⟩ := heapFreeLoop_spec (heap.table.totalEntries - kfreeBlock ptr) heap.table
    (kfreeBlock ptr)
  rw [← heapFree_table h] at hentries
  rw [hentries]
  by_cases hin : kfreeBlock ptr ≤ b ∧ b < kfreeBlock ptr + m
  · rw [if_pos hin]
    exact Or.inl rfl
  · rw [if_neg hin]
    exact Or.inr rfl

/-- The blocks that `kfree` of `ptr` may reach: each goes on into the next. -/
def Heap.blocksFrom (heap : Heap) (ptr : Nat) : Set Nat :=
  { b | kfreeBlock ptr ≤ b ∧ ∀ j, kfreeBlock ptr ≤ j → j < b → heap.table.HasNext j }

/-- The other entries are as before. -/
theorem heapFree_outside (h : heap.Ready) (hb : b ∉ heap.blocksFrom ptr) :
    (heapFree heap ptr).table.entries b = heap.table.entries b := by
  obtain ⟨m, _, hentries, hchain, _⟩ := heapFreeLoop_spec (heap.table.totalEntries - kfreeBlock ptr) heap.table
    (kfreeBlock ptr)
  rw [← heapFree_table h] at hentries
  rw [hentries, if_neg]
  rintro ⟨hlo, hhi⟩
  exact hb ⟨hlo, fun j hlo hj => hchain j hlo (by omega)⟩

/-- The blocks that are reached are free afterwards. -/
theorem heapFree_inside (h : heap.Ready) (hb : b ∈ heap.blocksFrom ptr) : b ∉ (heapFree heap ptr).taken := by
  rintro ⟨hlt, htaken⟩
  rw [heapFree_totalEntries h] at hlt
  obtain ⟨hlo, hchain⟩ := hb
  obtain ⟨m, _, hentries, _, hstop⟩ := heapFreeLoop_spec (heap.table.totalEntries - kfreeBlock ptr) heap.table
    (kfreeBlock ptr)
  rw [← heapFree_table h] at hentries
  have hin : b < kfreeBlock ptr + m := by
    rcases hstop with hall | ⟨hpos, hlast⟩
    · omega
    · by_contra hout
      exact hlast (hchain _ (by omega) (by omega))
  apply htaken
  unfold HeapTable.Free
  rw [hentries, if_pos ⟨hlo, hin⟩]
  decide

/-- A freed block does not go on. -/
theorem heapFree_hasNext (h : heap.Ready) (hnext : (heapFree heap ptr).table.HasNext b) : heap.table.HasNext b := by
  unfold HeapTable.HasNext at hnext ⊢
  rcases heapFree_entries h ptr b with hnew | hold
  · rw [hnew] at hnext
    exact absurd (by decide) hnext
  · rwa [hold] at hnext

/-- Nothing in a shield is reached from outside. -/
theorem Heap.Shields.not_reached (h : heap.Shields B E) (hptr : Misses B ptr) (hb : b ∈ B) :
    b ∉ heap.blocksFrom ptr := by
  rintro ⟨hlo, hchain⟩
  have hout := chain_outside (m := b + 1 - kfreeBlock ptr) h.border hptr fun j hlo hj => hchain j hlo (by omega)
  refine hout (b - kfreeBlock ptr) (by omega) ?_
  rwa [Nat.add_sub_cancel' hlo]

/-- `kfree` takes nothing. -/
theorem Heap.Ready.taken_free (h : heap.Ready) (ptr : Nat) : (heapFree heap ptr).taken ⊆ heap.taken := by
  rintro b ⟨hlt, htaken⟩
  rw [heapFree_totalEntries h] at hlt
  refine ⟨hlt, fun hfree => htaken ?_⟩
  unfold HeapTable.Free at hfree ⊢
  rcases heapFree_entries h ptr b with hnew | hold
  · rw [hnew]
    decide
  · rw [hold]
    exact hfree

/-- The block that is given back is free afterwards. -/
theorem Heap.Ready.free_self (h : heap.Ready) (ptr : Nat) : kfreeBlock ptr ∉ (heapFree heap ptr).taken :=
  heapFree_inside h ⟨Nat.le_refl _, fun j hlo hj => absurd hj (by omega)⟩

/-- The null pointer is far behind the table. -/
theorem Heap.Ready.free_null (h : heap.Ready) : heapFree heap 0 = heap := by
  have htotal := h.total
  have hnone : heap.table.totalEntries - kfreeBlock 0 = 0 := by
    rw [kfreeBlock_null]
    omega
  have htable : (heapFree heap 0).table = heap.table := by
    rw [heapFree_table h, hnone]
    rfl
  have hsaddr : (heapFree heap 0).saddr = heap.saddr := rfl
  calc heapFree heap 0 = ⟨(heapFree heap 0).table, (heapFree heap 0).saddr⟩ := rfl
    _ = heap := by rw [htable, hsaddr]

/-- The heap after several pointers were given back. -/
def Heap.freeAll (heap : Heap) (ptrs : List Nat) : Heap := ptrs.foldl heapFree heap

theorem Heap.Ready.freeAll (h : heap.Ready) (ptrs : List Nat) : (heap.freeAll ptrs).Ready := by
  induction ptrs generalizing heap with
  | nil => exact h
  | cons a ptrs ih => exact ih h.free

theorem Heap.Ready.taken_freeAll (h : heap.Ready) (ptrs : List Nat) : (heap.freeAll ptrs).taken ⊆ heap.taken := by
  induction ptrs generalizing heap with
  | nil => exact subset_rfl
  | cons a ptrs ih => exact (ih h.free).trans (h.taken_free a)

/-- All blocks that were given back are free. -/
theorem Heap.Ready.freeAll_self (h : heap.Ready) {ptrs : List Nat} (hptr : ptr ∈ ptrs) :
    kfreeBlock ptr ∉ (heap.freeAll ptrs).taken := by
  induction ptrs generalizing heap with
  | nil => exact absurd hptr List.not_mem_nil
  | cons a ptrs ih =>
      rcases List.mem_cons.mp hptr with rfl | hptr
      · exact fun hin => h.free_self ptr (h.free.taken_freeAll ptrs hin)
      · exact ih h.free hptr

theorem Heap.Ready.freeAll_totalEntries (h : heap.Ready) (ptrs : List Nat) :
    (heap.freeAll ptrs).table.totalEntries = heap.table.totalEntries := by
  induction ptrs generalizing heap with
  | nil => rfl
  | cons a ptrs ih => exact (ih h.free).trans (heapFree_totalEntries h)

theorem Heap.Ready.freeAll_hasNext (h : heap.Ready) {ptrs : List Nat}
    (hnext : (heap.freeAll ptrs).table.HasNext b) : heap.table.HasNext b := by
  induction ptrs generalizing heap with
  | nil => exact hnext
  | cons a ptrs ih => exact heapFree_hasNext h (ih h.free hnext)

/-- The entries that no pointer reaches are as before. -/
theorem Heap.Ready.freeAll_outside (h : heap.Ready) {ptrs : List Nat} (hb : ∀ ptr ∈ ptrs, b ∉ heap.blocksFrom ptr) :
    (heap.freeAll ptrs).table.entries b = heap.table.entries b := by
  induction ptrs generalizing heap with
  | nil => rfl
  | cons a ptrs ih =>
      have hrest : ∀ ptr ∈ ptrs, b ∉ (heapFree heap a).blocksFrom ptr := by
        rintro ptr hptr ⟨hlo, hchain⟩
        refine hb ptr (List.mem_cons_of_mem a hptr) ⟨hlo, fun j hlo hj => ?_⟩
        exact heapFree_hasNext h (hchain j hlo hj)
      exact (ih h.free hrest).trans (heapFree_outside h (hb a List.mem_cons_self))

/-- What no pointer reaches stays taken. -/
theorem Heap.Ready.freeAll_kept (h : heap.Ready) {ptrs : List Nat} (htaken : b ∈ heap.taken)
    (hb : ∀ ptr ∈ ptrs, b ∉ heap.blocksFrom ptr) : b ∈ (heap.freeAll ptrs).taken := by
  refine ⟨?_, fun hfree => htaken.2 ?_⟩
  · rw [h.freeAll_totalEntries]
    exact htaken.1
  · unfold HeapTable.Free at hfree ⊢
    rwa [h.freeAll_outside hb] at hfree

theorem Heap.Closed.freeAll {S : Set Nat} (h : heap.Closed S) (hready : heap.Ready) {ptrs : List Nat}
    (hS : ∀ b ∈ S, ∀ ptr ∈ ptrs, b ∉ heap.blocksFrom ptr) : (heap.freeAll ptrs).Closed S where
  taken := fun b hb => hready.freeAll_kept (h.taken hb) (hS b hb)
  next := by
    intro i hi hnext hlt
    rw [hready.freeAll_totalEntries] at hlt
    exact h.next i hi (hready.freeAll_hasNext hnext) hlt

theorem Heap.Clean.freeAll (h : heap.Clean) (ptrs : List Nat) : (heap.freeAll ptrs).Clean := by
  induction ptrs generalizing heap with
  | nil => exact h
  | cons a ptrs ih => exact ih (cleanRule.free h True.intro)

theorem HeapRule.freeAll {P : Heap → Prop} {Ok : Nat → Prop} (hr : HeapRule P Ok) {ptrs : List Nat} (hP : P heap)
    (hok : ∀ ptr ∈ ptrs, Ok ptr) : P (heap.freeAll ptrs) := by
  induction ptrs generalizing heap with
  | nil => exact hP
  | cons a ptrs ih =>
      exact ih (hr.free hP (hok a List.mem_cons_self)) fun ptr hptr => hok ptr (List.mem_cons_of_mem a hptr)

end Free

/-! ## What a request adds -/

section Malloc

variable {heap : Heap} {B S S' : Set Nat} {size : Nat}

theorem Heap.Closed.union (h : heap.Closed S) (h' : heap.Closed S') : heap.Closed (S ∪ S') where
  taken := Set.union_subset h.taken h'.taken
  next := by
    intro i hi hnext hlt
    rcases hi with hi | hi
    · exact Or.inl (h.next i hi hnext hlt)
    · exact Or.inr (h'.next i hi hnext hlt)

theorem Heap.Ready.malloc_totalEntries (h : heap.Ready) (size : Nat) :
    (heapMalloc heap size).2.table.totalEntries = heap.table.totalEntries := by
  rcases @heapMalloc_answer heap size h with ⟨heq, _⟩ | ⟨s, heq, _, _⟩
  · rw [heq]
  · rw [heq]
    exact heapMarkBlocksTaken_totalEntries _ _ _

/-- **A request keeps the blocks that were taken**, and whether they go on. -/
theorem Heap.Ready.malloc_taken {b : Nat} (h : heap.Ready) (hsize : size < 4294967296) (hb : b ∈ heap.taken) :
    b ∈ (heapMalloc heap size).2.taken ∧
      ((heapMalloc heap size).2.table.HasNext b ↔ heap.table.HasNext b) := by
  rcases @heapMalloc_answer heap size h with ⟨heq, _⟩ | ⟨s, heq, _, hres⟩
  · rw [heq]
    exact ⟨hb, Iff.rfl⟩
  · rw [heq]
    exact taken_mark hres (Nat.le_of_lt (heapBlocks_lt size hsize)) h.total hb

theorem Heap.Closed.malloc (h : heap.Closed S) (hready : heap.Ready) (hsize : size < 4294967296) :
    (heapMalloc heap size).2.Closed S where
  taken := fun _ hb => (hready.malloc_taken hsize (h.taken hb)).1
  next := by
    intro i hi hnext hlt
    rw [hready.malloc_totalEntries] at hlt
    exact h.next i hi ((hready.malloc_taken hsize (h.taken hi)).2.mp hnext) hlt

/-- **The blocks that a request of a clean heap takes** are closed. -/
theorem Heap.Clean.closed_new (h : heap.Clean) (hsize : size < 4294967296) :
    (heapMalloc heap size).2.Closed ((heapMalloc heap size).2.taken \ heap.taken) where
  taken := Set.sdiff_subset
  next := by
    intro i hi hnext hlt
    rw [h.ready.malloc_totalEntries] at hlt
    have htotal := h.ready.total
    have hfree : ∀ b, b < heap.table.totalEntries → b ∉ heap.taken → heap.table.Free b := by
      intro b hb hnot
      by_contra htaken
      exact hnot ⟨hb, htaken⟩
    have hnew : ¬ heap.table.HasNext i := h.free i (by omega) (hfree i (by omega) hi.2)
    rcases @heapMalloc_answer heap size h.ready with ⟨heq, _⟩ | ⟨s, heq, hs, hres⟩
    · rw [heq] at hnext
      exact absurd hnext hnew
    rw [heq] at hnext ⊢
    have hk := Nat.le_of_lt (heapBlocks_lt size hsize)
    by_cases hempty : s = 0 ∧ heapBlocks size = 0
    · -- an empty request of an empty heap marks all blocks
      rw [hempty.1, hempty.2] at hres ⊢
      refine ⟨⟨?_, marked_all (by omega)⟩, fun hin => hin.2 (hres.empty_first hlt)⟩
      rwa [heapMarkBlocksTaken_totalEntries]
    rcases hasNext_mark hres hk htotal (fun hzero => Nat.pos_of_ne_zero fun hnone => hempty ⟨hzero, hnone⟩) hnext with
      hold | ⟨hlo, hhi⟩
    · exact absurd hold hnew
    · refine ⟨⟨?_, marked_taken (by omega) (by omega) (by omega) hhi⟩, fun hin => ?_⟩
      · rwa [heapMarkBlocksTaken_totalEntries]
      · exact hin.2 (hres.start.2.2.2 (i + 1) (by omega) hhi hlt)

/-- The blocks that were taken since `T` stay closed as requests add more. -/
theorem Heap.Closed.more {T : Set Nat} (h : heap.Closed (heap.taken \ T)) (hclean : heap.Clean) (hT : T ⊆ heap.taken)
    (hsize : size < 4294967296) : (heapMalloc heap size).2.Closed ((heapMalloc heap size).2.taken \ T) := by
  have hboth := (h.malloc hclean.ready hsize).union (hclean.closed_new hsize)
  have hset : (heapMalloc heap size).2.taken \ T
      = heap.taken \ T ∪ (heapMalloc heap size).2.taken \ heap.taken := by
    ext b
    constructor
    · intro hb
      by_cases hold : b ∈ heap.taken
      · exact Or.inl ⟨hold, hb.2⟩
      · exact Or.inr ⟨hb.1, hold⟩
    · intro hb
      rcases hb with hb | hb
      · exact ⟨(hclean.ready.malloc_taken hsize hb.1).1, hb.2⟩
      · exact ⟨hb.1, fun hin => hb.2 (hT hin)⟩
  rw [hset]
  exact hboth

theorem Heap.closed_none (heap : Heap) : heap.Closed (heap.taken \ heap.taken) where
  taken := Set.sdiff_subset
  next := fun _ hi => absurd hi.1 hi.2

/-- **All other taken blocks are shielded** from an owner, also when pointers have been given back since. -/
theorem Heap.Closed.shields_freeAll (h : heap.Closed S) (hclean : heap.Clean) (ptrs : List Nat) :
    (heap.freeAll ptrs).Shields ((heap.freeAll ptrs).taken \ S) ∅ where
  ready := hclean.ready.freeAll ptrs
  taken := Set.sdiff_subset
  border := by
    intro i hi hin hnext
    have hlt := hin.1.1
    by_cases htaken : i ∈ (heap.freeAll ptrs).taken
    · have hmem : i ∈ S := by
        by_contra hnot
        exact hi ⟨htaken, hnot⟩
      have hbound : i + 1 < heap.table.totalEntries := by
        rwa [hclean.ready.freeAll_totalEntries] at hlt
      exact hin.2 (h.next i hmem (hclean.ready.freeAll_hasNext hnext) hbound)
    · refine (hclean.freeAll ptrs).free i (by omega) ?_ hnext
      by_contra hnot
      exact htaken ⟨by omega, hnot⟩
  ends := fun _ hb => hb.elim

theorem Heap.Closed.shields (h : heap.Closed S) (hclean : heap.Clean) : heap.Shields (heap.taken \ S) ∅ :=
  h.shields_freeAll hclean []

/-- A series of requests takes blocks that are closed. -/
theorem Heap.Clean.after (h : heap.Clean) {T : Set Nat} (hclosed : heap.Closed (heap.taken \ T)) (hT : T ⊆ heap.taken)
    {sizes : List Nat} (hsizes : ∀ size ∈ sizes, size < 4294967296) : (heapAfter heap sizes).Clean ∧
      heap.taken ⊆ (heapAfter heap sizes).taken ∧ (heapAfter heap sizes).Closed ((heapAfter heap sizes).taken \ T) := by
  induction sizes generalizing heap with
  | nil => exact ⟨h, subset_rfl, hclosed⟩
  | cons size sizes ih =>
      have hsize := hsizes size List.mem_cons_self
      have hsub : heap.taken ⊆ (heapMalloc heap size).2.taken := fun b hb => (h.ready.malloc_taken hsize hb).1
      obtain ⟨hclean, hsub', hclosed'⟩ := ih (cleanRule.malloc h hsize).1 (hclosed.more h hT hsize) (hT.trans hsub)
        fun q hq => hsizes q (List.mem_cons_of_mem size hq)
      exact ⟨hclean, hsub.trans hsub', hclosed'⟩

/-- An answer is a block that was free and is taken now. -/
theorem Heap.Clean.malloc_block {ptr : Nat} (h : heap.Clean) (h₁ : 1 ≤ size) (h₂ : size ≤ 0xFFFFF000)
    (hptr : (heapMalloc heap size).1 = ptr) (hne : ptr ≠ 0) :
    kfreeBlock ptr ∈ (heapMalloc heap size).2.taken \ heap.taken := by
  obtain ⟨hblocks, _, _⟩ := heapBlocks_of_le h₁ h₂
  obtain ⟨s, rfl, hs, htotal, hrange⟩ := h.malloc h₁ h₂ hptr hne
  obtain ⟨hfree, htaken, _⟩ := hrange s (Nat.le_refl s) (by omega) hs
  have hbound := h.ready.total
  rw [kfreeBlock_block (by omega)]
  exact ⟨⟨by rwa [htotal], htaken⟩, fun hin => hin.2 hfree⟩

/-- **All answers of a series** are blocks that were free and are taken now. -/
theorem Heap.Clean.answers_new (h : heap.Clean) {sizes : List Nat}
    (hsizes : ∀ size ∈ sizes, 1 ≤ size ∧ size ≤ 0xFFFFF000) (hnonzero : 0 ∉ heapAnswers heap sizes) :
    ∀ a ∈ heapAnswers heap sizes, kfreeBlock a ∈ (heapAfter heap sizes).taken \ heap.taken := by
  induction sizes generalizing heap with
  | nil => exact fun a ha => absurd ha List.not_mem_nil
  | cons size sizes ih =>
      rw [heapAnswers_cons] at hnonzero ⊢
      obtain ⟨h₁, h₂⟩ := hsizes size List.mem_cons_self
      have hclean := (cleanRule.malloc h (show size < 4294967296 by omega)).1
      have hlater : ∀ q ∈ sizes, 1 ≤ q ∧ q ≤ 0xFFFFF000 := fun q hq => hsizes q (List.mem_cons_of_mem size hq)
      obtain ⟨_, hsub, _⟩ := hclean.after (Heap.closed_none _) subset_rfl
        fun q hq => show q < 4294967296 by have hq' := hlater q hq; omega
      intro a ha
      rcases List.mem_cons.mp ha with hfirst | ha
      · have hne : a ≠ 0 := fun hzero => hnonzero (List.mem_cons.mpr (Or.inl (hzero.symm.trans hfirst)))
        have hblock := h.malloc_block h₁ h₂ hfirst.symm hne
        exact ⟨hsub hblock.1, hblock.2⟩
      · have hblock := ih hclean hlater (fun hin => hnonzero (List.mem_cons_of_mem _ hin)) a ha
        exact ⟨hblock.1, fun hin => hblock.2 (h.ready.malloc_taken (by omega) hin).1⟩

/-- Answers are addresses of blocks. -/
theorem Heap.Ready.answers_aligned (h : heap.Ready) (sizes : List Nat) :
    ∀ a ∈ heapAnswers heap sizes, a % 4096 = 0 := by
  induction sizes generalizing heap with
  | nil => exact fun a ha => absurd ha List.not_mem_nil
  | cons size sizes ih =>
      obtain ⟨hready, hanswer⟩ := @heapMalloc_ready size heap h
      intro a ha
      rcases List.mem_cons.mp ha with rfl | ha
      · rcases hanswer with hzero | ⟨start, _, hstart, _⟩
        · rw [hzero]
        · rw [hstart]
          unfold bimbleosHeapAddress
          omega
      · exact ih hready a ha

end Malloc

/-! ## What stays -/

/-- The blocks of `B` are shielded, and go on as in `heap₀`. -/
structure Heap.Kept (B : Set Nat) (heap₀ heap : Heap) : Prop where
  shields : heap.Shields B ∅
  next : ∀ b, b ∈ B → (heap.table.HasNext b ↔ heap₀.table.HasNext b)
  total : heap.table.totalEntries = heap₀.table.totalEntries

section Kept

variable {heap₀ heap : Heap} {B S : Set Nat}

theorem Heap.Shields.kept {E : Set Nat} (h : heap.Shields B E) : heap.Kept B heap :=
  ⟨⟨h.ready, h.taken, h.border, fun _ hb => hb.elim⟩, fun _ _ => Iff.rfl, rfl⟩

/-- **What is shielded goes on as before.** -/
theorem keptRule (B : Set Nat) (heap₀ : Heap) : HeapRule (heap₀.Kept B) (Misses B) where
  malloc := by
    intro heap size h hsize
    obtain ⟨hshields, hok⟩ := (shieldRule B ∅).malloc h.shields hsize
    have hready := h.shields.ready
    refine ⟨⟨hshields, fun b hb => ?_, ?_⟩, hok⟩
    · exact (hready.malloc_taken hsize (h.shields.taken hb)).2.trans (h.next b hb)
    · exact (hready.malloc_totalEntries size).trans h.total
  free := by
    intro heap ptr h hok
    have hready := h.shields.ready
    refine ⟨(shieldRule B ∅).free h.shields hok, fun b hb => ?_, (heapFree_totalEntries hready).trans h.total⟩
    rw [← h.next b hb]
    unfold HeapTable.HasNext
    rw [heapFree_outside hready (h.shields.not_reached hok hb)]

theorem Heap.Closed.kept (h : heap₀.Closed S) (hS : S ⊆ B) (hkept : heap₀.Kept B heap) : heap.Closed S where
  taken := hS.trans hkept.shields.taken
  next := by
    intro i hi hnext hlt
    rw [hkept.total] at hlt
    exact h.next i hi ((hkept.next i (hS hi)).mp hnext) hlt

end Kept

/-! ## Single blocks that are held -/

/-- The pointers are to different blocks, each of them taken and without a next one. -/
structure Heap.Holding (ptrs : List Nat) (heap : Heap) : Prop where
  nodup : (ptrs.map kfreeBlock).Nodup
  taken : ∀ ptr ∈ ptrs, kfreeBlock ptr ∈ heap.taken
  single : ∀ ptr ∈ ptrs, ¬ heap.table.HasNext (kfreeBlock ptr)
  address : ∀ ptr ∈ ptrs, ptr = bimbleosHeapAddress + 4096 * kfreeBlock ptr

section Holding

variable {heap : Heap} {ptrs ptrs' : List Nat} {ptr size : Nat}

theorem Heap.holding_nil (heap : Heap) : heap.Holding [] :=
  ⟨List.nodup_nil, fun _ hptr => absurd hptr List.not_mem_nil, fun _ hptr => absurd hptr List.not_mem_nil,
    fun _ hptr => absurd hptr List.not_mem_nil⟩

theorem Heap.Holding.perm (h : heap.Holding ptrs) (hperm : ptrs.Perm ptrs') : heap.Holding ptrs' where
  nodup := (hperm.map kfreeBlock).nodup_iff.mp h.nodup
  taken := fun ptr hptr => h.taken ptr (hperm.mem_iff.mpr hptr)
  single := fun ptr hptr => h.single ptr (hperm.mem_iff.mpr hptr)
  address := fun ptr hptr => h.address ptr (hperm.mem_iff.mpr hptr)

theorem Heap.Holding.drop (h : heap.Holding (ptr :: ptrs)) : heap.Holding ptrs where
  nodup := (List.nodup_cons.mp h.nodup).2
  taken := fun p hp => h.taken p (List.mem_cons_of_mem ptr hp)
  single := fun p hp => h.single p (List.mem_cons_of_mem ptr hp)
  address := fun p hp => h.address p (List.mem_cons_of_mem ptr hp)

/-- Another small structure. -/
theorem Heap.Holding.malloc (h : heap.Holding ptrs) (hready : heap.Ready) (h₁ : 1 ≤ size) (h₂ : size ≤ 4096)
    (hne : (heapMalloc heap size).1 ≠ 0) : (heapMalloc heap size).2.Holding ((heapMalloc heap size).1 :: ptrs) := by
  have htotal := hready.total
  have hold := fun ptr hptr => hready.malloc_taken (show size < 4294967296 by omega) (h.taken ptr hptr)
  rcases heapMalloc_one hready h₁ h₂ with ⟨hnone, _⟩ | ⟨s, hs, hfree, heq, _⟩
  · rw [hnone] at hne
    exact absurd rfl hne
  have hblock : kfreeBlock (heapMalloc heap size).1 = s := by
    rw [heq, hready.start]
    exact kfreeBlock_block (by omega)
  have hmem : s ∈ (heapMalloc heap size).2.taken := by
    refine ⟨?_, ?_⟩
    · rwa [hready.malloc_totalEntries]
    · rw [heq]
      exact marked_taken Nat.one_pos (by omega) (Nat.le_refl s) (by omega)
  have hnext : ¬ (heapMalloc heap size).2.table.HasNext s := by
    rw [heq]
    exact fun hnext => (marked_last Nat.one_pos (by omega) rfl hnext).1 rfl
  refine ⟨?_, fun p hp => ?_, fun p hp => ?_, fun p hp => ?_⟩
  · rw [List.map_cons]
    refine List.nodup_cons.mpr ⟨fun hin => ?_, h.nodup⟩
    obtain ⟨p, hp, hpblock⟩ := List.mem_map.mp hin
    rw [hblock] at hpblock
    exact (h.taken p hp).2 (hpblock ▸ hfree)
  · rcases List.mem_cons.mp hp with rfl | hp
    · rwa [hblock]
    · exact (hold p hp).1
  · rcases List.mem_cons.mp hp with rfl | hp
    · rwa [hblock]
    · exact fun hin => h.single p hp ((hold p hp).2.mp hin)
  · rcases List.mem_cons.mp hp with rfl | hp
    · rw [hblock, heq, hready.start]
    · exact h.address p hp

/-- Giving one of them back keeps the others. -/
theorem Heap.Holding.free (h : heap.Holding (ptr :: ptrs)) (hready : heap.Ready) :
    (heapFree heap ptr).Holding ptrs := by
  have hout : ∀ p ∈ ptrs, kfreeBlock p ∉ heap.blocksFrom ptr := by
    rintro p hp ⟨hlo, hchain⟩
    have hne : kfreeBlock p ≠ kfreeBlock ptr := by
      intro heq
      exact (List.nodup_cons.mp h.nodup).1 (List.mem_map.mpr ⟨p, hp, heq⟩)
    exact h.single ptr List.mem_cons_self (hchain _ (Nat.le_refl _) (by omega))
  refine ⟨h.drop.nodup, fun p hp => ?_, fun p hp hnext => h.drop.single p hp (heapFree_hasNext hready hnext),
    h.drop.address⟩
  obtain ⟨hlt, htaken⟩ := h.drop.taken p hp
  refine ⟨?_, ?_⟩
  · rwa [heapFree_totalEntries hready]
  · unfold HeapTable.Free at htaken ⊢
    rwa [heapFree_outside hready (hout p hp)]

theorem Heap.Holding.kept {heap' : Heap} (h : heap.Holding ptrs) (hkept : heap.Kept heap.taken heap') :
    heap'.Holding ptrs where
  nodup := h.nodup
  taken := fun ptr hptr => hkept.shields.taken (h.taken ptr hptr)
  single := fun ptr hptr hnext => h.single ptr hptr ((hkept.next _ (h.taken ptr hptr)).mp hnext)
  address := h.address

theorem Heap.Holding.after (h : heap.Holding ptrs) (hready : heap.Ready) {sizes : List Nat}
    (hsizes : ∀ size ∈ sizes, size < 4294967296) : (heapAfter heap sizes).Holding ptrs := by
  induction sizes generalizing heap with
  | nil => exact h
  | cons size sizes ih =>
      have hold := fun ptr hptr => hready.malloc_taken (hsizes size List.mem_cons_self) (h.taken ptr hptr)
      have hnext : (heapMalloc heap size).2.Holding ptrs :=
        ⟨h.nodup, fun ptr hptr => (hold ptr hptr).1, fun ptr hptr hin => h.single ptr hptr ((hold ptr hptr).2.mp hin),
          h.address⟩
      exact ih hnext (heapMalloc_ready hready).1 fun q hq => hsizes q (List.mem_cons_of_mem size hq)

end Holding

end BimbleOS
