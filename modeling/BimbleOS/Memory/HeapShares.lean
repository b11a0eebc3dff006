import Mathlib.Order.CompletePartialOrder
import BimbleOS.Memory.HeapOwners

/-!
# `Memory.HeapShares` — the blocks behind a list of pointers

An owner that keeps some pointers has the blocks that freeing them would reach (`Heap.blocksOf`). Another owner that
frees its own pointers leaves these blocks taken exactly when none of its runs meets them: `Heap.Occupies.freeAll` and
`Heap.Occupies.not_reached`.
-/

namespace BimbleOS

/-- The blocks of the table that freeing the pointers reaches. -/
def Heap.blocksOf (heap : Heap) (ptrs : List Nat) : Set Nat :=
  { b | b < heap.table.totalEntries ∧ ∃ ptr ∈ ptrs, b ∈ heap.blocksFrom ptr }

/-- All blocks behind the pointers are taken. -/
structure Heap.Occupies (heap : Heap) (ptrs : List Nat) : Prop where
  start : ∀ ptr ∈ ptrs, kfreeBlock ptr ∈ heap.taken
  run : heap.blocksOf ptrs ⊆ heap.taken

section Shares

variable {heap heap' : Heap} {ptrs freed : List Nat} {ptr b : Nat} {S B : Set Nat}

theorem mem_blocksFrom (heap : Heap) (ptr : Nat) : kfreeBlock ptr ∈ heap.blocksFrom ptr :=
  ⟨Nat.le_refl _, fun j hlo hj => absurd hj (by omega)⟩

/-- The next block of one that goes on is reached as well. -/
theorem blocksFrom_succ (hb : b ∈ heap.blocksFrom ptr) (hnext : heap.table.HasNext b) :
    b + 1 ∈ heap.blocksFrom ptr := by
  obtain ⟨hlo, hchain⟩ := hb
  refine ⟨by omega, fun j hlo' hj => ?_⟩
  rcases Nat.eq_or_lt_of_le (Nat.le_of_lt_succ hj) with rfl | hlt
  · exact hnext
  · exact hchain j hlo' hlt

theorem mem_blocksOf (hptr : ptr ∈ ptrs) (hb : b ∈ heap.blocksFrom ptr) (hlt : b < heap.table.totalEntries) :
    b ∈ heap.blocksOf ptrs :=
  ⟨hlt, ptr, hptr, hb⟩

/-- `kfree` of a single block reaches no other. -/
theorem Heap.Holding.disjoint (h : heap.Holding [ptr]) (hout : kfreeBlock ptr ∉ B) :
    Disjoint (heap.blocksFrom ptr) B := by
  refine Set.disjoint_left.mpr fun b hb hin => ?_
  obtain ⟨hlo, hchain⟩ := hb
  rcases Nat.eq_or_lt_of_le hlo with rfl | hlt
  · exact hout hin
  · exact h.single ptr (List.mem_singleton.mpr rfl) (hchain _ (Nat.le_refl _) hlt)

/-- A run stays in a closed set. The induction is along the run. -/
theorem Heap.Closed.blocksFrom (h : heap.Closed S) (hptr : kfreeBlock ptr ∈ S) (hb : b ∈ heap.blocksFrom ptr)
    (hlt : b < heap.table.totalEntries) : b ∈ S := by
  obtain ⟨hlo, hchain⟩ := hb
  obtain ⟨d, rfl⟩ := Nat.exists_eq_add_of_le hlo
  induction d with
  | zero => exact hptr
  | succ d ih =>
      have hmem : kfreeBlock ptr + d ∈ S :=
        ih (by omega) (Nat.le_add_right _ _) fun j hlo' hj => hchain j hlo' (by omega)
      exact h.next (kfreeBlock ptr + d) hmem (hchain (kfreeBlock ptr + d) (by omega) (by omega)) hlt

theorem Heap.Closed.blocksOf (h : heap.Closed S) (hptrs : ∀ ptr ∈ ptrs, kfreeBlock ptr ∈ S) :
    heap.blocksOf ptrs ⊆ S := by
  rintro b ⟨hlt, ptr, hptr, hb⟩
  exact h.blocksFrom (hptrs ptr hptr) hb hlt

theorem Heap.Closed.occupies (h : heap.Closed S) (hptrs : ∀ ptr ∈ ptrs, kfreeBlock ptr ∈ S) :
    heap.Occupies ptrs where
  start := fun ptr hptr => h.taken (hptrs ptr hptr)
  run := (h.blocksOf hptrs).trans h.taken

/-- As long as they go on as before, they are the same blocks. -/
theorem blocksOf_congr (htotal : heap'.table.totalEntries = heap.table.totalEntries)
    (hnext : ∀ b ∈ heap.blocksOf ptrs, (heap'.table.HasNext b ↔ heap.table.HasNext b)) :
    heap'.blocksOf ptrs = heap.blocksOf ptrs := by
  ext b
  constructor
  · rintro ⟨hlt, ptr, hptr, hlo, hchain⟩
    rw [htotal] at hlt
    -- from the start of the run on, each block is reached and goes on as before
    have hold : ∀ j, kfreeBlock ptr ≤ j → j < b → heap.table.HasNext j := by
      intro j
      induction j using Nat.strong_induction_on with
      | _ j ih =>
          intro hj hjb
          have hmem : j ∈ heap.blocksFrom ptr := ⟨hj, fun i hi hij => ih i hij hi (by omega)⟩
          exact (hnext j (mem_blocksOf hptr hmem (by omega))).mp (hchain j hj hjb)
    exact mem_blocksOf hptr ⟨hlo, hold⟩ hlt
  · rintro ⟨hlt, ptr, hptr, hlo, hchain⟩
    have hnew : ∀ j, kfreeBlock ptr ≤ j → j < b → heap'.table.HasNext j := by
      intro j hj hjb
      have hmem : j ∈ heap.blocksFrom ptr := ⟨hj, fun i hi hij => hchain i hi (by omega)⟩
      exact (hnext j (mem_blocksOf hptr hmem (by omega))).mpr (hchain j hj hjb)
    exact mem_blocksOf hptr ⟨hlo, hnew⟩ (by rwa [htotal])

theorem Heap.Kept.blocksOf (h : heap.Kept B heap') (hB : heap.blocksOf ptrs ⊆ B) :
    heap'.blocksOf ptrs = heap.blocksOf ptrs :=
  blocksOf_congr h.total fun b hb => h.next b (hB hb)

theorem Heap.Occupies.kept (h : heap.Occupies ptrs) (hkept : heap.Kept heap.taken heap') :
    heap'.Occupies ptrs ∧ heap'.blocksOf ptrs = heap.blocksOf ptrs := by
  have hblocks := hkept.blocksOf h.run
  refine ⟨⟨fun ptr hptr => hkept.shields.taken (h.start ptr hptr), ?_⟩, hblocks⟩
  rw [hblocks]
  exact h.run.trans hkept.shields.taken

/-- Blocks whose entries are as before are still taken. -/
theorem Heap.Occupies.congr (h : heap.Occupies ptrs) (htotal : heap'.table.totalEntries = heap.table.totalEntries)
    (hsame : ∀ b ∈ heap.blocksOf ptrs, heap'.table.entries b = heap.table.entries b) :
    heap'.Occupies ptrs ∧ heap'.blocksOf ptrs = heap.blocksOf ptrs := by
  have hblocks : heap'.blocksOf ptrs = heap.blocksOf ptrs := by
    refine blocksOf_congr htotal fun b hb => ?_
    unfold HeapTable.HasNext
    rw [hsame b hb]
  have htaken : ∀ b ∈ heap.blocksOf ptrs, b ∈ heap.taken → b ∈ heap'.taken := by
    rintro b hb ⟨hlt, hfree⟩
    refine ⟨by rwa [htotal], ?_⟩
    unfold HeapTable.Free at hfree ⊢
    rwa [hsame b hb]
  refine ⟨⟨fun ptr hptr => ?_, ?_⟩, hblocks⟩
  · have hstart := h.start ptr hptr
    exact htaken _ (mem_blocksOf hptr (mem_blocksFrom heap ptr) hstart.1) hstart
  · rw [hblocks]
    exact fun b hb => htaken b hb (h.run hb)

/-! ## What another owner frees -/

/-- Freeing pointers whose runs do not meet the blocks changes none of them. -/
theorem Heap.Occupies.freeAll (h : heap.Occupies ptrs) (hready : heap.Ready)
    (hout : ∀ b ∈ heap.blocksOf ptrs, ∀ p ∈ freed, b ∉ heap.blocksFrom p) :
    (heap.freeAll freed).Occupies ptrs ∧ (heap.freeAll freed).blocksOf ptrs = heap.blocksOf ptrs :=
  h.congr (hready.freeAll_totalEntries freed) fun b hb => hready.freeAll_outside (hout b hb)

/-- **All blocks that are reached are free afterwards.** What an earlier pointer cuts off a run it has freed itself. -/
theorem Heap.Ready.freeAll_inside (h : heap.Ready) (hptr : ptr ∈ freed) (hb : b ∈ heap.blocksFrom ptr) :
    b ∉ (heap.freeAll freed).taken := by
  induction freed generalizing heap with
  | nil => exact absurd hptr List.not_mem_nil
  | cons a freed ih =>
      by_cases hfirst : b ∈ heap.blocksFrom a
      · exact fun hin => heapFree_inside h hfirst (h.free.taken_freeAll freed hin)
      rcases List.mem_cons.mp hptr with rfl | hptr
      · exact absurd hb hfirst
      -- `a` reaches no block of the run up to `b`: it would go on to `b`
      have hapart : ∀ j, kfreeBlock ptr ≤ j → j < b → j ∉ heap.blocksFrom a := by
        rintro j hlo hj ⟨hstart, hchain⟩
        refine hfirst ⟨by omega, fun i hi hib => ?_⟩
        by_cases hij : i < j
        · exact hchain i hi hij
        · exact hb.2 i (by omega) hib
      refine ih h.free hptr ⟨hb.1, fun j hlo hj => ?_⟩
      unfold HeapTable.HasNext
      rw [heapFree_outside h (hapart j hlo hj)]
      exact hb.2 j hlo hj

/-- When the blocks are still taken afterwards, none of them was reached. The induction is along their runs. -/
theorem Heap.Occupies.not_reached (h : (heap.freeAll freed).Occupies ptrs) (hready : heap.Ready) :
    ∀ b ∈ heap.blocksOf ptrs, ∀ p ∈ freed, b ∉ heap.blocksFrom p := by
  rintro b ⟨hlt, ptr, hptr, hlo, hchain⟩
  have htotal := hready.freeAll_totalEntries freed
  have hstep : ∀ j, j ∈ (heap.freeAll freed).blocksFrom ptr → j < heap.table.totalEntries →
      ∀ p ∈ freed, j ∉ heap.blocksFrom p := by
    intro j hj hjlt p hp hin
    exact hready.freeAll_inside hp hin (h.run (mem_blocksOf hptr hj (by rwa [htotal])))
  obtain ⟨d, rfl⟩ := Nat.exists_eq_add_of_le hlo
  have hall : ∀ e, e ≤ d → kfreeBlock ptr + e ∈ (heap.freeAll freed).blocksFrom ptr := by
    intro e
    induction e with
    | zero => exact fun _ => mem_blocksFrom _ ptr
    | succ e ih =>
        intro he
        have hmem := ih (by omega)
        have hnext : (heap.freeAll freed).table.HasNext (kfreeBlock ptr + e) := by
          unfold HeapTable.HasNext
          rw [hready.freeAll_outside (hstep _ hmem (by omega))]
          exact hchain _ (by omega) (by omega)
        exact blocksFrom_succ hmem hnext
  exact hstep _ (hall d (Nat.le_refl d)) hlt

end Shares

end BimbleOS
