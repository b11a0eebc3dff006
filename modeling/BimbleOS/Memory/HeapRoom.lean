import BimbleOS.Memory.HeapSafety
import Mathlib.Data.Finset.Card
import Mathlib.Order.Interval.Finset.Nat

/-!
# `Memory.HeapRoom` — requests of one block, and how many are left

Most structures of the kernel take one block. Such a request finds a block as long as there is a free one,
and takes exactly one: no free run is too short for it, so it is never served wrongly.
-/

namespace BimbleOS

open CWord BlockRuns

/-- The number of free blocks. -/
def Heap.freeBlocks (heap : Heap) : Nat :=
  ((Finset.range heap.table.totalEntries).filter fun i => heap.table.Free i).card

/-- The heap of the kernel, as `kheap_init` sets it up. -/
structure Heap.Ready (heap : Heap) : Prop where
  start : heap.saddr = bimbleosHeapAddress
  total : heap.table.totalEntries ≤ 25600

section OneBlock

variable {heap : Heap} {s size : Nat}

theorem Heap.Ready.markBlocksTaken {k : Nat} (h : heap.Ready) : (heapMarkBlocksTaken heap s k).Ready :=
  ⟨h.start, by rw [heapMarkBlocksTaken_totalEntries]; exact h.total⟩

theorem Heap.Ready.free {ptr : Nat} (h : heap.Ready) : (heapFree heap ptr).Ready :=
  ⟨h.start, by unfold heapFree; rw [heapMarkBlocksFree_totalEntries]; exact h.total⟩

theorem heapBlocks_one (h₁ : 1 ≤ size) (h₂ : size ≤ 4096) : heapBlocks size = 1 := by
  have h := heapBlocks_of_le h₁ (by omega)
  omega

/-- Marking one free block takes that block and no other. -/
theorem free_mark_one {i : Nat} (hs : s + 1 ≤ 4294967296) :
    (heapMarkBlocksTaken heap s 1).table.Free i ↔ heap.table.Free i ∧ i ≠ s := by
  unfold HeapTable.Free
  rw [heapMarkBlocksTaken_entries Nat.one_pos hs]
  by_cases hi : i = s
  · subst hi
    rw [if_pos (by omega), if_pos rfl, if_neg (by omega)]
    exact iff_of_false (by decide) (fun h => h.2 rfl)
  · rw [if_neg (by omega)]
    exact (and_iff_left hi).symm

theorem freeBlocks_mark_one (hs : s < heap.table.totalEntries) (hfree : heap.table.Free s)
    (hn : heap.table.totalEntries ≤ 4294967296) :
    (heapMarkBlocksTaken heap s 1).freeBlocks + 1 = heap.freeBlocks := by
  have hset : (Finset.range heap.table.totalEntries).filter
      (fun i => (heapMarkBlocksTaken heap s 1).table.Free i)
        = ((Finset.range heap.table.totalEntries).filter fun i => heap.table.Free i).erase s := by
    ext i
    rw [Finset.mem_erase, Finset.mem_filter, Finset.mem_filter, free_mark_one (by omega)]
    constructor
    · rintro ⟨hi, hf, hne⟩
      exact ⟨hne, hi, hf⟩
    · rintro ⟨hne, hi, hf⟩
      exact ⟨hi, hf, hne⟩
  unfold Heap.freeBlocks
  rw [heapMarkBlocksTaken_totalEntries, hset]
  exact Finset.card_erase_add_one (Finset.mem_filter.mpr ⟨Finset.mem_range.mpr hs, hfree⟩)

/-- A scan for one block stops at a free entry. -/
theorem ScanResult.one {t : HeapTable} (h : ScanResult t 1 (s : Int)) :
    s < t.totalEntries ∧ t.Free s := by
  generalize hr : (s : Int) = r at h
  cases h with
  | @fit a _ hle hrun _ _ =>
      obtain rfl : s = a := by omega
      exact ⟨by omega, hrun s (Nat.le_refl s) (by omega)⟩
  | @tail a hlt hrun _ _ =>
      obtain rfl : s = a := by omega
      exact ⟨hlt, hrun s (Nat.le_refl s) (by omega)⟩
  | full => omega

/-- **A request of one block** fails only when no block is free, and otherwise takes a free block. -/
theorem heapMalloc_one (h : heap.Ready) (h₁ : 1 ≤ size) (h₂ : size ≤ 4096) :
    (heapMalloc heap size = (0, heap) ∧ heap.freeBlocks = 0) ∨
      ∃ s, s < heap.table.totalEntries ∧ heap.table.Free s ∧
        heapMalloc heap size = (heap.saddr + 4096 * s, heapMarkBlocksTaken heap s 1) ∧
        (heapMarkBlocksTaken heap s 1).freeBlocks + 1 = heap.freeBlocks := by
  have htotal := h.total
  have hstart : heap.saddr = 16777216 := h.start
  rw [heapMalloc_eq, heapBlocks_one h₁ h₂]
  rcases heapMallocBlocks_cases heap 1 (by omega) with ⟨heq, hres⟩ | ⟨s, heq, hres⟩
  · refine Or.inl ⟨heq, ?_⟩
    have hno : ¬ heap.table.Fits 1 := by
      cases hres with
      | full _ hno => exact hno Nat.one_pos
    unfold Heap.freeBlocks
    rw [Finset.card_eq_zero, Finset.filter_eq_empty_iff]
    intro i hi hfree
    refine hno ⟨i, Finset.mem_range.mp hi, fun j hlo hhi => ?_⟩
    have hij : j = i := by omega
    exact hij ▸ hfree
  · obtain ⟨hlt, hfree⟩ := hres.one
    refine Or.inr ⟨s, hlt, hfree, ?_, freeBlocks_mark_one hlt hfree (by omega)⟩
    rw [heq, heapBlockToAddress_eq (by omega)]

/-- A run of free blocks counts. -/
theorem freeBlocks_of_run {n : Nat} (hfree : heap.table.FreeRun s n) (hend : s + n ≤ heap.table.totalEntries) :
    n ≤ heap.freeBlocks := by
  have hsub : Finset.Ico s (s + n) ⊆ (Finset.range heap.table.totalEntries).filter fun i => heap.table.Free i := by
    intro i hi
    obtain ⟨hlo, hhi⟩ := Finset.mem_Ico.mp hi
    exact Finset.mem_filter.mpr ⟨Finset.mem_range.mpr (by omega), hfree i hlo hhi⟩
  have hcard := Finset.card_le_card hsub
  rwa [Nat.card_Ico, Nat.add_sub_cancel_left] at hcard

/-- A run of free blocks, and no others. -/
theorem freeBlocks_eq_of_run {n : Nat} (hfree : heap.table.FreeRun s n) (hend : s + n ≤ heap.table.totalEntries)
    (hrest : ∀ i, i < heap.table.totalEntries → heap.table.Free i → s ≤ i ∧ i < s + n) : heap.freeBlocks = n := by
  have hsub : (Finset.range heap.table.totalEntries).filter (fun i => heap.table.Free i) ⊆ Finset.Ico s (s + n) := by
    intro i hi
    obtain ⟨hlt, hi⟩ := Finset.mem_filter.mp hi
    exact Finset.mem_Ico.mpr (hrest i (Finset.mem_range.mp hlt) hi)
  have hcard := Finset.card_le_card hsub
  rw [Nat.card_Ico, Nat.add_sub_cancel_left] at hcard
  exact Nat.le_antisymm hcard (freeBlocks_of_run hfree hend)

/-- Freeing does not take blocks. -/
theorem freeBlocks_free {ptr : Nat} : heap.freeBlocks ≤ (heapFree heap ptr).freeBlocks := by
  obtain ⟨m, _, hentries, _, _⟩ := heapFreeLoop_spec
    (heap.table.totalEntries - u32 (heapAddressToBlock heap ptr)) heap.table (u32 (heapAddressToBlock heap ptr))
  unfold Heap.freeBlocks
  refine Finset.card_le_card fun i hi => ?_
  obtain ⟨hlt, hfree⟩ := Finset.mem_filter.mp hi
  have htotal : (heapFree heap ptr).table.totalEntries = heap.table.totalEntries :=
    heapMarkBlocksFree_totalEntries _ _
  refine Finset.mem_filter.mpr ⟨by rwa [htotal], ?_⟩
  show heapGetEntryType ((heapFreeLoop _ _ _).entries i) = heapBlockTableEntryFree
  rw [hentries]
  split
  · decide
  · exact hfree

/-! ## A series of requests -/

/-- What the heap answers to a series of requests. -/
def heapAnswers : Heap → List Nat → List Nat
  | _, [] => []
  | heap, size :: sizes => (heapMalloc heap size).1 :: heapAnswers (heapMalloc heap size).2 sizes

/-- The heap after them. -/
def heapAfter : Heap → List Nat → Heap
  | heap, [] => heap
  | heap, size :: sizes => heapAfter (heapMalloc heap size).2 sizes

theorem heapAnswers_cons (heap : Heap) (size : Nat) (sizes : List Nat) :
    heapAnswers heap (size :: sizes) = (heapMalloc heap size).1 :: heapAnswers (heapMalloc heap size).2 sizes := rfl

theorem heapAfter_cons (heap : Heap) (size : Nat) (sizes : List Nat) :
    heapAfter heap (size :: sizes) = heapAfter (heapMalloc heap size).2 sizes := rfl

/-- Requests of one block each that are all answered are answered with different blocks that were free. The
    induction is on the list of requests. -/
theorem heapAnswers_one {sizes : List Nat} (h : heap.Ready)
    (hsizes : ∀ size ∈ sizes, 1 ≤ size ∧ size ≤ 4096) (hanswered : 0 ∉ heapAnswers heap sizes) :
    (heapAnswers heap sizes).Nodup ∧ ∀ a ∈ heapAnswers heap sizes, ∃ s, s < heap.table.totalEntries ∧
      heap.table.Free s ∧ a = heap.saddr + 4096 * s := by
  induction sizes generalizing heap with
  | nil => exact ⟨List.nodup_nil, fun a ha => absurd ha List.not_mem_nil⟩
  | cons size sizes ih =>
      obtain ⟨h₁, h₂⟩ := hsizes size List.mem_cons_self
      obtain ⟨hfirst, hlater⟩ := not_or.mp (mt List.mem_cons.mpr hanswered)
      rcases heapMalloc_one h h₁ h₂ with ⟨hnull, _⟩ | ⟨s, hs, hfree, hres, _⟩
      · rw [hnull] at hfirst
        exact absurd rfl hfirst
      rw [hres] at hlater
      obtain ⟨hnodup, hanswers⟩ := @ih (heapMarkBlocksTaken heap s 1) h.markBlocksTaken
        (fun q hq => hsizes q (List.mem_cons_of_mem size hq)) hlater
      have hrest : ∀ a ∈ heapAnswers (heapMarkBlocksTaken heap s 1) sizes, ∃ i,
          i < heap.table.totalEntries ∧ heap.table.Free i ∧ a = heap.saddr + 4096 * i ∧ i ≠ s := by
        intro a ha
        obtain ⟨i, hi, hfreei, rfl⟩ := hanswers a ha
        have htotal := h.total
        obtain ⟨hfreei, hne⟩ := (free_mark_one (by omega)).mp hfreei
        exact ⟨i, by rwa [heapMarkBlocksTaken_totalEntries] at hi, hfreei, rfl, hne⟩
      rw [heapAnswers, hres]
      refine ⟨List.nodup_cons.mpr ⟨fun hmem => ?_, hnodup⟩, fun a ha => ?_⟩
      · obtain ⟨i, _, _, heq, hne⟩ := hrest _ hmem
        omega
      · rcases List.mem_cons.mp ha with rfl | ha
        · exact ⟨s, hs, hfree, rfl⟩
        · obtain ⟨i, hi, hfreei, heq, _⟩ := hrest a ha
          exact ⟨i, hi, hfreei, heq⟩

/-- As long as there are free blocks, every such request is answered. -/
theorem heapAnswers_answered {sizes : List Nat} (h : heap.Ready)
    (hsizes : ∀ size ∈ sizes, 1 ≤ size ∧ size ≤ 4096) (hroom : sizes.length ≤ heap.freeBlocks) :
    0 ∉ heapAnswers heap sizes := by
  induction sizes generalizing heap with
  | nil => exact List.not_mem_nil
  | cons size sizes ih =>
      obtain ⟨h₁, h₂⟩ := hsizes size List.mem_cons_self
      rw [List.length_cons] at hroom
      rcases heapMalloc_one h h₁ h₂ with ⟨_, hzero⟩ | ⟨s, _, _, hres, hcount⟩
      · omega
      have hstart : heap.saddr = 16777216 := h.start
      rw [heapAnswers, hres]
      refine fun hmem => (List.mem_cons.mp hmem).elim (fun heq => by omega) ?_
      exact @ih (heapMarkBlocksTaken heap s 1) h.markBlocksTaken
        (fun q hq => hsizes q (List.mem_cons_of_mem size hq)) (by omega)

end OneBlock

end BimbleOS
