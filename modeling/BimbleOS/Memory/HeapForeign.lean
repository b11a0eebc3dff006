import BimbleOS.Memory.HeapSpec

/-!
# `Memory.HeapForeign` — giving back addresses that are not in the heap

`heap_free` does not check its argument: it turns the distance to the start of the heap into a block number, and the
loop does nothing when that number, taken as unsigned, is no entry of the table. This holds for null and for nearly
every other address outside the heap. The exception is the last block in front of the heap: its negative distances are
rounded towards zero, so that block 0 is given back (`heapFree_foreign_iff`).
-/

namespace BimbleOS

open CWord

/-- The address is less than a block in front of the heap. -/
def Heap.JustBelow (heap : Heap) (address : Nat) : Prop :=
  0 < u32 (heap.saddr - address) ∧ u32 (heap.saddr - address) < bimbleosHeapBlockSize

instance (heap : Heap) (address : Nat) : Decidable (heap.JustBelow address) := inferInstanceAs (Decidable (_ ∧ _))

/-- The blocks of the heap are in the address space. -/
def Heap.Fits (heap : Heap) : Prop := heap.saddr + bimbleosHeapBlockSize * heap.table.totalEntries ≤ 4294967296

/-- An address that is in none of the blocks. -/
structure Heap.Foreign (heap : Heap) (address : Nat) : Prop where
  lt : address < 4294967296
  outside : address < heap.saddr ∨ heap.saddr + bimbleosHeapBlockSize * heap.table.totalEntries ≤ address

section Foreign

variable {heap : Heap} {t : HeapTable} {address : Nat}

/-- Where the loop starts. -/
theorem heapFree_loop (heap : Heap) (address : Nat) : (heapFree heap address).table
    = heapFreeLoop heap.table (u32 (heapAddressToBlock heap address))
        (heap.table.totalEntries - u32 (heapAddressToBlock heap address)) := rfl

/-- Just below the heap the division rounds to block 0. -/
theorem heapAddressToBlock_justBelow (h : heap.JustBelow address) : heapAddressToBlock heap address = 0 := by
  obtain ⟨hpos, hlt⟩ := h
  unfold bimbleosHeapBlockSize at hlt
  have hdist : s32 (address - heap.saddr) = -((u32 (heap.saddr - address) : Nat) : Int) := by
    unfold s32
    unfold u32 at hpos hlt ⊢
    omega
  unfold heapAddressToBlock bimbleosHeapBlockSize
  rw [hdist, Int.neg_tdiv, Int.tdiv_eq_zero_of_lt (by omega) (by omega)]
  rfl

/-- From every other address outside, the number of the block is none of the table's. -/
theorem Heap.Foreign.block (h : heap.Foreign address) (hfits : heap.Fits) (hbelow : ¬ heap.JustBelow address) :
    heap.table.totalEntries ≤ u32 (heapAddressToBlock heap address) := by
  obtain ⟨hlt, hout⟩ := h
  unfold Heap.Fits bimbleosHeapBlockSize at hfits
  unfold bimbleosHeapBlockSize at hout
  unfold Heap.JustBelow bimbleosHeapBlockSize at hbelow
  unfold heapAddressToBlock bimbleosHeapBlockSize
  rcases Int.lt_or_le (s32 (address - heap.saddr)) 0 with hneg | hnonneg
  · -- at least a block in front of the heap, where addresses wrap: a negative number, which is a large one
    obtain ⟨g, hg⟩ : ∃ g : Nat, s32 (address - heap.saddr) = -(g : Int) :=
      ⟨(s32 (address - heap.saddr)).natAbs, by omega⟩
    have hblock : 4096 ≤ g ∧ g ≤ 2147483648 := by
      unfold u32 at hbelow
      unfold s32 at hg hneg
      omega
    rw [hg, Int.neg_tdiv, Int.tdiv_eq_ediv_of_nonneg (Int.natCast_nonneg g)]
    unfold u32
    omega
  · rw [Int.tdiv_eq_ediv_of_nonneg hnonneg]
    unfold s32 at hnonneg ⊢
    unfold u32
    omega

/-- The loop that starts at the first entry changes the table if there is an entry that is not 0. -/
theorem heapFreeLoop_unchanged_iff {n : Nat} (hn : n = t.totalEntries) :
    heapFreeLoop t 0 n = t ↔ n = 0 ∨ t.entries 0 = heapBlockTableEntryFree := by
  cases n with
  | zero => exact ⟨fun _ => Or.inl rfl, fun _ => rfl⟩
  | succ n =>
      have hinside : ¬ t.totalEntries ≤ 0 := by omega
      constructor
      · intro heq
        obtain ⟨m, _, hentries, _, hstop⟩ := heapFreeLoop_spec (n + 1) t 0
        have hfirst := hentries 0
        rw [heq, if_pos (by omega)] at hfirst
        exact Or.inr hfirst
      · rintro (hzero | hfree)
        · cases hzero
        · -- the first entry is written again, and it has no next one
          have hset : t.set 0 heapBlockTableEntryFree = t := by
            unfold HeapTable.set
            rw [← hfree, Function.update_eq_self, decide_eq_false hinside, Bool.or_false]
          have hlast : t.entries 0 &&& heapBlockHasNext = 0#8 := by
            rw [hfree]
            decide
          unfold heapFreeLoop
          simp only [hlast, if_true, hset]

end Foreign

/-- **Giving back an address outside the heap** leaves the table unchanged exactly when the address is not just below
    the heap, or there is nothing in the first entry that could be lost. -/
theorem heapFree_foreign_iff {heap : Heap} {address : Nat} (hfits : heap.Fits) (h : heap.Foreign address) :
    (heapFree heap address).table = heap.table ↔ ¬ heap.JustBelow address ∨ heap.table.totalEntries = 0 ∨
      heap.table.entries 0 = heapBlockTableEntryFree := by
  rw [heapFree_loop]
  by_cases hbelow : heap.JustBelow address
  · have hzero : u32 0 = 0 := rfl
    rw [heapAddressToBlock_justBelow hbelow, hzero, Nat.sub_zero, heapFreeLoop_unchanged_iff rfl]
    exact (or_iff_right (not_not_intro hbelow)).symm
  · rw [Nat.sub_eq_zero_of_le (h.block hfits hbelow)]
    exact ⟨fun _ => Or.inl hbelow, fun _ => rfl⟩

/-- A heap of one block, which is taken. -/
def takenHeap : Heap where
  table := { entries := fun _ => heapBlockTableEntryTaken ||| heapBlockIsFirst, totalEntries := 1 }
  saddr := bimbleosHeapAddress

theorem heapFree_foreign_iff_null : (heapFree takenHeap 0).table = takenHeap.table ↔
    ¬ takenHeap.JustBelow 0 ∨ takenHeap.table.totalEntries = 0 ∨
      takenHeap.table.entries 0 = heapBlockTableEntryFree :=
  heapFree_foreign_iff (by unfold Heap.Fits; decide) ⟨by decide, Or.inl (by decide)⟩

/-- The byte in front of the heap. -/
theorem heapFree_foreign_frees : ¬ ∀ (heap : Heap) (address : Nat), heap.Fits → heap.Foreign address →
    (heapFree heap address).table = heap.table := by
  intro h
  have hfits : takenHeap.Fits := by
    unfold Heap.Fits
    decide
  have hsame := h takenHeap 0xFFFFFF hfits ⟨by decide, Or.inl (by decide)⟩
  have hfirst := congrArg (fun t => t.entries 0) hsame
  exact absurd hfirst (by decide)

end BimbleOS
