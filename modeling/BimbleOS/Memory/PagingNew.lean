import BimbleOS.Kernel.State

/-!
# `Memory.PagingNew` — making and freeing page directories

`paging_new` and `paging_free` of `memory/paging/paging.c`.
-/

namespace BimbleOS

/-- The inner loop of `paging_new`: a table that maps 1024 pages from `offset` on to themselves. The
    offset is an `int` that runs over `2^31`; it is taken modulo `2^32`, as it is compiled. -/
def PageStore.fillTable (s : PageStore) (entry offset : Nat) (flags : BitVec 32) : PageStore :=
  { s with word := fun a =>
      if entry ≤ a ∧ a < entry + 4096 then
        BitVec.ofNat 32 offset + (BitVec.ofNat 32 ((a - entry) / 4 * pagingPageSize) ||| flags)
      else s.word a }

/-- A word of a directory. -/
def PageStore.setWord (s : PageStore) (a : Nat) (val : BitVec 32) : PageStore :=
  { s with word := Function.update s.word a val }

/-- One round of the outer loop of `paging_new`: the table `entry` is filled and entered. -/
def PageStore.newTable (s : PageStore) (flags : BitVec 32) (directory i entry : Nat) : PageStore :=
  (s.fillTable entry (pagingPageSize * pagingTotalEntriesPerTable * i) flags).setWord
    (directory + 4 * i) (BitVec.ofNat 32 entry ||| flags ||| pagingIsWriteable)

/-- A write to the page tables. -/
def modifyPages (f : PageStore → PageStore) : KM Unit :=
  modify fun k => { k with pages := f k.pages }

/-- The outer loop of `paging_new` from entry `i` on, `left` entries to go. -/
def pagingNewLoop (flags : BitVec 32) (directory : Nat) : Nat → Nat → KM Unit
  | 0, _ => return ()
  | left + 1, i => do
      let entry ← kzalloc (4 * pagingTotalEntriesPerTable)
      deref entry
      deref directory
      modifyPages fun s => s.newTable flags directory i entry
      pagingNewLoop flags directory left (i + 1)

def sizeofPageDirectory4gb : Nat := 4

/-- `paging_new`. -/
def pagingNew (flags : BitVec 32) : KM Nat := do
  let directory ← kzalloc (4 * pagingTotalEntriesPerTable)
  pagingNewLoop flags directory pagingTotalEntriesPerTable 0
  let pageDirectory ← kzalloc sizeofPageDirectory4gb
  deref pageDirectory
  modifyPages fun s => s.setWord pageDirectory (BitVec.ofNat 32 directory)
  return pageDirectory

section Progress

variable {flags : BitVec 32} {k : Kernel} {directory left i : Nat}

/-- The loop returns as long as there is a block for each table. -/
theorem pagingNewLoop_ok (h : k.heap.Ready) (hdirectory : directory ≠ 0)
    (hleft : left ≤ k.heap.freeBlocks) :
    ∃ k', pagingNewLoop flags directory left i k = .ok ((), k') ∧ k'.heap.Ready ∧
      k'.heap.freeBlocks + left = k.heap.freeBlocks := by
  induction left generalizing i k with
  | zero => exact ⟨k, rfl, h, rfl⟩
  | succ left ih =>
      rcases kzalloc_one (4 * pagingTotalEntriesPerTable) h (by decide) (by decide) with
        ⟨_, hzero⟩ | ⟨entry, k₁, halloc, hentry, hready, hcount⟩
      · omega
      · obtain ⟨k', hrun, hready', hcount'⟩ := @ih
          { k₁ with pages := k₁.pages.newTable flags directory i entry } (i + 1) hready
          (show left ≤ k₁.heap.freeBlocks by omega)
        have hrest : k'.heap.freeBlocks + left = k₁.heap.freeBlocks := hcount'
        refine ⟨k', ?_, hready', by omega⟩
        rw [pagingNewLoop, Exec.bind_of_ok halloc, Exec.bind_of_ok (deref_of_ne hentry),
          Exec.bind_of_ok (deref_of_ne hdirectory)]
        exact hrun

/-- **`paging_new` succeeds** as long as 1026 blocks are free. -/
theorem pagingNew_ok (h : k.heap.Ready) (hfree : 1026 ≤ k.heap.freeBlocks) :
    ∃ d k', pagingNew flags k = .ok (d, k') ∧ k'.heap.Ready ∧
      k'.heap.freeBlocks + 1026 = k.heap.freeBlocks := by
  rcases kzalloc_one (4 * pagingTotalEntriesPerTable) h (by decide) (by decide) with
    ⟨_, hzero⟩ | ⟨directory, k₁, halloc, hdirectory, hready, hcount⟩
  · omega
  obtain ⟨k₂, hloop, hready₂, hcount₂⟩ := @pagingNewLoop_ok flags k₁ directory pagingTotalEntriesPerTable 0
    hready hdirectory (show 1024 ≤ k₁.heap.freeBlocks by omega)
  have hrest : k₂.heap.freeBlocks + 1024 = k₁.heap.freeBlocks := hcount₂
  rcases kzalloc_one sizeofPageDirectory4gb hready₂ (by decide) (by decide) with
    ⟨_, hzero⟩ | ⟨d, k₃, halloc₃, hd, hready₃, hcount₃⟩
  · omega
  refine ⟨d, { k₃ with pages := k₃.pages.setWord d (BitVec.ofNat 32 directory) }, ?_, hready₃, ?_⟩
  · unfold pagingNew
    rw [Exec.bind_of_ok halloc, Exec.bind_of_ok hloop, Exec.bind_of_ok halloc₃,
      Exec.bind_of_ok (deref_of_ne hd)]
    rfl
  · show k₃.heap.freeBlocks + 1026 = k.heap.freeBlocks
    omega

end Progress

/-- The loop of `paging_free`. -/
def pagingFreeLoop (chunk : Nat) : Nat → Nat → KM Unit
  | 0, _ => return ()
  | left + 1, i => do
      let k ← get
      kfree (k.pages.table (k.pages.directory chunk) i)
      pagingFreeLoop chunk left (i + 1)

/-- `paging_free`. -/
def pagingFree (chunk : Nat) : KM Unit := do
  deref chunk
  pagingFreeLoop chunk 1024 0
  let k ← get
  kfree (k.pages.directory chunk)
  kfree chunk

end BimbleOS
