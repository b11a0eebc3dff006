import Mathlib.Logic.Function.Basic
import BimbleOS.Config
import BimbleOS.Lib.Word

/-!
# `Memory.Heap` — `memory/heap/heap.c`

The block allocator. A heap is a start address and a table with one byte per 4096-byte block. The
functions below are the ones of `heap.c`, in the same order.

`entries` is the memory the table pointer points to, indexed by entry: it is total, because nothing in
the C code stops a store at an index past `totalEntries`. The ghost flag `stray` records that such a
store happened.
-/

namespace BimbleOS

open CWord

/-! ## `heap.h` -/

/-- `HEAP_BLOCK_TABLE_ENTRY`, an unsigned char. -/
abbrev HeapBlockTableEntry := BitVec 8

def heapBlockTableEntryTaken : HeapBlockTableEntry := 0x01#8
def heapBlockTableEntryFree : HeapBlockTableEntry := 0x00#8
def heapBlockHasNext : HeapBlockTableEntry := 0b10000000#8
def heapBlockIsFirst : HeapBlockTableEntry := 0b01000000#8

/-- `struct heap_table`, with the ghost flag `stray`: some store went past the last entry. -/
structure HeapTable where
  entries : Nat → HeapBlockTableEntry
  totalEntries : Nat
  stray : Bool := false

/-- `struct heap`. -/
structure Heap where
  table : HeapTable
  saddr : Nat

/-- `table->entries[i] = v`. -/
def HeapTable.set (t : HeapTable) (i : Nat) (v : HeapBlockTableEntry) : HeapTable :=
  { t with entries := Function.update t.entries i v, stray := t.stray || decide (t.totalEntries ≤ i) }

/-! ## Creation -/

/-- `heap_validate_table`: the block count of the region, computed in `int`, is compared with the
    (unsigned) number of table entries. -/
def heapValidateTable (ptr end_ : Nat) (table : HeapTable) : Int :=
  let tableSize := s32 (end_ - ptr)
  let totalBlocks := tableSize.tdiv bimbleosHeapBlockSize
  if u32 totalBlocks ≠ table.totalEntries then -EINVARG else bimbleosAllOk

def heapValidateAlignment (ptr : Nat) : Bool := ptr % bimbleosHeapBlockSize == 0

def heapAlignValueToUpper (size : Nat) : Nat :=
  if size % bimbleosHeapBlockSize = 0 then size
  else u32 (((size - size % bimbleosHeapBlockSize + bimbleosHeapBlockSize : Nat) : Int))

/-- `memset(table->entries, HEAP_BLOCK_TABLE_ENTRY_FREE, size)`. -/
def HeapTable.clear (t : HeapTable) (size : Nat) : HeapTable :=
  { t with entries := fun i => if i < size then heapBlockTableEntryFree else t.entries i }

/-- `heap_create`: the `struct heap` that is filled in, and the return code. The final `memset` clears
    `totalEntries` bytes of the table (its length goes through an `int`). -/
def heapCreate (heap : Heap) (ptr end_ : Nat) (table : HeapTable) : Int × Heap :=
  if !heapValidateAlignment ptr || !heapValidateAlignment end_ then (-EINVARG, heap)
  else
    let res := heapValidateTable ptr end_ table
    if res < 0 then (res, { table := table, saddr := ptr })
    else (res, { table := table.clear (u32 (s32 table.totalEntries)), saddr := ptr })

/-! ## Allocation -/

/-- `heap_get_entry_type`: the low four bits. -/
def heapGetEntryType (entry : HeapBlockTableEntry) : HeapBlockTableEntry := entry &&& 0x0f#8

def heapBlockToAddress (heap : Heap) (block : Int) : Nat :=
  u32 (heap.saddr + block * bimbleosHeapBlockSize)

/-- The middle loop of `heap_mark_blocks_taken`: every entry from `i` on, `count` of them, is or-ed with
    `TAKEN | HAS_NEXT`. -/
def heapMarkLoop (t : HeapTable) (i : Nat) : Nat → HeapTable
  | 0 => t
  | count + 1 =>
      heapMarkLoop (t.set i (t.entries i ||| (heapBlockTableEntryTaken ||| heapBlockHasNext))) (i + 1) count

/-- `heap_mark_blocks_taken`. `end_block` is a `size_t`: with no block to mark it is one below
    `start_block`, or `0xFFFFFFFF` when that is 0. -/
def heapMarkBlocksTaken (heap : Heap) (startBlock totalBlocks : Nat) : Heap :=
  let endBlock := u32 (startBlock + totalBlocks - 1)
  let t := heap.table.set startBlock heapBlockIsFirst
  let t := heapMarkLoop t startBlock (endBlock - startBlock)
  { heap with table := t.set endBlock (t.entries endBlock ||| heapBlockTableEntryTaken) }

/-- The scan of `heap_get_start_block` from entry `i`, with `left` entries to go. -/
def heapScan (table : HeapTable) (totalBlocks : Nat) (i : Nat) (blockCount : Nat) (blockStart : Int) :
    Nat → Int
  | 0 => blockStart
  | left + 1 =>
      if heapGetEntryType (table.entries i) ≠ heapBlockTableEntryFree then
        heapScan table totalBlocks (i + 1) 0 (-1) left
      else
        let blockStart := if blockStart = -1 then s32 i else blockStart
        -- with no block asked for this never happens, and the scan goes to the end of the table
        if blockCount + 1 = totalBlocks then blockStart
        else heapScan table totalBlocks (i + 1) (blockCount + 1) blockStart left

def heapGetStartBlock (heap : Heap) (totalBlocks : Nat) : Int :=
  let blockStart := heapScan heap.table totalBlocks 0 0 (-1) heap.table.totalEntries
  if blockStart = -1 then -ENOMEM else blockStart

def heapMallocBlocks (heap : Heap) (totalBlocks : Nat) : Nat × Heap :=
  let startBlock := heapGetStartBlock heap totalBlocks
  if startBlock < 0 then (0, heap)
  else (heapBlockToAddress heap startBlock, heapMarkBlocksTaken heap startBlock.toNat totalBlocks)

/-- `heap_malloc`: the address (0 when there is none) and the heap afterwards. -/
def heapMalloc (heap : Heap) (totalSize : Nat) : Nat × Heap :=
  let alignedSize := heapAlignValueToUpper totalSize
  let totalBlocks := alignedSize / bimbleosHeapBlockSize
  heapMallocBlocks heap totalBlocks

/-! ## De-allocation -/

/-- `heap_address_to_block`: the byte distance as an `int`, divided with truncation towards zero. -/
def heapAddressToBlock (heap : Heap) (address : Nat) : Int :=
  (s32 (address - heap.saddr)).tdiv bimbleosHeapBlockSize

/-- The loop of `heap_mark_blocks_free` from entry `i`, with `left` entries to go. -/
def heapFreeLoop (t : HeapTable) (i : Nat) : Nat → HeapTable
  | 0 => t
  | left + 1 =>
      let entry := t.entries i
      let t := t.set i heapBlockTableEntryFree
      -- the flag of the entry as it was
      if entry &&& heapBlockHasNext = 0#8 then t else heapFreeLoop t (i + 1) left

/-- `heap_mark_blocks_free`; the starting block is converted to `size_t` before the comparison. -/
def heapMarkBlocksFree (heap : Heap) (startingBlock : Int) : Heap :=
  let i := u32 startingBlock
  { heap with table := heapFreeLoop heap.table i (heap.table.totalEntries - i) }

def heapFree (heap : Heap) (ptr : Nat) : Heap :=
  heapMarkBlocksFree heap (heapAddressToBlock heap ptr)

end BimbleOS
