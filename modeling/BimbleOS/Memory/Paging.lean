import BimbleOS.Config
import BimbleOS.Lib.Word
import Mathlib.Logic.Function.Basic

/-!
# `Memory.Paging` — page directories of `memory/paging/paging.c`

Page directories and page tables live in a word memory of their own (`PageStore.word`, addressed in
bytes): a `struct PageDirectory_4GB` is one word with the address of its directory, a directory is 1024
words that hold table addresses and flags, a table is 1024 words that hold page entries. Nothing else is
stored there, and no program data is read from there.

The ghost list `mapped` records every page entry that `paging_set` writes.
-/

namespace BimbleOS

open CWord

def pagingAccessFromAll : BitVec 32 := 0b100
def pagingIsWriteable : BitVec 32 := 0b10
def pagingIsPresent : BitVec 32 := 0b1

def pagingTotalEntriesPerTable : Nat := 1024
def pagingPageSize : Nat := 4096

/-- One write of `paging_set`: the directory, the virtual page and the entry. -/
structure MappedPage where
  directory : Nat
  virt : Nat
  entry : BitVec 32
  deriving DecidableEq, Repr

/-- The memory of page directories and page tables. -/
structure PageStore where
  word : Nat → BitVec 32
  mapped : List MappedPage := []

/-- `(uint32_t*)(entry & 0xfffff000)`, as an address. -/
def frameOf (entry : BitVec 32) : Nat := (entry &&& 0xfffff000#32).toNat

namespace PageStore

/-- `directory->directoryEntry`. -/
def directory (s : PageStore) (pageDirectory : Nat) : Nat := (s.word pageDirectory).toNat

/-- The address of a page table: `directory[i] & 0xfffff000`. -/
def table (s : PageStore) (directory i : Nat) : Nat := frameOf (s.word (directory + 4 * i))

end PageStore

/-- `paging_is_aligned`. -/
def pagingIsAligned (addr : Nat) : Bool := addr % pagingPageSize = 0

/-- `paging_get_indexes`; the callers start with both indexes at zero. -/
def pagingGetIndexes (virt : Nat) : Int × Nat × Nat :=
  if !pagingIsAligned virt then (-EINVARG, 0, 0)
  else (0, virt / (pagingTotalEntriesPerTable * pagingPageSize),
    virt % (pagingTotalEntriesPerTable * pagingPageSize) / pagingPageSize)

/-- `paging_set`. -/
def pagingSet (s : PageStore) (directory virt : Nat) (val : BitVec 32) : Int × PageStore :=
  if !pagingIsAligned virt then (-EINVARG, s)
  else
    let (res, directoryIndex, tableIndex) := pagingGetIndexes virt
    if res < 0 then (res, s)
    else
      let table := s.table directory directoryIndex
      (0, { s with
        word := Function.update s.word (table + 4 * tableIndex) val
        mapped := s.mapped ++ [⟨directory, virt, val⟩] })

/-- `paging_get`. -/
def pagingGet (s : PageStore) (directory virt : Nat) : BitVec 32 :=
  let (_, directoryIndex, tableIndex) := pagingGetIndexes virt
  s.word (s.table directory directoryIndex + 4 * tableIndex)

/-- `paging_align_address`: up to the next page boundary, modulo `2^32`. -/
def pagingAlignAddress (ptr : Nat) : Nat :=
  if ptr % pagingPageSize ≠ 0 then u32 (ptr + pagingPageSize - ptr % pagingPageSize : Nat) else ptr

/-- `paging_align_to_lower_page`. -/
def pagingAlignToLowerPage (addr : Nat) : Nat := addr - addr % pagingPageSize

/-- `paging_map`. -/
def pagingMap (s : PageStore) (pageDirectory virt phys : Nat) (flags : BitVec 32) : Int × PageStore :=
  if virt % pagingPageSize ≠ 0 ∨ phys % pagingPageSize ≠ 0 then (-EINVARG, s)
  else pagingSet s (s.directory pageDirectory) virt (BitVec.ofNat 32 phys ||| flags)

/-- `paging_map_range`. -/
def pagingMapRange (s : PageStore) (pageDirectory virt phys : Nat) (flags : BitVec 32) :
    Nat → Int × PageStore
  | 0 => (0, s)
  | count + 1 =>
      let (res, s) := pagingMap s pageDirectory virt phys flags
      if res < 0 then (res, s)
      else pagingMapRange s pageDirectory (u32 (virt + pagingPageSize : Nat))
        (u32 (phys + pagingPageSize : Nat)) flags count

/-- `paging_map_to`. -/
def pagingMapTo (s : PageStore) (pageDirectory virt phys physEnd : Nat) (flags : BitVec 32) :
    Int × PageStore :=
  if virt % pagingPageSize ≠ 0 then (-EINVARG, s)
  else if phys % pagingPageSize ≠ 0 then (-EINVARG, s)
  else if physEnd % pagingPageSize ≠ 0 then (-EINVARG, s)
  else if physEnd < phys then (-EINVARG, s)
  else pagingMapRange s pageDirectory virt phys flags ((physEnd - phys) / pagingPageSize)

/-- `paging_get_physical_address`. -/
def pagingGetPhysicalAddress (s : PageStore) (directory virt : Nat) : Nat :=
  let virtAddrNew := pagingAlignToLowerPage virt
  u32 (frameOf (pagingGet s directory virtAddrNew) + (virt - virtAddrNew) : Nat)

end BimbleOS
