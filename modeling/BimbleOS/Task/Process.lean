import BimbleOS.Config
import BimbleOS.Loader.Elf
import BimbleOS.Memory.Paging

/-!
# `Task.Process` — processes and their address space

`struct Process` and the functions of `task/process.c` that map a loaded program into its page
directory: `process_map_binary`, `process_map_elf` and `process_map_memory`. Pointers are addresses, 0 is
the null pointer.
-/

namespace BimbleOS

open Bytes CWord

def processFiletypeElf : Nat := 0
def processFiletypeBinary : Nat := 1

/-- The members of the union in `struct Process`. -/
inductive ImageMember where
  | ptr
  | elfFile
  deriving DecidableEq, Repr

/-- `struct ProcessAllocation`. -/
structure ProcessAllocation where
  ptr : Nat := 0
  size : Nat := 0
  deriving DecidableEq, Repr

/-- `struct KeyboardBuffer`. -/
structure KeyboardBuffer where
  buffer : Nat → BitVec 8 := fun _ => 0
  tail : Int := 0
  head : Int := 0

/-- `struct Process`, without the fields no modelled function reads. `image` is the union of `ptr` and
    `elf_file`; the ghost `member` is the member it was last written through. -/
structure Process where
  id : Nat := 0
  task : Nat := 0
  allocations : Nat → ProcessAllocation := fun _ => {}
  filetype : Nat := 0
  image : Nat := 0
  member : Option ImageMember := none
  stack : Nat := 0
  size : Nat := 0
  keyboard : KeyboardBuffer := {}
  argc : Nat := 0
  argv : Nat := 0

/-- `process_map_binary`: the result of the mapping is dropped. -/
def processMapBinary (s : PageStore) (pageDirectory : Nat) (process : Process) : Int × PageStore :=
  let (_, s) := pagingMapTo s pageDirectory bimbleosProgramVirtualAddress process.image
    (pagingAlignAddress (u32 (process.image + process.size : Nat)))
    (pagingIsPresent ||| pagingAccessFromAll ||| pagingIsWriteable)
  (0, s)

/-- The flags `process_map_elf` maps a segment with. -/
def phdrFlags (m : Mem) (phdr : Nat) : BitVec 32 :=
  if pFlags m phdr &&& pfW ≠ 0 then pagingIsPresent ||| pagingAccessFromAll ||| pagingIsWriteable
  else pagingIsPresent ||| pagingAccessFromAll

/-- The loop of `process_map_elf` for the last `left` program headers, the next one being `i`. -/
def processMapElfLoop (m : Mem) (pageDirectory elfFile phdrs : Nat) :
    Nat → Nat → PageStore → Int × PageStore
  | 0, _, s => (0, s)
  | left + 1, i, s =>
      let phdr := phdrAt phdrs i
      let physAddress := elfPhdrPhysAddress m elfFile phdr
      let (res, s) := pagingMapTo s pageDirectory (pagingAlignToLowerPage (pVaddr m phdr))
        (pagingAlignToLowerPage physAddress)
        (pagingAlignAddress (u32 (physAddress + pMemsz m phdr : Nat))) (phdrFlags m phdr)
      if res < 0 then (res, s) else processMapElfLoop m pageDirectory elfFile phdrs left (i + 1) s

/-- `process_map_elf`. -/
def processMapElf (m : Mem) (s : PageStore) (pageDirectory elfFile : Nat) : Int × PageStore :=
  let header := elfMemory m elfFile
  processMapElfLoop m pageDirectory elfFile (elfPheader m header) (ePhnum m header) 0 s

/-- `process_map_memory`; `none` is the panic on an unknown file type. -/
def processMapMemory (m : Mem) (s : PageStore) (pageDirectory : Nat) (process : Process) :
    Option (Int × PageStore) :=
  let mapped :=
    if process.filetype = processFiletypeElf then some (processMapElf m s pageDirectory process.image)
    else if process.filetype = processFiletypeBinary then some (processMapBinary s pageDirectory process)
    else none
  mapped.map fun (res, s) =>
    if res < 0 then (res, s)
    else
      let (_, s) := pagingMapTo s pageDirectory bimbleosProgramVirtualStackAddressEnd process.stack
        (pagingAlignAddress (u32 (process.stack + bimbleosUserProgramStackSize : Nat)))
        (pagingIsPresent ||| pagingAccessFromAll ||| pagingIsWriteable)
      (res, s)

end BimbleOS
