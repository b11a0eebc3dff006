import BimbleOS.Config
import BimbleOS.Lib.Bytes
import BimbleOS.Lib.Word

/-!
# `Loader.Elf` — ELF records, headers and program headers

`loader/format/elf.h` and the parts of `elfloader.c` that work on a file already in memory. A
`struct Elf_file`, the file's bytes and whatever else the code may follow a pointer to live in one byte
memory; all pointer arithmetic wraps at `2^32`.
-/

namespace BimbleOS

open Bytes CWord

def ptLoad : BitVec 32 := 1
def pfW : BitVec 32 := 0x02

/-! ## `struct Elf_file` -/

/-- `elf_memory`, and `elf_header`: the address of the file's bytes. -/
def elfMemory (m : Mem) (file : Nat) : Nat := (load32 m (file + 112)).toNat

def elfVirtualBaseAddress : Nat := 116
def elfVirtualEndAddress : Nat := 120
def elfPhysicalBaseAddress : Nat := 124
def elfPhysicalEndAddress : Nat := 128

/-! ## `struct Elf_header` -/

def eEntry (m : Mem) (header : Nat) : BitVec 32 := load32 m (header + 24)

def ePhoff (m : Mem) (header : Nat) : BitVec 32 := load32 m (header + 28)

def ePhnum (m : Mem) (header : Nat) : Nat := (load16 m (header + 44)).toNat

/-! ## `struct Elf32_phdr` -/

def pType (m : Mem) (phdr : Nat) : BitVec 32 := load32 m phdr

/-- `p_offset` is signed. -/
def pOffset (m : Mem) (phdr : Nat) : Int := (load32 m (phdr + 4)).toInt

def pVaddr (m : Mem) (phdr : Nat) : Nat := (load32 m (phdr + 8)).toNat

def pFilesz (m : Mem) (phdr : Nat) : Nat := (load32 m (phdr + 16)).toNat

def pMemsz (m : Mem) (phdr : Nat) : Nat := (load32 m (phdr + 20)).toNat

def pFlags (m : Mem) (phdr : Nat) : BitVec 32 := load32 m (phdr + 24)

/-! ## The functions of `elfloader.c` -/

/-- `elf_pheader`: null when there is no program header table. -/
def elfPheader (m : Mem) (header : Nat) : Nat :=
  if ePhoff m header = 0 then 0 else u32 (header + (ePhoff m header).toInt)

/-- `&elf_pheader(header)[index]`. -/
def phdrAt (phdrs index : Nat) : Nat := u32 (phdrs + 32 * index : Nat)

/-- `elf_phdr_phys_address`. -/
def elfPhdrPhysAddress (m : Mem) (file phdr : Nat) : Nat := u32 (elfMemory m file + pOffset m phdr)

/-- `elf_valid_signature`: the bytes `7f 45 4c 46`. -/
def elfValidSignature (m : Mem) (header : Nat) : Bool :=
  m header = 0x7f ∧ m (header + 1) = 0x45 ∧ m (header + 2) = 0x4c ∧ m (header + 3) = 0x46

/-- `elf_valid_class`: none or 32 bit. -/
def elfValidClass (m : Mem) (header : Nat) : Bool := m (header + 4) = 0 ∨ m (header + 4) = 1

/-- `elf_valid_encoding`: none or little endian. -/
def elfValidEncoding (m : Mem) (header : Nat) : Bool := m (header + 5) = 0 ∨ m (header + 5) = 1

/-- `elf_has_program_header`. -/
def elfHasProgramHeader (m : Mem) (header : Nat) : Bool := ePhoff m header ≠ 0

/-- `elf_validate_loaded`. -/
def elfValidateLoaded (m : Mem) (header : Nat) : Int :=
  if elfValidSignature m header && elfValidClass m header && elfValidEncoding m header
      && elfHasProgramHeader m header then bimbleosAllOk
  else -EINFORMAT

/-- `elf_process_phdr_pt_load`: the record keeps the lowest and the highest address of the image. -/
def elfProcessPhdrPtLoad (m : Mem) (file phdr : Nat) : Mem :=
  let vaddr := pVaddr m phdr
  let base := (load32 m (file + elfVirtualBaseAddress)).toNat
  let m := if vaddr ≤ base ∨ base = 0 then
      let m := store32 m (file + elfVirtualBaseAddress) (BitVec.ofNat 32 vaddr)
      store32 m (file + elfPhysicalBaseAddress) (BitVec.ofNat 32 (elfPhdrPhysAddress m file phdr))
    else m
  let endVirtualAddress := u32 (pVaddr m phdr + pFilesz m phdr : Nat)
  let last := (load32 m (file + elfVirtualEndAddress)).toNat
  if last ≤ endVirtualAddress ∨ last = 0 then
    let m := store32 m (file + elfVirtualEndAddress) (BitVec.ofNat 32 endVirtualAddress)
    store32 m (file + elfPhysicalEndAddress)
      (BitVec.ofNat 32 (u32 (elfPhdrPhysAddress m file phdr + pFilesz m phdr : Nat)))
  else m

/-- `elf_process_pheader`: only loadable segments count. -/
def elfProcessPheader (m : Mem) (file phdr : Nat) : Int × Mem :=
  if pType m phdr = ptLoad then (0, elfProcessPhdrPtLoad m file phdr) else (0, m)

/-- The loop of `elf_process_pheaders` from index `i` on; `e_phnum` has 16 bits, so `65536 - i` rounds
    are enough. -/
def elfProcessPheadersLoop (file header : Nat) : Nat → Nat → Mem → Int × Mem
  | 0, _, m => (0, m)
  | left + 1, i, m =>
      if i < ePhnum m header then
        let (res, m) := elfProcessPheader m file (phdrAt (elfPheader m header) i)
        if res < 0 then (res, m) else elfProcessPheadersLoop file header left (i + 1) m
      else (0, m)

/-- `elf_process_loaded`. -/
def elfProcessLoaded (m : Mem) (file : Nat) : Int × Mem :=
  let header := elfMemory m file
  let res := elfValidateLoaded m header
  if res < 0 then (res, m) else elfProcessPheadersLoop file header 65536 0 m

end BimbleOS
