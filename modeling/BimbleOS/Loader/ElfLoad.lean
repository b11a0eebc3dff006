import BimbleOS.Fs.File

/-!
# `Loader.ElfLoad` — loading and closing ELF files

`elf_load` and `elf_close` of `loader/format/elfloader.c`. The record and the file's bytes are bytes in
memory.
-/

namespace BimbleOS

open Bytes

def sizeofElfFile : Nat := 132

/-- `elf_process_loaded` on the kernel's memory. -/
def kernelElfProcessLoaded (elfFile : Nat) : KM Int := do
  let k ← get
  let (res, memory) := elfProcessLoaded k.memory elfFile
  modify fun k => { k with memory := memory }
  return res

/-- What `elf_load` does with an open file: the result code. -/
def elfReadFile (drive : Drive) (elfFile : Nat) (fd : Int) : KM Int := do
  let (res, stat) ← fstat fd
  if res < 0 then return res
  else
    let memory ← kzalloc stat.filesize
    deref elfFile
    modify fun k => { k with memory := store32 k.memory (elfFile + 112) (BitVec.ofNat 32 memory) }
    let res ← fread drive memory stat.filesize 1 fd
    if res < 0 then return res
    else
      deref memory
      kernelElfProcessLoaded elfFile

/-- `elf_load`: the result, and the record unless it failed. -/
def elfLoad (drive : Drive) (filename : List (BitVec 8)) : KM (Int × Nat) := do
  let elfFile ← kzalloc sizeofElfFile
  let fd ← fopen drive filename readMode
  if fd ≤ 0 then
    let _ ← fclose 0
    return (- EIO, 0)
  else
    let res ← elfReadFile drive elfFile fd
    let _ ← fclose fd
    if res < 0 then return (res, 0) else return (res, elfFile)

/-- `elf_close`. -/
def elfClose (file : Nat) : KM Unit := do
  if file = 0 then return ()
  else
    let k ← get
    kfree (elfMemory k.memory file)
    kfree file

end BimbleOS
