import BimbleOS.Loader.ElfLoad
import BimbleOS.Task.TaskNew

/-!
# `Task.ProcessLoad` — loading a program

The functions of `task/process.c` from `process_load_binary` to `process_load`.
-/

namespace BimbleOS

def sizeofProcess : Nat := 9364

/-- `process_load_binary`. When the file cannot be opened or is no file, the error path reads
    `program_data_ptr` before anything was assigned to it. -/
def processLoadBinary (drive : Drive) (filename : List (BitVec 8)) (process : Nat) : KM Int := do
  let fd ← fopen drive filename readMode
  -- `goto out` jumps over the allocation
  if fd = 0 then throw .uninitialised
  else
    let (res, stat) ← fstat fd
    if res ≠ bimbleosAllOk then throw .uninitialised
    else
      let programDataPtr ← kzalloc stat.filesize
      if programDataPtr = 0 then
        let _ ← fclose fd
        return -ENOMEM
      else
        let read ← fread drive programDataPtr stat.filesize 1 fd
        if read ≠ 1 then
          kfree programDataPtr
          let _ ← fclose fd
          return - EIO
        else
          modifyProcess process fun p =>
            { p with image := programDataPtr, member := some .ptr, size := stat.filesize }
          let _ ← fclose fd
          return res

/-- `process_load_elf`. -/
def processLoadElf (drive : Drive) (filename : List (BitVec 8)) (process : Nat) : KM Int := do
  let (res, elfFile) ← elfLoad drive filename
  if res < 0 then return res
  else
    modifyProcess process fun p =>
      { p with filetype := processFiletypeElf, image := elfFile, member := some .elfFile }
    return res

/-- `process_load_data`. -/
def processLoadData (drive : Drive) (filename : List (BitVec 8)) (process : Nat) : KM Int := do
  let res ← processLoadElf drive filename process
  if res = -EINFORMAT then processLoadBinary drive filename process else return res

/-- The member of the union that `process_map_memory` and `process_free_program_data` read. -/
def unionMember (filetype : Nat) : Option ImageMember :=
  if filetype = processFiletypeElf then some .elfFile
  else if filetype = processFiletypeBinary then some .ptr
  else none

/-- `process_map_memory` on the kernel's page tables. -/
def kernelProcessMapMemory (process : Nat) : KM Int := do
  let pageDirectory ← (do
    let k ← get
    deref (k.process process).task
    return (k.tasks.task (k.process process).task).pageDirectory)
  let k ← get
  match unionMember (k.process process).filetype with
  | none => throw .panic
  | some member =>
      let _ ← readUnion process member
      match processMapMemory k.memory k.pages pageDirectory (k.process process) with
      | none => throw .panic
      | some (res, pages) =>
          modify fun k => { k with pages := pages }
          return res

/-- `process_get`. -/
def processGet (processId : Int) : KM Nat := do
  let k ← get
  if processId < 0 ∨ (bimbleosMaxProcesses : Int) ≤ processId then return 0
  else return k.processes processId.toNat

/-- `process_get_free_slot`. -/
def processGetFreeSlot : KM Int := do
  let k ← get
  match (List.range bimbleosMaxProcesses).find? fun i => decide (k.processes i = 0) with
  | some i => return i
  | none => return -EISTKN

/-- What `process_load_for_slot` does once it has a process structure: the result code. -/
def processFill (drive : Drive) (filename : List (BitVec 8)) (process processSlot : Nat) : KM Int := do
  let res ← processLoadData drive filename process
  if res < 0 then return res
  else
    let programStackPtr ← kzalloc bimbleosUserProgramStackSize
    if programStackPtr = 0 then return -ENOMEM
    else
      modifyProcess process fun p => { p with stack := programStackPtr, id := processSlot }
      let task ← Kernel.taskNew process
      match task with
      -- an error pointer is not 0, so it would be taken for the task
      | .error _ => throw .undefined
      | .ok task =>
          modifyProcess process fun p => { p with task := task }
          kernelProcessMapMemory process

/-- `process_load_for_slot`: the result, and the process unless it failed. -/
def processLoadForSlot (drive : Drive) (filename : List (BitVec 8)) (processSlot : Nat) :
    KM (Int × Nat) := do
  let owner ← processGet processSlot
  if owner ≠ 0 then throw .uninitialised
  else
    let process ← kzalloc sizeofProcess
    if process = 0 then return (-ENOMEM, 0)
    else
      modifyProcess process fun _ => {}
      let res ← processFill drive filename process processSlot
      if res < 0 then
        let k ← get
        -- the structure, its data and its stack are not freed
        if (k.process process).task ≠ 0 then Kernel.taskFree (k.process process).task
        return (res, 0)
      else
        modify fun k => { k with processes := Function.update k.processes processSlot process }
        return (res, process)

/-- `process_load`. -/
def processLoad (drive : Drive) (filename : List (BitVec 8)) : KM (Int × Nat) := do
  let processSlot ← processGetFreeSlot
  if processSlot < 0 then return (-EISTKN, 0)
  else processLoadForSlot drive filename processSlot.toNat

end BimbleOS
