import BimbleOS.Task.ProcessHeap
import BimbleOS.Task.ProcessLoad

/-!
# `Task.ProcessTerminate` — starting and ending programs

`process_load_switch`, and the functions of `task/process.c` from `process_terminate_allocations` to
`process_terminate`.
-/

namespace BimbleOS

/-- `process_switch`. -/
def processSwitch (process : Nat) : KM Unit := modify fun k => { k with currentProcess := process }

/-- `process_load_switch`. -/
def processLoadSwitch (drive : Drive) (filename : List (BitVec 8)) : KM (Int × Nat) := do
  let (res, process) ← processLoad drive filename
  if res = 0 then
    processSwitch process
    return (res, process)
  else return (res, process)

/-! ## Termination -/

/-- The loop of `process_terminate_allocations`, with `left` slots to go. -/
def processTerminateLoop (process : Nat) : Nat → Nat → KM Unit
  | 0, _ => return ()
  | left + 1, i => do
      let k ← get
      processFree process ((k.process process).allocations i).ptr
      processTerminateLoop process left (i + 1)

/-- `process_terminate_allocations`. -/
def processTerminateAllocations (process : Nat) : KM Int := do
  processTerminateLoop process bimbleosMaxProgramAllocations 0
  return 0

/-- `process_free_binary_data`. -/
def processFreeBinaryData (process : Nat) : KM Int := do
  let ptr ← readUnion process .ptr
  kfree ptr
  return 0

/-- `process_free_elf_data`. -/
def processFreeElfData (process : Nat) : KM Int := do
  let elfFile ← readUnion process .elfFile
  elfClose elfFile
  return 0

/-- `process_free_program_data`. -/
def processFreeProgramData (process : Nat) : KM Int := do
  let k ← get
  if (k.process process).filetype = processFiletypeBinary then processFreeBinaryData process
  else if (k.process process).filetype = processFiletypeElf then processFreeElfData process
  else return -EINVARG

/-- `process_switch_to_any`. -/
def processSwitchToAny : KM Unit := do
  let k ← get
  match (List.range bimbleosMaxProcesses).find? fun i => decide (k.processes i ≠ 0) with
  | some i => processSwitch (k.processes i)
  | none => throw .panic

/-- `process_unlink`. -/
def processUnlink (process : Nat) : KM Unit := do
  let k ← get
  if bimbleosMaxProcesses ≤ (k.process process).id then throw .outOfBounds
  else
    modify fun k => { k with processes := Function.update k.processes (k.process process).id 0 }
    let k ← get
    if k.currentProcess = process then processSwitchToAny else return ()

/-- `process_terminate`. -/
def processTerminate (process : Nat) : KM Int := do
  deref process
  let res ← processTerminateAllocations process
  if res < 0 then return res
  else
    let res ← processFreeProgramData process
    if res < 0 then return res
    else
      let k ← get
      kfree (k.process process).stack
      let k ← get
      Kernel.taskFree (k.process process).task
      processUnlink process
      return res

end BimbleOS
