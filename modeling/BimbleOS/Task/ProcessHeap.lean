import BimbleOS.Kernel.State

/-!
# `Task.ProcessHeap` — the memory a process asks for

The functions of `task/process.c` behind the `malloc` and `free` system calls. A process keeps a table of
its allocations; a slot with a null pointer is free.
-/

namespace BimbleOS

open CWord

/-- `process_find_free_allocation_index`. -/
def processFindFreeAllocationIndex (process : Process) : Int :=
  match (List.range bimbleosMaxProgramAllocations).find?
      fun i => decide ((process.allocations i).ptr = 0) with
  | some i => (i : Int)
  | none => -ENOMEM

/-- `process->task->page_directory`. -/
def processPageDirectory (process : Nat) : KM Nat := do
  let k ← get
  deref (k.process process).task
  return (k.tasks.task (k.process process).task).pageDirectory

theorem processPageDirectory_eq (process : Nat) (k : Kernel) : processPageDirectory process k =
    if (k.process process).task = 0 then .error .nullPointer
    else .ok ((k.tasks.task (k.process process).task).pageDirectory, k) := by
  show (deref (k.process process).task >>= fun _ => pure _ : KM Nat) k = _
  unfold deref
  split
  · rfl
  · rfl

/-- What a process may do with the pages it has allocated. -/
def processMallocFlags : BitVec 32 := pagingIsWriteable ||| pagingIsPresent ||| pagingAccessFromAll

/-- `process_malloc`. -/
def processMalloc (process size : Nat) : KM Nat := do
  let ptr ← kzalloc size
  if ptr = 0 then return 0
  else
    let k ← get
    let index := processFindFreeAllocationIndex (k.process process)
    if index < 0 then
      kfree ptr
      return 0
    else
      let pageDirectory ← processPageDirectory process
      let res ← kernelMapTo pageDirectory ptr ptr (pagingAlignAddress (u32 (ptr + size : Nat)))
        processMallocFlags
      if res < 0 then
        kfree ptr
        return 0
      else
        modifyProcess process fun p =>
          { p with allocations := Function.update p.allocations index.toNat ⟨ptr, size⟩ }
        return ptr

/-- `process_allocation_unjoin`: every slot that holds the pointer is cleared. -/
def processAllocationUnjoin (process : Process) (ptr : Nat) : Process :=
  { process with allocations := fun i =>
      if i < bimbleosMaxProgramAllocations ∧ (process.allocations i).ptr = ptr then {}
      else process.allocations i }

/-- `process_get_allocation_by_addr`: the first slot that holds the pointer. -/
def processGetAllocationByAddr (process : Process) (addr : Nat) : Option ProcessAllocation :=
  ((List.range bimbleosMaxProgramAllocations).find?
    fun i => decide ((process.allocations i).ptr = addr)).map process.allocations

/-- `process_free`. -/
def processFree (process ptr : Nat) : KM Unit := do
  let k ← get
  match processGetAllocationByAddr (k.process process) ptr with
  | none => return ()
  | some allocation =>
      let pageDirectory ← processPageDirectory process
      let res ← kernelMapTo pageDirectory allocation.ptr allocation.ptr
        (pagingAlignAddress (u32 (allocation.ptr + allocation.size : Nat))) 0x00
      if res < 0 then return ()
      else
        modifyProcess process fun p => processAllocationUnjoin p ptr
        kfree ptr

end BimbleOS
