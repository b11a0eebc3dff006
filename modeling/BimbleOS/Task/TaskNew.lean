import BimbleOS.Memory.PagingNew
import BimbleOS.Loader.Elf

/-!
# `Task.TaskNew` — making and freeing tasks

`task_init`, `task_new` and `task_free` of `task/task.c` on the whole kernel, over the task list of
`Task.TaskList`.
-/

namespace BimbleOS

namespace Kernel

def sizeofTask : Nat := 64

/-- The entry point that `task_init` gives a task. -/
def entryPoint (process : Nat) : KM (BitVec 32) := do
  let k ← get
  if (k.process process).filetype = processFiletypeElf then
    let elfFile ← readUnion process .elfFile
    return eEntry k.memory (elfMemory k.memory elfFile)
  else return BitVec.ofNat 32 bimbleosProgramVirtualAddress

/-- `task_init`. -/
def taskInit (task process : Nat) : KM Int := do
  let pageDirectory ← pagingNew (pagingIsPresent ||| pagingAccessFromAll)
  if pageDirectory = 0 then return - EIO
  else
    let ip ← entryPoint process
    modify fun k => { k with tasks := k.tasks.store task (BimbleOS.taskInit process pageDirectory ip) }
    return 0

/-- `task_free`. -/
def taskFree (task : Nat) : KM Unit := do
  deref task
  let k ← get
  pagingFree (k.tasks.task task).pageDirectory
  modify fun k => { k with tasks := BimbleOS.taskFree k.tasks task }
  kfree task

/-- `task_new`: the task, or an error code. -/
def taskNew (process : Nat) : KM (Except Int Nat) := do
  let task ← kzalloc sizeofTask
  if task = 0 then
    taskFree task
    return .error (-ENOMEM)
  else
    let res ← taskInit task process
    if res ≠ bimbleosAllOk then
      taskFree task
      return .error res
    else
      modify fun k => { k with tasks := taskNewLink k.tasks task }
      return .ok task

end Kernel

end BimbleOS
