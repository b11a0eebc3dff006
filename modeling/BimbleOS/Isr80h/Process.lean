import BimbleOS.Task.ProcessArguments
import BimbleOS.Task.ProcessTerminate

/-!
# `Isr80h.Process` — the system call that runs a command

`isr80h_command7_invoke_system_command` of `isr80h/process.c`, with the functions of `task/task.c` that reach
into the memory of the calling task. While the page directory of a task is loaded, memory is what the task
sees (`Kernel.taskMemory`); on the kernel's own pages an address is a physical address.
-/

namespace BimbleOS

open Bytes CWord

namespace PageStore

/-- The page of `a`, and the table that its entry is in, are present. -/
def isPresent (s : PageStore) (directory a : Nat) : Bool :=
  let (_, directoryIndex, _) := pagingGetIndexes (pagingAlignToLowerPage a)
  decide (s.word (directory + 4 * directoryIndex) &&& pagingIsPresent ≠ 0) &&
    decide (pagingGet s directory (pagingAlignToLowerPage a) &&& pagingIsPresent ≠ 0)

end PageStore

/-- `task->page_directory->directoryEntry`. -/
def Kernel.taskDirectory (k : Kernel) (task : Nat) : Nat := k.pages.directory (k.tasks.task task).pageDirectory

/-- What `task` sees at each of its addresses. -/
def Kernel.taskMemory (k : Kernel) (task : Nat) : Mem := fun a =>
  k.memory (pagingGetPhysicalAddress k.pages (k.taskDirectory task) a)

/-- `task_get_stack_item`. A page that is not present raises an exception. -/
def taskGetStackItem (task index : Nat) : KM Nat := do
  deref task
  let k ← get
  let spPtr := (k.tasks.task task).registers.esp.toNat + 4 * index
  if 4294967296 < spPtr + 4 then throw .outOfBounds
  else if (List.range 4).all fun i => k.pages.isPresent (k.taskDirectory task) (spPtr + i) then
    return (load32 (k.taskMemory task) spPtr).toNat
  else throw .outOfBounds

/-- `task_virtual_address_to_physical`. -/
def taskVirtualAddressToPhysical (task virtualAddress : Nat) : KM Nat := do
  deref task
  let k ← get
  return pagingGetPhysicalAddress k.pages (k.taskDirectory task) virtualAddress

/-- `task_switch`. -/
def taskSwitch (task : Nat) : KM Unit := do
  deref task
  modify fun k => { k with tasks := { k.tasks with currentTask := task } }

/-- `strlen` of the string at `str`, if it ends inside the address space. -/
def strlenAt (m : Mem) : Nat → Nat → Option Nat
  | 0, _ => none
  | left + 1, str => if m str = 0 then some 0 else (strlenAt m left (str + 1)).map (· + 1)

/-- `"0:/"`. -/
def commandDrive : List (BitVec 8) := [0x30, 0x3a, 0x2f]

/-- `strncpy(path + 3, program_name, sizeof(path))` behind `strcpy(path, "0:/")`: the string in `path`. The count
    is that of the whole array, so that a long name is written beyond its end. -/
def commandPath (programName : Nat) : KM (List (BitVec 8)) := do
  let k ← get
  let name := stringAt k.memory programName (bimbleosMaxPath - 1)
  if bimbleosMaxPath ≤ commandDrive.length + name.length then throw .outOfBounds
  else return commandDrive ++ name

/-- How a system call ends: it returns to its caller, or it leaves through `task_return`. -/
inductive CallEnd where
  | returned (value : Int)
  | entered (task : Nat)
  deriving DecidableEq, Repr

/-- `isr80h_command7_invoke_system_command`. -/
def isr80hCommand7InvokeSystemCommand (drive : Drive) : KM CallEnd := do
  let k ← get
  let task := k.tasks.currentTask
  let item ← taskGetStackItem task 0
  let arguments ← taskVirtualAddressToPhysical task item
  if arguments = 0 then return .returned (-EINVARG)
  else
    match strlenAt k.memory (4294967296 - arguments) arguments with
    | none => throw .outOfBounds
    | some 0 => return .returned (-EINVARG)
    | some (_ + 1) =>
        let path ← commandPath arguments
        let (res, process) ← processLoadSwitch drive path
        if res < 0 then return .returned res
        else
          let res ← processInjectArguments process arguments
          if res < 0 then return .returned res
          else
            let k ← get
            taskSwitch (k.process process).task
            return .entered (k.process process).task

end BimbleOS
