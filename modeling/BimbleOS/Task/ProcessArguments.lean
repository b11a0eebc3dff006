import BimbleOS.Task.ProcessHeap
import BimbleOS.Lib.CString

/-!
# `Task.ProcessArguments` — handing arguments to a process

`process_count_command_arguments` and `process_inject_arguments` of `task/process.c`. The list of `struct
CommandArgument` is wherever its nodes lie in memory; both functions follow it on kernel addresses.
-/

namespace BimbleOS

open Bytes CWord Exec

/-- `sizeof(current->argument)`. -/
def sizeofArgument : Nat := 512

def sizeofCommandArgument : Nat := 516

/-- The largest `int`. -/
def intMax : Nat := 2147483647

/-- `current->next`. -/
def commandArgumentNext (m : Mem) (current : Nat) : Nat := (load32 m (current + sizeofArgument)).toNat

/-- `current = current->next`; the node has to end inside the address space. -/
def followArgument (current : Nat) : KM Nat := do
  let k ← get
  if 4294967296 < current + sizeofCommandArgument then throw .outOfBounds
  else return commandArgumentNext k.memory current

/-- The loop of `process_count_command_arguments`; `i` can still be counted up `left` times. -/
def processCountLoop : Nat → Nat → Nat → KM Nat
  | left, current, i =>
      if current = 0 then return i
      else
        match left with
        | 0 => throw .undefined
        | left + 1 => do
            let next ← followArgument current
            processCountLoop left next (i + 1)

/-- `process_count_command_arguments`. -/
def processCountCommandArguments (rootArgument : Nat) : KM Nat := processCountLoop intMax rootArgument 0

/-- One round of the loop of `process_inject_arguments`, with `argv` of `size` bytes: the next node, or the result
    code when it leaves the loop. -/
def processInjectArgument (process argv size current i : Nat) : KM (Except Int Nat) := do
  let argumentStr ← processMalloc process sizeofArgument
  if argumentStr = 0 then return .error (-ENOMEM)
  else if 4294967296 < current + sizeofArgument ∨ size < 4 * (i + 1) then throw .outOfBounds
  else
    modify fun k => { k with memory := strncpy k.memory argumentStr current sizeofArgument }
    modify fun k => { k with memory := store32 k.memory (argv + 4 * i) (BitVec.ofNat 32 argumentStr) }
    let next ← followArgument current
    return .ok next

/-- The loop of `process_inject_arguments`: the result code. -/
def processInjectLoop (process argv size : Nat) : Nat → Nat → Nat → KM Int
  | left, current, i =>
      if current = 0 then return 0
      else do
        let round ← processInjectArgument process argv size current i
        match round with
        | .error res => return res
        | .ok next =>
            match left with
            | 0 => throw .undefined
            | left + 1 => processInjectLoop process argv size left next (i + 1)

/-- `process_inject_arguments`. -/
def processInjectArguments (process rootArgument : Nat) : KM Int := do
  let argc ← processCountCommandArguments rootArgument
  if argc = 0 then return - EIO
  else
    -- `sizeof(const char*) * argc`, unsigned
    let size := u32 (4 * argc : Nat)
    let argv ← processMalloc process size
    if argv = 0 then return -ENOMEM
    else
      let res ← processInjectLoop process argv size intMax rootArgument 0
      if res < 0 then return res
      else
        -- an error leaves `argc` and `argv` as they were
        modifyProcess process fun p => { p with argc := argc, argv := argv }
        return res

/-! ## What handing over arguments keeps -/

/-- A fact about the kernel that allocations of the process keep, and writes to memory, and to the fields of the
    arguments. -/
structure ArgumentRule (I : Kernel → Prop) (process : Nat) : Prop where
  malloc : ∀ size, size < 4294967296 → Triple I (processMalloc process size) fun _ => I
  memory : ∀ k m, I k → I { k with memory := m }
  arguments : ∀ k argc argv, I k → I { k with
    process := Function.update k.process process { k.process process with argc := argc, argv := argv } }

section Keeps

variable {I : Kernel → Prop} {process : Nat}

theorem followArgument_keeps {current : Nat} : Triple I (followArgument current) fun _ => I := by
  refine Triple.get_bind fun k₁ hk₁ => Triple.pre (P := I) (fun k hk => hk ▸ hk₁) ?_
  exact Triple.ite (fun _ => Triple.throw) fun _ => Triple.pure fun _ hk => hk

/-- The induction is on how often `i` can be counted up. -/
theorem processCountLoop_keeps {left current i : Nat} : Triple I (processCountLoop left current i) fun _ => I := by
  induction left generalizing current i with
  | zero =>
      unfold processCountLoop
      refine Triple.ite (fun _ => Triple.pure fun _ hk => hk) fun _ => ?_
      exact Triple.throw
  | succ left ih =>
      unfold processCountLoop
      refine Triple.ite (fun _ => Triple.pure fun _ hk => hk) fun _ => ?_
      exact Triple.bind followArgument_keeps fun next => ih

theorem processInjectArgument_keeps (hr : ArgumentRule I process) {argv size current i : Nat} :
    Triple I (processInjectArgument process argv size current i) fun _ => I := by
  refine Triple.bind (hr.malloc _ (by decide)) fun argumentStr => ?_
  refine Triple.ite (fun _ => Triple.pure fun _ hk => hk) fun _ => ?_
  refine Triple.ite (fun _ => Triple.throw) fun _ => ?_
  refine Triple.bind (R := fun _ => I) (Triple.modify fun k hk => hr.memory k _ hk) fun _ => ?_
  refine Triple.bind (R := fun _ => I) (Triple.modify fun k hk => hr.memory k _ hk) fun _ => ?_
  exact Triple.bind followArgument_keeps fun _ => Triple.pure fun _ hk => hk

theorem processInjectLoop_keeps (hr : ArgumentRule I process) {argv size left current i : Nat} :
    Triple I (processInjectLoop process argv size left current i) fun _ => I := by
  induction left generalizing current i with
  | zero =>
      unfold processInjectLoop
      refine Triple.ite (fun _ => Triple.pure fun _ hk => hk) fun _ => ?_
      refine Triple.bind (processInjectArgument_keeps hr) fun round => ?_
      cases round with
      | error res => exact Triple.pure fun _ hk => hk
      | ok next => exact Triple.throw
  | succ left ih =>
      unfold processInjectLoop
      refine Triple.ite (fun _ => Triple.pure fun _ hk => hk) fun _ => ?_
      refine Triple.bind (processInjectArgument_keeps hr) fun round => ?_
      cases round with
      | error res => exact Triple.pure fun _ hk => hk
      | ok next => exact ih

/-- **`process_inject_arguments`** allocates, writes to memory, and notes where the arguments are. -/
theorem processInjectArguments_keeps (hr : ArgumentRule I process) {rootArgument : Nat} :
    Triple I (processInjectArguments process rootArgument) fun _ => I := by
  refine Triple.bind processCountLoop_keeps fun argc => ?_
  refine Triple.ite (fun _ => Triple.pure fun _ hk => hk) fun _ => ?_
  refine Triple.bind (hr.malloc _ (u32_lt _)) fun argv => ?_
  refine Triple.ite (fun _ => Triple.pure fun _ hk => hk) fun _ => ?_
  refine Triple.bind (processInjectLoop_keeps hr) fun res => ?_
  refine Triple.ite (fun _ => Triple.pure fun _ hk => hk) fun _ => ?_
  exact Triple.bind (Triple.modify fun k hk => hr.arguments k _ _ hk) fun _ => Triple.pure fun _ hk => hk

end Keeps

end BimbleOS
