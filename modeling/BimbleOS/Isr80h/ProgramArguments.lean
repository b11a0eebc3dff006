import BimbleOS.Isr80h.SystemRun

/-!
# `Isr80h.ProgramArguments` — a program asks for its arguments

`c_start` makes system call 8 with a `struct ProcessArguments` on its stack, and calls `main` with what it finds there.
The call translates the pointer and stores the count and the array of the process that the task belongs to. With
`Isr80h.SystemRun` this is the way of a command line into `argc` and `argv` of the program that it starts.
-/

namespace BimbleOS

open Bytes CWord Exec

/-- `sizeof(struct ProcessArguments)`. -/
def sizeofProcessArguments : Nat := 8

/-- `process_get_arguments` with `argc` and `argv` in the structure at `arguments`. -/
def processGetArguments (process arguments : Nat) : KM Unit := do
  deref process
  if 4294967296 < arguments + sizeofProcessArguments then throw .outOfBounds
  else
    modify fun k => { k with memory := store32 k.memory arguments (BitVec.ofNat 32 (k.process process).argc) }
    modify fun k => { k with memory := store32 k.memory (arguments + 4) (BitVec.ofNat 32 (k.process process).argv) }

/-- `isr80h_command8_get_program_arguments`. -/
def isr80hCommand8GetProgramArguments : KM Unit := do
  let k ← get
  let task := k.tasks.currentTask
  deref task
  let item ← taskGetStackItem task 0
  let arguments ← taskVirtualAddressToPhysical task item
  processGetArguments (k.tasks.task task).process arguments

/-! ## What the program reads -/

section ProgramArguments

variable {k k' : Kernel} {process a : Nat} {arguments : List (List (BitVec 8))}

/-- What the call has written, and where. -/
theorem isr80hCommand8_run (hrun : isr80hCommand8GetProgramArguments k = .ok ((), k')) :
    k.commandArguments + sizeofProcessArguments ≤ 4294967296 ∧ k' = { k with
      memory := store32 (store32 k.memory k.commandArguments
        (BitVec.ofNat 32 (k.process (k.tasks.task k.tasks.currentTask).process).argc)) (k.commandArguments + 4)
        (BitVec.ofNat 32 (k.process (k.tasks.task k.tasks.currentTask).process).argv) } := by
  obtain ⟨k₁, k₁', hget, hrest⟩ := bind_eq_ok.mp hrun
  cases hget
  obtain ⟨_, k₂, hderef, hrest⟩ := bind_eq_ok.mp hrest
  obtain ⟨_, rfl⟩ := deref_run hderef
  obtain ⟨item, k₃, hitem, hrest⟩ := bind_eq_ok.mp hrest
  obtain ⟨_, rfl, rfl⟩ := taskGetStackItem_run hitem
  obtain ⟨physical, k₄, hphys, hstore⟩ := bind_eq_ok.mp hrest
  obtain ⟨_, k₅, hderef, hphys⟩ := bind_eq_ok.mp hphys
  obtain ⟨_, rfl⟩ := deref_run hderef
  rw [get_bind] at hphys
  obtain rfl := (Prod.mk.inj (Except.ok.inj hphys)).2
  have hphysical : k₅.commandArguments = physical := (Prod.mk.inj (Except.ok.inj hphys)).1
  rw [← hphysical] at hstore
  obtain ⟨_, k₆, hderef, hstore⟩ := bind_eq_ok.mp hstore
  obtain ⟨_, rfl⟩ := deref_run hderef
  by_cases hend : 4294967296 < k₆.commandArguments + sizeofProcessArguments
  · rw [if_pos hend] at hstore
    cases hstore
  · rw [if_neg hend] at hstore
    cases hstore
    exact ⟨Nat.not_lt.mp hend, rfl⟩

/-- **A program is told its arguments**: where the structure is in one piece and beside what it describes, and the task
    finds that under the addresses that the kernel uses, `main` is called with the number of arguments and an array of
    exactly these strings. -/
theorem isr80hCommand8_tells (hrun : isr80hCommand8GetProgramArguments k = .ok ((), k'))
    (hprocess : (k.tasks.task k.tasks.currentTask).process = process) (hgiven : k.HasArguments process arguments)
    (hcount : arguments.length < 4294967296) (hargv : (k.process process).argv < 4294967296)
    (hpiece : ∀ i, i < sizeofProcessArguments → k.translateCurrent (k.commandItem + i) = k.commandArguments + i)
    (hmapped : ∀ a, StringsByte k.memory (k.process process).argv arguments a → k.translateCurrent a = a ∧
      (a < k.commandArguments ∨ k.commandArguments + sizeofProcessArguments ≤ a)) :
    (load32 k'.currentTaskMemory k.commandItem).toNat = arguments.length ∧
      HoldsStrings k'.currentTaskMemory (load32 k'.currentTaskMemory (k.commandItem + 4)).toNat arguments ∧
      ∀ a, a < k.commandArguments ∨ k.commandArguments + sizeofProcessArguments ≤ a → k'.memory a = k.memory a := by
  have hsize : sizeofProcessArguments = 8 := rfl
  obtain ⟨_, hk'⟩ := isr80hCommand8_run hrun
  rw [hprocess, hgiven.argc] at hk'
  -- the page tables are as they were
  have hview : ∀ a, k'.currentTaskMemory a = k'.memory (k.translateCurrent a) := by
    intro a
    rw [hk']
    rfl
  have hmemory : k'.memory = store32 (store32 k.memory k.commandArguments (BitVec.ofNat 32 arguments.length))
      (k.commandArguments + 4) (BitVec.ofNat 32 (k.process process).argv) := by
    rw [hk']
  have hkept : ∀ a, a < k.commandArguments ∨ k.commandArguments + sizeofProcessArguments ≤ a →
      k'.memory a = k.memory a := by
    intro a ha
    rw [hmemory, store32_of_outside (by omega), store32_of_outside (by omega)]
  have hword : ∀ o, o + 4 ≤ sizeofProcessArguments →
      load32 k'.currentTaskMemory (k.commandItem + o) = load32 k'.memory (k.commandArguments + o) := by
    intro o ho
    refine load32_congr fun i hi => ?_
    rw [hview, Nat.add_assoc, hpiece _ (by omega), Nat.add_assoc]
  have hfirst : load32 k'.currentTaskMemory k.commandItem = BitVec.ofNat 32 arguments.length := by
    have hzero := hword 0 (by omega)
    rw [Nat.add_zero, Nat.add_zero] at hzero
    rw [hzero, hmemory, load32_store32_of_apart (by omega), load32_store32]
  have hsecond : load32 k'.currentTaskMemory (k.commandItem + 4) = BitVec.ofNat 32 (k.process process).argv := by
    rw [hword 4 (by omega), hmemory, load32_store32]
  refine ⟨?_, ?_, hkept⟩
  · rw [hfirst, BitVec.toNat_ofNat]
    exact Nat.mod_eq_of_lt hcount
  · rw [hsecond, BitVec.toNat_ofNat, Nat.mod_eq_of_lt hargv]
    refine HoldsStrings.congr hgiven.argv fun a ha => ?_
    obtain ⟨hself, hapart⟩ := hmapped a ha
    rw [hview, hself]
    exact hkept a hapart

end ProgramArguments

/-! A process with the argument `A`, which makes the call with a structure at `0x3fe100`. -/

def toldMemory : Mem :=
  store32 (storeBytes (store32 (fun _ => 0) 0x500000 0x3fe100) 0x500300 ([0x41] ++ [0])) 0x500200 0x500300

def toldKernel : Kernel := { callerKernel 25599 toldMemory with
  tasks := {
    task := fun _ => { process := 0x2000000, registers := { esp := 0x3fe000 } }
    taskHead := callerTask
    taskTail := callerTask
    currentTask := callerTask }
  process := fun _ => { argc := 1, argv := 0x500200 } }

theorem toldKernel_given : toldKernel.HasArguments 0x2000000 [[0x41]] :=
  ⟨rfl, ⟨by decide, by decide, (by decide : toldKernel.memory ((load32 toldKernel.memory 0x500200).toNat + 1) = 0)⟩,
    True.intro⟩

/-- The page at `0x500000` is mapped to itself. -/
theorem toldKernel_translate {a : Nat} (hlo : 0x500000 ≤ a) (hhi : a < 0x501000) :
    toldKernel.translateCurrent a = a := by
  have hframe : frameOf 0x500007 = 0x500000 := by decide
  show u32 ((frameOf 0x500007 + (a - pagingAlignToLowerPage a) : Nat) : Int) = a
  rw [hframe, pagingAlignToLowerPage_eq, u32_of_lt (by omega)]
  omega

theorem isr80hCommand8_tells_one : ∃ k', isr80hCommand8GetProgramArguments toldKernel = .ok ((), k') ∧
    (load32 k'.currentTaskMemory toldKernel.commandItem).toNat = [[(0x41 : BitVec 8)]].length ∧
    HoldsStrings k'.currentTaskMemory (load32 k'.currentTaskMemory (toldKernel.commandItem + 4)).toNat [[0x41]] := by
  have harguments : toldKernel.commandArguments = 0x500100 := by decide
  have hsize : sizeofProcessArguments = 8 := rfl
  have hpointer : (load32 toldKernel.memory 0x500200).toNat = 0x500300 := by decide
  have hmapped : ∀ a, StringsByte toldKernel.memory 0x500200 [[0x41]] a → toldKernel.translateCurrent a = a ∧
      (a < toldKernel.commandArguments ∨ toldKernel.commandArguments + sizeofProcessArguments ≤ a) := by
    intro a ha
    have hplace : 0x500200 ≤ a ∧ a ≤ 0x500301 := by
      rcases ha with hpointers | hstring | hnone
      · omega
      · rw [hpointer] at hstring
        exact ⟨by omega, hstring.2⟩
      · exact absurd hnone id
    exact ⟨toldKernel_translate (by omega) (by omega), Or.inr (by omega)⟩
  obtain ⟨hargc, hargv, _⟩ := isr80hCommand8_tells (k := toldKernel) rfl rfl toldKernel_given (by decide) (by decide)
    (by decide) hmapped
  exact ⟨_, rfl, hargc, hargv⟩

end BimbleOS
