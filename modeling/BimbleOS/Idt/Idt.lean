import BimbleOS.Kernel.Gdt
import BimbleOS.Kernel.State
import BimbleOS.Task.Switch

/-!
# `Idt.Idt` — `idt/idt.c`

Three tables say what happens at an interrupt: the gates that the processor reads, the callbacks of `interrupt_handler`,
and the commands of interrupt 0x80. A callback can be registered at any time, and the last one counts
(`idt_dispatches`); a command is registered once, and a second attempt halts the kernel (`isr80h_dispatches`).
-/

namespace BimbleOS

def bimbleosTotalInterrupts : Nat := 256
def bimbleosMaxIsr80hCommands : Nat := 1024
def isrKeyboardInterrupt : Int := 0x21

/-- `struct idt_desc`, packed. -/
structure IdtDesc where
  offset1 : BitVec 16
  selector : BitVec 16
  zero : BitVec 8
  typeAttr : BitVec 8
  offset2 : BitVec 16
  deriving DecidableEq, Repr

/-- The eight bytes of a gate. -/
def IdtDesc.bytes (desc : IdtDesc) : List (BitVec 8) :=
  [desc.offset1.setWidth 8, (desc.offset1 >>> 8).setWidth 8, desc.selector.setWidth 8, (desc.selector >>> 8).setWidth 8,
    desc.zero, desc.typeAttr, desc.offset2.setWidth 8, (desc.offset2 >>> 8).setWidth 8]

/-- The functions that are registered as callbacks. -/
inductive InterruptCallback where
  | idtHandleException
  | idtClock
  | classicKeyboardHandleInterrupt
  deriving DecidableEq, Repr

/-- `idt_descriptors`, the limit in `idtr_descriptor`, and `interrupt_callbacks`. -/
structure Idt where
  idtDescriptors : Nat → IdtDesc := fun _ => ⟨0, 0, 0, 0, 0⟩
  limit : BitVec 16 := 0
  interruptCallbacks : Nat → Option InterruptCallback := fun _ => none

/-- Where the functions that become interrupt handlers are in the kernel. -/
structure HandlerAddresses where
  interruptPointerTable : Nat → BitVec 32
  divideByZero : BitVec 32
  isr80hWrapper : BitVec 32

/-- `idt_set`. -/
def idtSet (idt : Idt) (interruptNo : Nat) (address : BitVec 32) : Idt :=
  { idt with idtDescriptors := Function.update idt.idtDescriptors interruptNo {
      offset1 := (address &&& 0xFFFF).setWidth 16
      selector := BitVec.ofNat 16 kernalCodeSelector
      zero := 0x00
      typeAttr := 0xEE
      offset2 := (address >>> 16).setWidth 16 } }

/-- `idt_register_interrupt_callback`. -/
def idtRegisterInterruptCallback (idt : Idt) (interrupt : Int) (callback : InterruptCallback) : Int × Idt :=
  if interrupt < 0 ∨ (bimbleosTotalInterrupts : Int) ≤ interrupt then (-EINVARG, idt)
  else (0, { idt with
    interruptCallbacks := Function.update idt.interruptCallbacks interrupt.toNat (some callback) })

/-- `idt_init`. -/
def idtInit (at_ : HandlerAddresses) (idt : Idt) : Idt :=
  let idt := { idt with
    idtDescriptors := fun _ => ⟨0, 0, 0, 0, 0⟩
    limit := BitVec.ofNat 16 (8 * bimbleosTotalInterrupts - 1) }
  let idt := (List.range bimbleosTotalInterrupts).foldl (fun idt i => idtSet idt i (at_.interruptPointerTable i)) idt
  let idt := idtSet idt 0x0 at_.divideByZero
  let idt := idtSet idt 0x80 at_.isr80hWrapper
  let idt := (List.range 0x20).foldl
    (fun idt (i : Nat) => (idtRegisterInterruptCallback idt i .idtHandleException).2) idt
  (idtRegisterInterruptCallback idt 0x20 .idtClock).2

/-! ## How the processor reads a gate -/

/-- A gate: where it leads to, and the fields of its access byte. -/
structure Gate where
  offset : BitVec 32
  selector : BitVec 16
  present : Bool
  dpl : BitVec 2
  type : BitVec 5
  deriving DecidableEq, Repr

/-- The byte at a distance from the start of the table. -/
def Idt.byte (idt : Idt) (i : Nat) : BitVec 8 := (idt.idtDescriptors (i / 8)).bytes.getD (i % 8) 0

/-- The gate of a vector, if its last byte is inside the limit. -/
def Idt.gate (idt : Idt) (vector : Nat) : Option Gate :=
  if idt.limit.toNat < 8 * vector + 7 then none
  else
    let b := fun j => idt.byte (8 * vector + j)
    some {
      offset := b 7 ++ b 6 ++ b 1 ++ b 0
      selector := b 3 ++ b 2
      present := (b 5).getLsbD 7
      dpl := (b 5).extractLsb' 5 2
      type := (b 5).extractLsb' 0 5 }

/-- Where an interrupt leads to: in kernel code, through a 32-bit interrupt gate that user programs may use. -/
def interruptGate (address : BitVec 32) : Gate where
  offset := address
  selector := BitVec.ofNat 16 kernalCodeSelector
  present := true
  dpl := 3
  type := 0xE

section Gates

variable {idt : Idt} {at_ : HandlerAddresses} {address : BitVec 32} {i n vector : Nat}

/-- The gate that `idt_set` writes. -/
def interruptDesc (address : BitVec 32) : IdtDesc where
  offset1 := (address &&& 0xFFFF).setWidth 16
  selector := BitVec.ofNat 16 kernalCodeSelector
  zero := 0x00
  typeAttr := 0xEE
  offset2 := (address >>> 16).setWidth 16

/-- The lower half of an address. -/
theorem lowerHalf_toNat : ((address &&& 0xFFFF).setWidth 16).toNat = address.toNat % 65536 := by
  have hmask : address.toNat &&& 65535 = address.toNat % 65536 := Nat.and_two_pow_sub_one_eq_mod _ 16
  rw [BitVec.toNat_setWidth, BitVec.toNat_and]
  show (address.toNat &&& 65535) % 2 ^ 16 = _
  rw [hmask, Nat.mod_mod]

theorem upperHalf_toNat : ((address >>> 16).setWidth 16).toNat = address.toNat / 65536 := by
  have hlt := address.isLt
  rw [BitVec.toNat_setWidth, BitVec.toNat_ushiftRight, Nat.shiftRight_eq_div_pow]
  omega

/-- The four bytes of the offset are those of the address. -/
theorem interruptDesc_offset : (interruptDesc address).bytes.getD 7 0 ++ (interruptDesc address).bytes.getD 6 0
    ++ (interruptDesc address).bytes.getD 1 0 ++ (interruptDesc address).bytes.getD 0 0 = address := by
  have hlo (v : BitVec 16) : (v.setWidth 8).toNat = v.toNat % 256 := BitVec.toNat_setWidth ..
  have hhi (v : BitVec 16) : ((v >>> 8).setWidth 8).toNat = v.toNat / 256 := by
    have hlt := v.isLt
    rw [BitVec.toNat_setWidth, BitVec.toNat_ushiftRight, Nat.shiftRight_eq_div_pow]
    omega
  have hbyte (k : Nat) : (byteOf address k).toNat = address.toNat / 2 ^ k % 256 := by
    rw [byteOf_eq, BitVec.extractLsb'_toNat, Nat.shiftRight_eq_div_pow]
  have h₀ : (interruptDesc address).bytes.getD 0 0 = byteOf address 0 := by
    apply BitVec.eq_of_toNat_eq
    rw [hbyte, show (interruptDesc address).bytes.getD 0 0 = (interruptDesc address).offset1.setWidth 8 from rfl, hlo,
      interruptDesc, lowerHalf_toNat]
    omega
  have h₁ : (interruptDesc address).bytes.getD 1 0 = byteOf address 8 := by
    apply BitVec.eq_of_toNat_eq
    rw [hbyte, show (interruptDesc address).bytes.getD 1 0 = ((interruptDesc address).offset1 >>> 8).setWidth 8 from rfl,
      hhi, interruptDesc, lowerHalf_toNat]
    omega
  have h₂ : (interruptDesc address).bytes.getD 6 0 = byteOf address 16 := by
    apply BitVec.eq_of_toNat_eq
    rw [hbyte, show (interruptDesc address).bytes.getD 6 0 = (interruptDesc address).offset2.setWidth 8 from rfl, hlo,
      interruptDesc, upperHalf_toNat]
    rfl
  have h₃ : (interruptDesc address).bytes.getD 7 0 = byteOf address 24 := by
    have hlt := address.isLt
    apply BitVec.eq_of_toNat_eq
    rw [hbyte, show (interruptDesc address).bytes.getD 7 0 = ((interruptDesc address).offset2 >>> 8).setWidth 8 from rfl,
      hhi, interruptDesc, upperHalf_toNat]
    omega
  rw [h₀, h₁, h₂, h₃]
  exact append_byteOf

theorem interruptDesc_selector : (interruptDesc address).bytes.getD 3 0 ++ (interruptDesc address).bytes.getD 2 0
    = BitVec.ofNat 16 kernalCodeSelector := by
  show ((BitVec.ofNat 16 kernalCodeSelector >>> 8).setWidth 8 ++ (BitVec.ofNat 16 kernalCodeSelector).setWidth 8
    : BitVec (8 + 8)) = _
  decide

theorem interruptDesc_access : (interruptDesc address).bytes.getD 5 0 = 0xEE := rfl

/-- Storing the entries of the first `n` vectors one after the other. -/
theorem idtSet_range (f : Nat → BitVec 32) (n : Nat) : (List.range n).foldl (fun idt i => idtSet idt i (f i)) idt
    = { idt with idtDescriptors := fun v => if v < n then interruptDesc (f v) else idt.idtDescriptors v } := by
  induction n with
  | zero => simp
  | succ n ih =>
      rw [List.range_succ, List.foldl_append, ih]
      show idtSet _ n (f n) = _
      unfold idtSet
      simp only [Idt.mk.injEq, and_true]
      funext v
      by_cases hv : v = n
      · rw [hv, Function.update_self, if_pos (Nat.lt_succ_self n)]
        rfl
      · rw [Function.update_of_ne hv]
        simp only [show v < n + 1 ↔ v < n by omega]

/-- Registering one callback for the first `n` vectors. -/
theorem idtRegister_range (callback : InterruptCallback) (hn : n ≤ 256) : (List.range n).foldl
    (fun idt (i : Nat) => (idtRegisterInterruptCallback idt i callback).2) idt = { idt with
      interruptCallbacks := fun v => if v < n then some callback else idt.interruptCallbacks v } := by
  induction n with
  | zero => simp
  | succ n ih =>
      rw [List.range_succ, List.foldl_append, ih (by omega)]
      show (idtRegisterInterruptCallback _ n callback).2 = _
      unfold idtRegisterInterruptCallback bimbleosTotalInterrupts
      rw [if_neg (by omega)]
      simp only [Idt.mk.injEq, true_and, Int.toNat_natCast]
      funext v
      by_cases hv : v = n
      · rw [hv, Function.update_self, if_pos (Nat.lt_succ_self n)]
      · rw [Function.update_of_ne hv]
        simp only [show v < n + 1 ↔ v < n by omega]

/-- Where `idt_init` lets a vector lead to. -/
def handlerAddress (at_ : HandlerAddresses) (vector : Nat) : BitVec 32 :=
  if vector = 0x80 then at_.isr80hWrapper
  else if vector = 0 then at_.divideByZero
  else at_.interruptPointerTable vector

/-- The callback that `idt_init` registers. -/
def initialCallback (vector : Nat) (before : Option InterruptCallback) : Option InterruptCallback :=
  if vector < 0x20 then some .idtHandleException else if vector = 0x20 then some .idtClock else before

theorem idtInit_eq : idtInit at_ idt = {
    idtDescriptors := fun v => if v < 256 then interruptDesc (handlerAddress at_ v) else ⟨0, 0, 0, 0, 0⟩
    limit := 2047
    interruptCallbacks := fun v => initialCallback v (idt.interruptCallbacks v) } := by
  unfold idtInit
  dsimp only
  rw [show bimbleosTotalInterrupts = 256 from rfl, idtSet_range, idtRegister_range _ (by decide)]
  unfold idtRegisterInterruptCallback idtSet
  rw [if_neg (by decide)]
  simp only [Idt.mk.injEq]
  refine ⟨?_, by decide, ?_⟩
  · funext v
    unfold handlerAddress
    by_cases h₈₀ : v = 0x80
    · subst h₈₀
      rw [Function.update_self]
      rfl
    by_cases h₀ : v = 0
    · subst h₀
      rw [Function.update_of_ne (by decide), Function.update_self]
      rfl
    rw [Function.update_of_ne h₈₀, Function.update_of_ne h₀, if_neg h₈₀, if_neg h₀]
  · funext v
    unfold initialCallback
    rw [show (0x20 : Int).toNat = 0x20 from rfl]
    by_cases h₂₀ : v = 0x20
    · subst h₂₀
      rfl
    · rw [Function.update_of_ne h₂₀, if_neg h₂₀]

/-- The processor finds the gate of every vector, and no gate behind the table. -/
theorem idtInit_gate : (idtInit at_ idt).gate vector
    = if vector < 256 then some (interruptGate (handlerAddress at_ vector)) else none := by
  rw [idtInit_eq]
  unfold Idt.gate
  have hlimit : (2047 : BitVec 16).toNat = 2047 := rfl
  by_cases hv : vector < 256
  · rw [if_neg (by dsimp only; omega), if_pos hv]
    have hbyte (j : Nat) (hj : j < 8) : Idt.byte {
        idtDescriptors := fun v => if v < 256 then interruptDesc (handlerAddress at_ v) else ⟨0, 0, 0, 0, 0⟩
        limit := 2047
        interruptCallbacks := fun v => initialCallback v (idt.interruptCallbacks v) } (8 * vector + j)
          = (interruptDesc (handlerAddress at_ vector)).bytes.getD j 0 := by
      unfold Idt.byte
      rw [show (8 * vector + j) / 8 = vector by omega, show (8 * vector + j) % 8 = j by omega]
      dsimp only
      rw [if_pos hv]
    dsimp only
    rw [hbyte 7 (by decide), hbyte 6 (by decide), hbyte 5 (by decide), hbyte 3 (by decide), hbyte 2 (by decide),
      hbyte 1 (by decide)]
    have hfirst := hbyte 0 (by decide)
    rw [hfirst, interruptDesc_offset, interruptDesc_selector, interruptDesc_access, interruptGate]
    simp only [Option.some.injEq, Gate.mk.injEq, true_and]
    decide
  · rw [if_pos (by dsimp only; omega), if_neg hv]

end Gates

/-! ## Callbacks -/

/-- A series of registrations: what the calls return, and the tables after them. -/
def registerCallbacks : List (Int × InterruptCallback) → Idt → List Int × Idt
  | [], idt => ([], idt)
  | call :: calls, idt =>
      let (res, idt) := idtRegisterInterruptCallback idt call.1 call.2
      let (results, idt) := registerCallbacks calls idt
      (res :: results, idt)

/-- The callback that was registered last for a vector. -/
def lastCallback (calls : List (Int × InterruptCallback)) (vector : Nat) : Option InterruptCallback :=
  (calls.reverse.find? fun call => decide (call.1 = (vector : Int))).map Prod.snd

section Callbacks

variable {idt : Idt} {calls : List (Int × InterruptCallback)} {vector : Nat}

theorem registerCallbacks_gate : (registerCallbacks calls idt).2.gate vector = idt.gate vector := by
  induction calls generalizing idt with
  | nil => rfl
  | cons call calls ih =>
      show (registerCallbacks calls (idtRegisterInterruptCallback idt call.1 call.2).2).2.gate vector = _
      rw [ih]
      unfold idtRegisterInterruptCallback
      split
      · rfl
      · rfl

theorem registerCallbacks_results : (registerCallbacks calls idt).1
    = calls.map fun call => if call.1 < 0 ∨ 256 ≤ call.1 then -EINVARG else 0 := by
  induction calls generalizing idt with
  | nil => rfl
  | cons call calls ih =>
      show (idtRegisterInterruptCallback idt call.1 call.2).1
        :: (registerCallbacks calls (idtRegisterInterruptCallback idt call.1 call.2).2).1 = _
      rw [ih, List.map_cons]
      refine congrArg (· :: _) ?_
      unfold idtRegisterInterruptCallback
      split
      · rename_i hout
        exact (if_pos hout).symm
      · rename_i hin
        exact (if_neg hin).symm

/-- One registration more, at the front. -/
theorem lastCallback_cons {call : Int × InterruptCallback} : lastCallback (call :: calls) vector
    = (lastCallback calls vector).or (if call.1 = (vector : Int) then some call.2 else none) := by
  unfold lastCallback
  rw [List.reverse_cons, List.find?_append, List.find?_singleton]
  cases List.find? (fun call => decide (call.1 = (vector : Int))) calls.reverse with
  | some last => rfl
  | none =>
      simp only [decide_eq_true_eq, Option.none_or, Option.map_none]
      split
      · rfl
      · rfl

/-- The induction is on the calls; the tables before them are arbitrary. -/
theorem registerCallbacks_callback (hvector : vector < 256) : (registerCallbacks calls idt).2.interruptCallbacks vector
    = (lastCallback calls vector).or (idt.interruptCallbacks vector) := by
  induction calls generalizing idt with
  | nil => rfl
  | cons call calls ih =>
      show (registerCallbacks calls (idtRegisterInterruptCallback idt call.1 call.2).2).2.interruptCallbacks vector = _
      rw [ih, lastCallback_cons, Option.or_assoc]
      refine congrArg _ ?_
      unfold idtRegisterInterruptCallback bimbleosTotalInterrupts
      by_cases hthis : call.1 = vector
      · rw [if_neg (by omega), if_pos hthis]
        show Function.update idt.interruptCallbacks call.1.toNat (some call.2) vector = _
        rw [hthis, Int.toNat_natCast, Function.update_self]
        rfl
      · rw [if_neg hthis, Option.none_or]
        split
        · rfl
        · exact Function.update_of_ne (by omega) ..

end Callbacks

/-- **What an interrupt runs.** After `idt_init` and any series of registrations, the processor finds at every vector
    the gate to its stub, at 0 and 0x80 to `divide_by_zero` and `isr80h_wrapper`, and none behind the table. The
    callback of a vector is the one that was registered last for it, and else that of `idt_init`. A registration fails
    exactly for a number that is no vector. -/
theorem idt_dispatches (at_ : HandlerAddresses) (idt : Idt) (calls : List (Int × InterruptCallback)) :
    (registerCallbacks calls (idtInit at_ idt)).1
        = calls.map (fun call => if call.1 < 0 ∨ 256 ≤ call.1 then -EINVARG else 0) ∧
    ∀ vector, (registerCallbacks calls (idtInit at_ idt)).2.gate vector
          = (if vector < 256 then some (interruptGate (handlerAddress at_ vector)) else none) ∧
      (vector < 256 → (registerCallbacks calls (idtInit at_ idt)).2.interruptCallbacks vector
        = (lastCallback calls vector).or (initialCallback vector (idt.interruptCallbacks vector))) := by
  refine ⟨registerCallbacks_results, fun vector => ⟨?_, fun hvector => ?_⟩⟩
  · rw [registerCallbacks_gate, idtInit_gate]
  · rw [registerCallbacks_callback hvector, idtInit_eq]

/-- The vectors that have a callback once the keyboard driver is installed: those for which `interrupt_handler` saves
    the task. -/
theorem interruptCallbacks_iff (at_ : HandlerAddresses) {vector : Nat} (hvector : vector < 256) :
    ((idtRegisterInterruptCallback (idtInit at_ {}) isrKeyboardInterrupt
      .classicKeyboardHandleInterrupt).2.interruptCallbacks vector).isSome ↔ interruptCallbacks vector = true := by
  have hone := @registerCallbacks_callback (idtInit at_ {})
    [(isrKeyboardInterrupt, .classicKeyboardHandleInterrupt)] vector hvector
  show ((registerCallbacks [(isrKeyboardInterrupt, .classicKeyboardHandleInterrupt)]
    (idtInit at_ {})).2.interruptCallbacks vector).isSome ↔ _
  rw [hone, idtInit_eq, lastCallback_cons]
  unfold interruptCallbacks initialCallback isrKeyboardInterrupt
  have hempty : lastCallback [] vector = none := rfl
  rw [decide_eq_true_iff, hempty, Option.none_or]
  dsimp only
  by_cases hkey : (0x21 : Int) = vector
  · rw [if_pos hkey]
    simp
    omega
  · rw [if_neg hkey, Option.none_or]
    split
    · simp
      omega
    · split
      · simp
        omega
      · simp
        omega

/-! ## Commands -/

/-- The functions that are registered as commands of interrupt 0x80. -/
inductive Isr80hCommand where
  | sum
  | print
  | getkey
  | putchar
  | malloc
  | free
  | processLoadStart
  | invokeSystemCommand
  | getProgramArguments
  | exit
  deriving DecidableEq, Repr

/-- `isr80h_commands`. -/
abbrev CommandTable := Nat → Option Isr80hCommand

/-- `isr80h_register_command`. -/
def isr80hRegisterCommand (commandId : Int) (command : Isr80hCommand) (table : CommandTable) :
    Except Fault CommandTable :=
  if commandId < 0 ∨ (bimbleosMaxIsr80hCommands : Int) ≤ commandId then .error .panic
  else if (table commandId.toNat).isSome then .error .panic
  else .ok (Function.update table commandId.toNat (some command))

/-- A series of registrations. -/
def registerCommands (calls : List (Int × Isr80hCommand)) (table : CommandTable) : Except Fault CommandTable :=
  calls.foldlM (fun table call => isr80hRegisterCommand call.1 call.2 table) table

/-- The calls of `isr80h_register_commands`. -/
def isr80hCommands : List (Int × Isr80hCommand) := [
  (0, .sum), (1, .print), (2, .getkey), (3, .putchar), (4, .malloc), (5, .free), (6, .processLoadStart),
  (7, .invokeSystemCommand), (8, .getProgramArguments), (9, .exit)]

/-- `isr80h_handle_command`: the function that it calls, if any. -/
def isr80hHandleCommand (table : CommandTable) (command : Int) : Option Isr80hCommand :=
  if command < 0 ∨ (bimbleosMaxIsr80hCommands : Int) ≤ command then none else table command.toNat

/-- Every number is one of a command, and none is used twice. -/
def Registrable (calls : List (Int × Isr80hCommand)) : Prop :=
  (∀ call ∈ calls, 0 ≤ call.1 ∧ call.1 < 1024) ∧ (calls.map Prod.fst).Nodup

section Commands

variable {calls : List (Int × Isr80hCommand)} {call : Int × Isr80hCommand} {table table' : CommandTable}

/-- No number of the series is taken, and the series is registrable. -/
def RegistrableIn (table : CommandTable) (calls : List (Int × Isr80hCommand)) : Prop :=
  Registrable calls ∧ ∀ call ∈ calls, table call.1.toNat = none

theorem isr80hRegisterCommand_ok (hlo : 0 ≤ call.1) (hhi : call.1 < 1024) (hfree : table call.1.toNat = none) :
    isr80hRegisterCommand call.1 call.2 table = .ok (Function.update table call.1.toNat (some call.2)) := by
  unfold isr80hRegisterCommand bimbleosMaxIsr80hCommands
  rw [if_neg (by omega), hfree]
  rfl

/-- A number that is no command, or one that is taken, halts the kernel. -/
theorem isr80hRegisterCommand_panic (h : call.1 < 0 ∨ 1024 ≤ call.1 ∨ table call.1.toNat ≠ none) :
    isr80hRegisterCommand call.1 call.2 table = .error .panic := by
  unfold isr80hRegisterCommand bimbleosMaxIsr80hCommands
  by_cases hout : call.1 < 0 ∨ ((1024 : Nat) : Int) ≤ call.1
  · rw [if_pos hout]
  · have htaken : table call.1.toNat ≠ none := by
      rcases h with h | h | h
      · exact absurd (Or.inl h) hout
      · exact absurd (Or.inr h) hout
      · exact h
    rw [if_neg hout, if_pos (Option.isSome_iff_ne_none.mpr htaken)]

/-- The first of a series. -/
theorem registrableIn_cons (hlo : 0 ≤ call.1) (hhi : call.1 < 1024) (hfree : table call.1.toNat = none) :
    RegistrableIn table (call :: calls)
      ↔ RegistrableIn (Function.update table call.1.toNat (some call.2)) calls := by
  unfold RegistrableIn Registrable
  simp only [List.mem_cons, forall_eq_or_imp, List.map_cons, List.nodup_cons, List.mem_map, not_exists, not_and]
  constructor
  · rintro ⟨⟨⟨_, hrange⟩, hnew, hnodup⟩, _, hall⟩
    refine ⟨⟨hrange, hnodup⟩, fun other hother => ?_⟩
    have hrange' := hrange other hother
    rw [Function.update_of_ne fun heq => hnew other hother (by omega)]
    exact hall other hother
  · rintro ⟨⟨hrange, hnodup⟩, hall⟩
    have hne : ∀ other ∈ calls, other.1 ≠ call.1 := by
      intro other hother heq
      have hnone := hall other hother
      rw [heq, Function.update_self] at hnone
      cases hnone
    refine ⟨⟨⟨⟨hlo, hhi⟩, hrange⟩, hne, hnodup⟩, hfree, fun other hother => ?_⟩
    have hrange' := hrange other hother
    have hnone := hall other hother
    rwa [Function.update_of_ne fun heq => hne other hother (by omega)] at hnone

/-- The induction is on the calls, from any table. -/
theorem registerCommands_run (calls : List (Int × Isr80hCommand)) (table : CommandTable) :
    (RegistrableIn table calls → ∃ table', registerCommands calls table = .ok table' ∧
      ∀ id f, table' id = some f ↔ table id = some f ∨ ((id : Int), f) ∈ calls) ∧
    (¬ RegistrableIn table calls → registerCommands calls table = .error .panic) := by
  induction calls generalizing table with
  | nil =>
      refine ⟨fun _ => ⟨table, rfl, fun id f => by simp⟩, fun h => absurd ?_ h⟩
      exact ⟨⟨fun _ hmem => absurd hmem List.not_mem_nil, List.nodup_nil⟩, fun _ hmem => absurd hmem List.not_mem_nil⟩
  | cons call calls ih =>
      have hstep : registerCommands (call :: calls) table
          = (isr80hRegisterCommand call.1 call.2 table).bind (registerCommands calls) := rfl
      by_cases hok : 0 ≤ call.1 ∧ call.1 < 1024 ∧ table call.1.toNat = none
      · obtain ⟨hlo, hhi, hfree⟩ := hok
        rw [registrableIn_cons hlo hhi hfree, hstep, isr80hRegisterCommand_ok hlo hhi hfree]
        obtain ⟨hreturns, hhalts⟩ := ih (Function.update table call.1.toNat (some call.2))
        refine ⟨fun h => ?_, fun h => hhalts h⟩
        obtain ⟨table', hrun, htable⟩ := hreturns h
        refine ⟨table', hrun, fun id f => ?_⟩
        rw [htable, List.mem_cons]
        by_cases hthis : id = call.1.toNat
        · rw [hthis, Function.update_self, hfree]
          have hid : ((call.1.toNat : Nat) : Int) = call.1 := by omega
          rw [hid, Option.some.injEq]
          constructor
          · rintro (rfl | hmem)
            · exact Or.inr (Or.inl rfl)
            · exact Or.inr (Or.inr hmem)
          · rintro (hnone | heq | hmem)
            · cases hnone
            · exact Or.inl (congrArg Prod.snd heq).symm
            · exact Or.inr hmem
        · have hne : ((id : Int), f) ≠ call := by
            rintro rfl
            exact hthis (Int.toNat_natCast id).symm
          rw [Function.update_of_ne hthis]
          constructor
          · rintro (hold | hmem)
            · exact Or.inl hold
            · exact Or.inr (Or.inr hmem)
          · rintro (hold | heq | hmem)
            · exact Or.inl hold
            · exact absurd heq hne
            · exact Or.inr hmem
      · have hbad : call.1 < 0 ∨ 1024 ≤ call.1 ∨ table call.1.toNat ≠ none := by
          by_contra hgood
          obtain ⟨hlo, hhi, hfree⟩ := (not_or.mp hgood).imp_right not_or.mp
          exact hok ⟨by omega, by omega, not_not.mp hfree⟩
        rw [hstep, isr80hRegisterCommand_panic hbad]
        refine ⟨fun h => absurd ?_ hok, fun _ => rfl⟩
        obtain ⟨hlo, hhi⟩ := h.1.1 call List.mem_cons_self
        exact ⟨hlo, hhi, h.2 call List.mem_cons_self⟩

end Commands

/-- **What a system call runs.** A series of registrations into the empty table is completed exactly when its numbers
    are numbers of commands and none is used twice, and halts the kernel otherwise. Then every number that a program
    may ask for, negative or too large ones included, leads to the function that was registered under it, and to none
    if there is no such function. -/
theorem isr80h_dispatches (calls : List (Int × Isr80hCommand)) :
    (Registrable calls → ∃ table, registerCommands calls (fun _ => none) = .ok table ∧
      ∀ command f, isr80hHandleCommand table command = some f ↔ (command, f) ∈ calls) ∧
    (¬ Registrable calls → registerCommands calls (fun _ => none) = .error .panic) := by
  have hempty : RegistrableIn (fun _ => none) calls ↔ Registrable calls := and_iff_left fun _ _ => rfl
  obtain ⟨hreturns, hhalts⟩ := registerCommands_run calls fun _ => none
  rw [hempty] at hreturns hhalts
  refine ⟨fun h => ?_, hhalts⟩
  obtain ⟨table, hrun, htable⟩ := hreturns h
  refine ⟨table, hrun, fun command f => ?_⟩
  by_cases hin : 0 ≤ command ∧ command < 1024
  · have hrun : isr80hHandleCommand table command = table command.toNat := by
      unfold isr80hHandleCommand bimbleosMaxIsr80hCommands
      exact if_neg (by omega)
    have hid : ((command.toNat : Nat) : Int) = command := by omega
    rw [hrun, htable, hid]
    exact or_iff_right (by simp)
  · have hrun : isr80hHandleCommand table command = none := by
      unfold isr80hHandleCommand bimbleosMaxIsr80hCommands
      exact if_pos (by omega)
    rw [hrun]
    constructor
    · intro hnone
      cases hnone
    · intro hmem
      exact absurd (h.1 _ hmem) hin

/-- The kernel's own registrations. -/
example : Registrable isr80hCommands := ⟨by decide, by decide⟩

end BimbleOS
