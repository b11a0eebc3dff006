import BimbleOS.Lib.X86Ops
import BimbleOS.Task.Switch

/-!
# `Idt.Entry` — into the kernel and back

The assembly of `idt.asm` around its two C functions, and that of `bimbleos.asm` on the other side. A program that is
interrupted and resumed through its stub goes on as if nothing had happened (`interruptStub_returns`). A system call
gives back every register but `eax`, which holds the result; so each function of `bimbleos.asm` is a C function for
its caller, whose argument is the first item on the stack of the task (`bimbleosAsm_returns`).

The C functions are taken as what they are to their callers: they return, and leave the stack of the caller alone.
-/

namespace BimbleOS

open Bytes X86

/-! ## The code -/

/-- The interrupt stubs from the return of `interrupt_handler` to `iret`. -/
def interruptStubExit : List Op := [.instr (.addImm .esp 8), .popad]

/-- `isr80h_wrapper` up to its call; `tmp_res` is a word in the data of the kernel. -/
def isr80hWrapper : List Op := [.instr .pushad, .instr (.push .esp), .instr (.push .eax)]

/-- `isr80h_wrapper` from the return of `isr80h_handler` to `iretd`. -/
def isr80hWrapperExit (tmpRes : Nat) : List Op :=
  [.storeAt tmpRes .eax, .instr (.addImm .esp 8), .popad, .loadAt .eax tmpRes]

/-- A function of `bimbleos.asm`: the command it asks for, and whether it passes an argument on. -/
structure BimbleosStub where
  command : BitVec 32
  argument : Bool
  deriving DecidableEq, Repr

def print : BimbleosStub := ⟨1, true⟩
def bimbleosGetkey : BimbleosStub := ⟨2, false⟩
def bimbleosMalloc : BimbleosStub := ⟨4, true⟩
def bimbleosFree : BimbleosStub := ⟨5, true⟩
def bimbleosPutchar : BimbleosStub := ⟨3, true⟩
def bimbleosProcessLoadStart : BimbleosStub := ⟨6, true⟩
def bimbleosProcessGetArguments : BimbleosStub := ⟨8, true⟩
def bimbleosSystem : BimbleosStub := ⟨7, true⟩
def bimbleosExit : BimbleosStub := ⟨9, false⟩

namespace BimbleosStub

/-- Up to `int 0x80`. -/
def before (stub : BimbleosStub) : List Op :=
  [.instr (.push .ebp), .instr (.mov .ebp .esp)] ++ (if stub.argument then [.instr (.pushMem .ebp 8)] else [])
    ++ [.movImm .eax stub.command]

/-- From there to the end. -/
def after (stub : BimbleosStub) : List Op :=
  (if stub.argument then [.instr (.addImm .esp 4)] else []) ++ [.instr (.pop .ebp), .instr .ret]

end BimbleosStub

section Code

variable (alu : BitVec 32 → BitVec 32 → BitVec 32 → BitVec 32)

/-- The wrapper at work on a program that has raised interrupt 0x80: the state in which `isr80h_handler` is called, its
    two arguments on top of the stack. -/
def isr80hEntry (u : Cpu) : Cpu :=
  execOps alu isr80hWrapper (u.softwareInterrupt 0 (BitVec.ofNat 32 tssEsp0) (BitVec.ofNat 32 kernalDataSelector)
    (BitVec.ofNat 32 kernalCodeSelector))

/-- Memory once `isr80h_handler` has saved the current task, through the pointer that is its second argument. -/
def isr80hSaved (u : Cpu) (task : Nat) : Mem :=
  let c := isr80hEntry alu u
  taskSaveState c.mem task (load32 c.mem (c.addr .esp 4)).toNat

/-- The way back of a stub. -/
def interruptExit (k : Cpu) : Cpu := (execOps alu interruptStubExit k).iretd

/-- The way back of a system call. -/
def isr80hExit (tmpRes : Nat) (k : Cpu) : Cpu := (execOps alu (isr80hWrapperExit tmpRes) k).iretd

/-- A program goes on where it was, with its registers but for `eax`. -/
structure GoesOn (u c : Cpu) (eip eax : BitVec 32) : Prop where
  reg : ∀ r, r ≠ .eax → c.reg r = u.reg r
  eax : c.reg .eax = eax
  eip : c.eip = eip
  eflags : c.eflags = u.eflags
  cs : c.cs = u.cs
  ss : c.ss = u.ss

end Code

/-! ## Out of the kernel -/

section Exit

variable {alu : BitVec 32 → BitVec 32 → BitVec 32 → BitVec 32} {u k : Cpu} {result : BitVec 32} {tmpRes : Nat}

/-- What the wrapper leaves on the kernel stack: the arguments of `isr80h_handler`, then the frame. -/
theorem isr80hEntry_stack (alu : BitVec 32 → BitVec 32 → BitVec 32 → BitVec 32) (u : Cpu) :
    ∃ frame esp : BitVec 32, frame.toNat = tssEsp0 - 52 ∧ Stack tssEsp0 u.mem ([u.reg .eax, frame] ++ ([u.reg .edi,
      u.reg .esi, u.reg .ebp, esp, u.reg .ebx, u.reg .edx, u.reg .ecx, u.reg .eax] ++ [u.eip + 1, u.cs, u.eflags,
        u.reg .esp, u.ss])) (isr80hEntry alu u) := by
  unfold isr80hEntry isr80hWrapper Cpu.softwareInterrupt
  have hint := Stack.interrupt { u with eip := u.eip + 1 } 0 (BitVec.ofNat 32 tssEsp0)
    (BitVec.ofNat 32 kernalDataSelector) (BitVec.ofNat 32 kernalCodeSelector) (by decide)
  have hreg : ∀ r, r ≠ .esp → (({ u with eip := u.eip + 1 } : Cpu).interrupt 0 (BitVec.ofNat 32 tssEsp0)
      (BitVec.ofNat 32 kernalDataSelector) (BitVec.ofNat 32 kernalCodeSelector)).reg r = u.reg r := by
    intro r hr
    simp only [Cpu.interrupt, Cpu.push, Cpu.set, Function.update_of_ne hr]
  generalize ({ u with eip := u.eip + 1 } : Cpu).interrupt 0 (BitVec.ofNat 32 tssEsp0)
    (BitVec.ofNat 32 kernalDataSelector) (BitVec.ofNat 32 kernalCodeSelector) = c₁ at hint hreg
  have hpushad := hint.exec_pushad alu (by decide : 4 * (8 + 5) ≤ tssEsp0)
  generalize hc₂ : exec alu .pushad c₁ = c₂ at hpushad
  have hpush := (hpushad.exec_push alu .esp (by decide : 4 * (13 + 1) ≤ tssEsp0)).exec_push alu .eax
    (by decide : 4 * (14 + 1) ≤ tssEsp0)
  have heax : (exec alu (.push .esp) c₂).reg .eax = u.reg .eax := by
    rw [exec_push_reg (by decide), ← hc₂, exec_pushad_reg (by decide), hreg .eax (by decide)]
  rw [hreg .edi (by decide), hreg .esi (by decide), hreg .ebp (by decide), hreg .ebx (by decide),
    hreg .edx (by decide), hreg .ecx (by decide), hreg .eax (by decide), heax] at hpush
  refine ⟨c₂.reg .esp, c₁.reg .esp, ?_, ?_⟩
  · have hesp : (c₂.reg .esp).toNat + 4 * 13 = tssEsp0 := hpushad.esp
    omega
  · show Stack tssEsp0 _ _ (exec alu (.push .eax) (exec alu (.push .esp) (exec alu .pushad c₁)))
    rw [hc₂]
    exact hpush

/-- The wrapper writes to the kernel stack only. -/
theorem isr80hEntry_below (alu : BitVec 32 → BitVec 32 → BitVec 32 → BitVec 32) (u : Cpu) {a : Nat}
    (ha : a + 60 < tssEsp0) : (isr80hEntry alu u).mem a = u.mem a := by
  have hstart : Above (tssEsp0 - 60) tssEsp0 u.mem
      ({ ({ u with eip := u.eip + 1 } : Cpu).set .esp (BitVec.ofNat 32 tssEsp0) with
        ss := BitVec.ofNat 32 kernalDataSelector } : Cpu) := ⟨rfl, fun _ _ => rfl⟩
  have hint := (hstart.pushAll [u.eip + 1, u.cs, u.eflags, u.reg .esp, u.ss] 5 rfl (by decide)).congr
    (d := u.softwareInterrupt 0 (BitVec.ofNat 32 tssEsp0) (BitVec.ofNat 32 kernalDataSelector)
      (BitVec.ofNat 32 kernalCodeSelector)) rfl rfl
  unfold isr80hEntry
  generalize u.softwareInterrupt 0 (BitVec.ofNat 32 tssEsp0) (BitVec.ofNat 32 kernalDataSelector)
    (BitVec.ofNat 32 kernalCodeSelector) = c at hint
  show (exec alu (.push .eax) (exec alu (.push .esp) (exec alu .pushad c))).mem a = _
  have hpushad := ((hint.congr (d := { c with eip := c.eip + 1 }) rfl rfl).pushAll [c.reg .edi, c.reg .esi, c.reg .ebp,
    c.reg .esp, c.reg .ebx, c.reg .edx, c.reg .ecx, c.reg .eax] 8 rfl (by decide)).congr (d := exec alu .pushad c) rfl rfl
  generalize exec alu .pushad c = c₁ at hpushad
  have hpush := (hpushad.push (c₁.reg .esp) (by decide)).congr (d := exec alu (.push .esp) c₁) rfl rfl
  generalize exec alu (.push .esp) c₁ = c₂ at hpush
  have hlast := (hpush.push (c₂.reg .eax) (by decide)).congr (d := exec alu (.push .eax) c₂) rfl rfl
  exact hlast.below a (by omega)

/-- **Saving a task at a system call.** -/
theorem savedReg_isr80hSaved {task : Nat} (htask : bimbleosHeapAddress ≤ task) (f : SavedReg) :
    savedReg (isr80hSaved alu u task) task f = userReg { u with eip := u.eip + 1 } f := by
  obtain ⟨frame, esp, hframe, hstack⟩ := isr80hEntry_stack alu u
  unfold isr80hSaved
  exact @savedReg_frame { u with eip := u.eip + 1 } _ u.mem _ frame esp task hframe hstack htask f

/-- Saving the task writes to its structure, which lies above the kernel stack. -/
theorem isr80hSaved_below {task a : Nat} (htask : bimbleosHeapAddress ≤ task) (ha : a + 60 < tssEsp0) :
    isr80hSaved alu u task a = u.mem a := by
  have hheap : tssEsp0 ≤ bimbleosHeapAddress := by decide
  unfold isr80hSaved
  exact (taskSaveState_outside (Or.inl (by omega))).trans (isr80hEntry_below alu u ha)

/-- The stack of a handler once the arguments are dropped from it. -/
theorem CReturns.dropArguments (alu : BitVec 32 → BitVec 32 → BitVec 32 → BitVec 32) {m : Mem} {ws : List (BitVec 32)}
    {a b : BitVec 32} {c : Cpu} (hstack : Stack tssEsp0 m ([a, b] ++ ws) c)
    (hret : CReturns tssEsp0 2 result c k) : Stack tssEsp0 k.mem ws (exec alu (.addImm .esp 8) k) := by
  obtain ⟨args, hlen, hback⟩ := hstack.returned hret
  refine hback.dropWords (by decide) ?_ rfl
  rw [hlen]
  show Function.update k.reg .esp (k.reg .esp + 8) .esp = _
  rw [Function.update_self]
  rfl

/-- From `popad` to `iretd`, with `eax` loaded in between or not. -/
theorem goesOn_of_popad {m : Mem} {eip x : BitVec 32} {c : Cpu} (hstack : Stack tssEsp0 m ([u.reg .edi,
      u.reg .esi, u.reg .ebp, x, u.reg .ebx, u.reg .edx, u.reg .ecx, u.reg .eax] ++ [eip, u.cs, u.eflags,
        u.reg .esp, u.ss]) k) (hreg : ∀ r, r ≠ .eax → c.reg r = k.popad.reg r) (hmem : c.mem = k.mem) :
    GoesOn u c.iretd eip (c.reg .eax) := by
  obtain ⟨hframe, hedi, hesi, hebp, hebx, hedx, hecx, _⟩ := hstack.popad (by decide)
  have hback : Stack tssEsp0 m ([eip, u.cs, u.eflags, u.reg .esp, u.ss] ++ []) c :=
    hframe.congr (hreg .esp (by decide)) hmem
  obtain ⟨heip, hcs, heflags, hesp, hss⟩ := hback.iretd
  refine ⟨fun r hr => ?_, Cpu.iretd_reg (by decide), heip, heflags, hcs, hss⟩
  cases r with
  | eax => exact absurd rfl hr
  | esp => exact hesp
  | edi => rw [Cpu.iretd_reg (by decide), hreg _ hr, hedi]
  | esi => rw [Cpu.iretd_reg (by decide), hreg _ hr, hesi]
  | ebp => rw [Cpu.iretd_reg (by decide), hreg _ hr, hebp]
  | ebx => rw [Cpu.iretd_reg (by decide), hreg _ hr, hebx]
  | edx => rw [Cpu.iretd_reg (by decide), hreg _ hr, hedx]
  | ecx => rw [Cpu.iretd_reg (by decide), hreg _ hr, hecx]

/-- A system call gives back everything but `eax`. -/
theorem isr80hExit_goesOn (tmpRes : Nat) (hret : CReturns tssEsp0 2 result (isr80hEntry alu u) k)
    (htmp : tmpRes + 64 ≤ tssEsp0) :
    GoesOn u (isr80hExit alu tmpRes k) (u.eip + 1) result ∧
      (isr80hExit alu tmpRes k).mem = store32 k.mem tmpRes result := by
  obtain ⟨frame, esp, _, hstack⟩ := isr80hEntry_stack alu u
  have hbase : ((isr80hEntry alu u).reg .esp).toNat + 4 * 15 = tssEsp0 := hstack.esp
  -- `tmp_res` lies below the stack
  have hstored : CReturns tssEsp0 2 result (isr80hEntry alu u) (execOp alu (.storeAt tmpRes .eax) k) := by
    refine ⟨hret.eax, hret.esp, fun a hlo hhi => ?_⟩
    show store32 k.mem tmpRes (k.reg .eax) a = _
    rw [store32_of_outside (by omega)]
    exact hret.frame a hlo hhi
  have hmem : (execOp alu (.storeAt tmpRes .eax) k).mem = store32 k.mem tmpRes result := by
    show store32 k.mem tmpRes (k.reg .eax) = _
    rw [hret.eax]
  generalize hk₁ : execOp alu (.storeAt tmpRes .eax) k = k₁ at hstored hmem
  have hdropped := CReturns.dropArguments alu hstack hstored
  generalize hk₂ : exec alu (.addImm .esp 8) k₁ = k₂ at hdropped
  have hmem₂ : k₂.mem = k₁.mem := by rw [← hk₂]; rfl
  have hexit : isr80hExit alu tmpRes k = (execOp alu (.loadAt .eax tmpRes) (execOp alu .popad k₂)).iretd := by
    rw [← hk₂, ← hk₁]
    rfl
  have hloaded : (execOp alu (.loadAt .eax tmpRes) (execOp alu .popad k₂)).reg .eax = result := by
    show load32 k₂.mem tmpRes = result
    rw [hmem₂, hmem]
    exact load32_store32
  rw [hexit]
  refine ⟨?_, hmem₂.trans hmem⟩
  rw [← hloaded]
  exact goesOn_of_popad hdropped (fun r hr => Function.update_of_ne hr _ _) rfl

end Exit

/-- **An interrupt that returns is not noticed** by the program: whatever `interrupt_handler` has done, the stub gives
    back every register, the flags and the place in the program. -/
theorem interruptStub_returns {alu : BitVec 32 → BitVec 32 → BitVec 32 → BitVec 32} {u k : Cpu} {n result : BitVec 32}
    (hret : CReturns tssEsp0 2 result (interruptEntry alu u n) k) :
    GoesOn u (interruptExit alu k) u.eip (u.reg .eax) := by
  obtain ⟨frame, esp, _, hstack⟩ := interruptEntry_stack alu u n
  have hdropped : Stack tssEsp0 k.mem ([u.reg .edi, u.reg .esi, u.reg .ebp, esp, u.reg .ebx, u.reg .edx, u.reg .ecx,
      u.reg .eax] ++ [u.eip, u.cs, u.eflags, u.reg .esp, u.ss]) (exec alu (.addImm .esp 8) k) :=
    CReturns.dropArguments alu hstack hret
  obtain ⟨_, _, _, _, _, _, _, heax⟩ := hdropped.popad (by decide)
  have hon := goesOn_of_popad (c := execOp alu .popad (exec alu (.addImm .esp 8) k)) hdropped (fun _ _ => rfl) rfl
  exact heax ▸ hon

/-! ## System calls -/

namespace BimbleosStub

variable (alu : BitVec 32 → BitVec 32 → BitVec 32 → BitVec 32) (stub : BimbleosStub)

/-- The program at the `int 0x80` of the function. -/
def atInt (c : Cpu) : Cpu := execOps alu stub.before c

/-- The end of the function, once the system call has given back `c`. -/
def leave (c : Cpu) : Cpu := execOps alu stub.after c

/-- The stack of the program at `int 0x80`: the argument, `ebp` of the caller and the return address. -/
def words (c : Cpu) : List (BitVec 32) :=
  (if stub.argument then [load32 c.mem ((c.reg .esp).toNat + 4)] else [])
    ++ [c.reg .ebp, load32 c.mem (c.reg .esp).toNat]

section Frame

variable {c c' : Cpu}

theorem atInt_stack (hlo : 8 ≤ (c.reg .esp).toNat) (hhi : (c.reg .esp).toNat + 8 ≤ 2 ^ 32) :
    Stack ((c.reg .esp).toNat + 4) c.mem (stub.words c) (stub.atInt alu c) := by
  have hstart : Stack ((c.reg .esp).toNat + 4) c.mem [load32 c.mem (c.reg .esp).toNat] c := by
    refine ⟨rfl, fun k hk => ?_, fun _ _ => rfl⟩
    obtain rfl : k = 0 := Nat.lt_one_iff.mp hk
    rfl
  have hebp : Stack ((c.reg .esp).toNat + 4) c.mem [c.reg .ebp, load32 c.mem (c.reg .esp).toNat]
      (exec alu (.mov .ebp .esp) (exec alu (.push .ebp) c)) :=
    (hstart.exec_push alu .ebp (by show 4 * 2 ≤ _; omega)).congr rfl rfl
  have hesp : (exec alu (.mov .ebp .esp) (exec alu (.push .ebp) c)).reg .ebp
      = (exec alu (.mov .ebp .esp) (exec alu (.push .ebp) c)).reg .esp := rfl
  obtain ⟨command, argument⟩ := stub
  cases argument with
  | false =>
      show Stack _ _ _ (execOp alu (.movImm .eax command) (exec alu (.mov .ebp .esp) (exec alu (.push .ebp) c)))
      exact hebp.congr rfl rfl
  | true =>
      show Stack _ _ _ (execOp alu (.movImm .eax command) (exec alu (.pushMem .ebp 8)
        (exec alu (.mov .ebp .esp) (exec alu (.push .ebp) c))))
      generalize exec alu (.mov .ebp .esp) (exec alu (.push .ebp) c) = c₁ at hebp hesp
      have hbase : (c₁.reg .esp).toNat + 4 * 2 = (c.reg .esp).toNat + 4 := hebp.esp
      have hpushed := hebp.exec_pushMem alu .ebp 8 (by show 4 * 3 ≤ _; omega)
      rw [Cpu.addr_eq (congrArg BitVec.toNat hesp) (by omega), show (c₁.reg .esp).toNat + 8 = (c.reg .esp).toNat + 4
        by omega, hebp.load_above (Nat.le_refl _)] at hpushed
      exact hpushed.congr rfl rfl

theorem atInt_reg {r : Reg} (heax : r ≠ .eax) (hesp : r ≠ .esp) (hebp : r ≠ .ebp) :
    (stub.atInt alu c).reg r = c.reg r := by
  obtain ⟨command, argument⟩ := stub
  unfold atInt execOps before
  cases argument <;>
    simp [execOp, exec, Cpu.set, Cpu.push, Function.update_of_ne heax, Function.update_of_ne hesp,
      Function.update_of_ne hebp]

theorem atInt_eax : (stub.atInt alu c).reg .eax = stub.command := by
  obtain ⟨command, argument⟩ := stub
  cases argument <;> rfl

/-- `pop ebp` and `ret`. -/
theorem popRet {m : Mem} {e : Nat} {ebp back : BitVec 32} (he : e < 2 ^ 32) (h : Stack e m [ebp, back] c') :
    (exec alu .ret (exec alu (.pop .ebp) c')).eip = back ∧ (exec alu .ret (exec alu (.pop .ebp) c')).reg .ebp = ebp ∧
      ((exec alu .ret (exec alu (.pop .ebp) c')).reg .esp).toNat = e ∧
      ∀ r, r ≠ .esp → r ≠ .ebp → (exec alu .ret (exec alu (.pop .ebp) c')).reg r = c'.reg r := by
  have hpopped : Stack e m [back] (exec alu (.pop .ebp) c') := (h.drop he).congr rfl rfl
  have hback : Stack e m [] (exec alu .ret (exec alu (.pop .ebp) c')) := (hpopped.drop he).congr rfl rfl
  refine ⟨hpopped.top, h.top, hback.esp, fun r hesp hebp => ?_⟩
  simp only [exec, Cpu.drop, Cpu.set, Function.update_of_ne hesp, Function.update_of_ne hebp]

/-- The end of the function takes the words from the stack. -/
theorem leave_words {m : Mem} {e : Nat} (he : e < 2 ^ 32) (h : Stack e m (stub.words c) c') :
    (stub.leave alu c').eip = load32 c.mem (c.reg .esp).toNat ∧ (stub.leave alu c').reg .ebp = c.reg .ebp ∧
      ((stub.leave alu c').reg .esp).toNat = e ∧
      ∀ r, r ≠ .esp → r ≠ .ebp → (stub.leave alu c').reg r = c'.reg r := by
  obtain ⟨command, argument⟩ := stub
  cases argument with
  | false => exact popRet alu he h
  | true =>
      have hdropped : Stack e m [c.reg .ebp, load32 c.mem (c.reg .esp).toNat] (exec alu (.addImm .esp 4) c') :=
        (Stack.drop h he).congr rfl rfl
      obtain ⟨heip, hebp, hesp, hreg⟩ := popRet alu he hdropped
      refine ⟨heip, hebp, hesp, fun r hr hr' => (hreg r hr hr').trans ?_⟩
      exact Function.update_of_ne hr _ _

end Frame

end BimbleosStub

section Calls

variable {alu : BitVec 32 → BitVec 32 → BitVec 32 → BitVec 32} {c k : Cpu} {task tmpRes : Nat} {result : BitVec 32}

/-- **A function of `bimbleos.asm` asks for its command**: `isr80h_handler` gets the number of the command. Once it
    has saved the task, the saved registers are those of the program behind its `int 0x80`, and the first item on the
    stack of the task is the argument of the function. -/
theorem bimbleosAsm_asks (stub : BimbleosStub) (hlo : bimbleosProgramVirtualStackAddressEnd + 8 ≤ (c.reg .esp).toNat)
    (hhi : (c.reg .esp).toNat + 8 ≤ bimbleosProgramVirtualStackAddressStart) (htask : bimbleosHeapAddress ≤ task) :
    (isr80hEntry alu (stub.atInt alu c)).top = stub.command ∧
      (∀ f, savedReg (isr80hSaved alu (stub.atInt alu c) task) task f
        = userReg { stub.atInt alu c with eip := (stub.atInt alu c).eip + 1 } f) ∧
      (stub.argument → load32 (isr80hSaved alu (stub.atInt alu c) task)
        (savedReg (isr80hSaved alu (stub.atInt alu c) task) task .esp).toNat = load32 c.mem ((c.reg .esp).toNat + 4)) := by
  have hstart : bimbleosProgramVirtualStackAddressStart = 0x3FF000 := rfl
  have htop : tssEsp0 = 0x600000 := rfl
  have hend : bimbleosProgramVirtualStackAddressEnd = 0x3FB000 := rfl
  have hwords := stub.atInt_stack alu (c := c) (by omega) (by omega)
  obtain ⟨frame, esp, _, hstack⟩ := isr80hEntry_stack alu (stub.atInt alu c)
  refine ⟨hstack.top.trans (stub.atInt_eax alu), fun f => savedReg_isr80hSaved htask f, fun hargument => ?_⟩
  rw [savedReg_isr80hSaved htask]
  show load32 _ ((stub.atInt alu c).reg .esp).toNat = _
  have hbase := hwords.esp
  have hlen : 2 ≤ (stub.words c).length := by
    rw [BimbleosStub.words, List.length_append]
    exact Nat.le_add_left _ _
  rw [load32_congr fun i hi => isr80hSaved_below htask (by omega)]
  have hfirst := hwords.word 0 (by omega)
  simpa [BimbleosStub.words, hargument] using hfirst

/-- **A function of `bimbleos.asm` is a C function** for its caller. It is called on the stack of the program; the
    command returns, and leaves alone what the call has put on the stack of the program. Then the function returns its
    result to its caller, whose stack pointer and registers, `eax` apart, are as before the call. -/
theorem bimbleosAsm_returns (stub : BimbleosStub) (hlo : bimbleosProgramVirtualStackAddressEnd + 8 ≤ (c.reg .esp).toNat)
    (hhi : (c.reg .esp).toNat + 8 ≤ bimbleosProgramVirtualStackAddressStart)
    (htmp : tmpRes + 4 ≤ bimbleosProgramVirtualStackAddressEnd)
    (hret : CReturns tssEsp0 2 result (isr80hEntry alu (stub.atInt alu c)) k)
    (hkeep : ∀ a, ((stub.atInt alu c).reg .esp).toNat ≤ a → a < (c.reg .esp).toNat + 4 →
      k.mem a = (isr80hEntry alu (stub.atInt alu c)).mem a) :
    (stub.leave alu (isr80hExit alu tmpRes k)).eip = load32 c.mem (c.reg .esp).toNat ∧
      ((stub.leave alu (isr80hExit alu tmpRes k)).reg .esp).toNat = (c.reg .esp).toNat + 4 ∧
      (stub.leave alu (isr80hExit alu tmpRes k)).reg .eax = result ∧
      ∀ r, r ≠ .esp → r ≠ .eax → (stub.leave alu (isr80hExit alu tmpRes k)).reg r = c.reg r := by
  have hstart : bimbleosProgramVirtualStackAddressStart = 0x3FF000 := rfl
  have htop : tssEsp0 = 0x600000 := rfl
  have hend : bimbleosProgramVirtualStackAddressEnd = 0x3FB000 := rfl
  have hwords := stub.atInt_stack alu (c := c) (by omega) (by omega)
  obtain ⟨hon, hmem⟩ := isr80hExit_goesOn tmpRes hret (by omega)
  generalize isr80hExit alu tmpRes k = back at hon hmem ⊢
  have hesp : back.reg .esp = (stub.atInt alu c).reg .esp := hon.reg .esp (by decide)
  have hlen : (stub.words c).length ≤ 3 := by
    rw [BimbleosStub.words]
    split
    · exact Nat.le_refl 3
    · exact Nat.le_succ 2
  have hbase := hwords.esp
  have hsame : ∀ a, ((stub.atInt alu c).reg .esp).toNat ≤ a → a < (c.reg .esp).toNat + 4 →
      back.mem a = (stub.atInt alu c).mem a := by
    intro a hle hlt
    rw [hmem, store32_of_outside (by omega), hkeep a hle hlt, isr80hEntry_below alu _ (by omega)]
  have hstack : Stack ((c.reg .esp).toNat + 4) back.mem (stub.words c) back := by
    refine ⟨by rw [hesp]; exact hbase, fun i hi => ?_, fun _ _ => rfl⟩
    rw [hesp, ← hwords.word i hi]
    exact load32_congr fun j hj => hsame _ (by omega) (by omega)
  obtain ⟨heip, hebp, hsp, hreg⟩ := stub.leave_words alu (by omega) hstack
  refine ⟨heip, hsp, (hreg .eax (by decide) (by decide)).trans hon.eax, fun r hr hr' => ?_⟩
  by_cases hframe : r = .ebp
  · rw [hframe]
    exact hebp
  · rw [hreg r hr hframe, hon.reg r hr', stub.atInt_reg alu hr' hr hframe]

end Calls

/-- A C function that returns at once. -/
theorem cReturns_at_once (args : Nat) (result : BitVec 32) (c : Cpu) :
    CReturns tssEsp0 args result c (c.set .eax result) where
  eax := rfl
  esp := rfl
  frame := fun _ _ _ => rfl

theorem interruptStub_returns_idle :
    GoesOn idleTask (interruptExit keepFlags ((interruptEntry keepFlags idleTask 0x21).set .eax 0)) idleTask.eip
      (idleTask.reg .eax) :=
  interruptStub_returns (cReturns_at_once 2 0 _)

theorem bimbleosAsm_asks_idle : (isr80hEntry keepFlags (bimbleosMalloc.atInt keepFlags idleTask)).top = 4 ∧
    (∀ f, savedReg (isr80hSaved keepFlags (bimbleosMalloc.atInt keepFlags idleTask) 0x1000000) 0x1000000 f
      = userReg { bimbleosMalloc.atInt keepFlags idleTask with
          eip := (bimbleosMalloc.atInt keepFlags idleTask).eip + 1 } f) ∧
    (bimbleosMalloc.argument → load32 (isr80hSaved keepFlags (bimbleosMalloc.atInt keepFlags idleTask) 0x1000000)
      (savedReg (isr80hSaved keepFlags (bimbleosMalloc.atInt keepFlags idleTask) 0x1000000) 0x1000000 .esp).toNat
        = load32 idleTask.mem ((idleTask.reg .esp).toNat + 4)) :=
  bimbleosAsm_asks bimbleosMalloc (by decide) (by decide) (by decide)

theorem bimbleosAsm_returns_idle :
    let back := bimbleosMalloc.leave keepFlags (isr80hExit keepFlags 0x100000
      ((isr80hEntry keepFlags (bimbleosMalloc.atInt keepFlags idleTask)).set .eax 0x1000000))
    back.eip = load32 idleTask.mem (idleTask.reg .esp).toNat ∧
      (back.reg .esp).toNat = (idleTask.reg .esp).toNat + 4 ∧ back.reg .eax = 0x1000000 ∧
      ∀ r, r ≠ .esp → r ≠ .eax → back.reg r = idleTask.reg r :=
  bimbleosAsm_returns bimbleosMalloc (by decide) (by decide) (by decide) (cReturns_at_once 2 0x1000000 _)
    fun _ _ _ => rfl

end BimbleOS
