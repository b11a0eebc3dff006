import BimbleOS.Lib.X86

/-!
# `Lib.X86Ops` — the instructions around a system call

`popad`, immediate operands and accesses to a fixed address, beside the instructions of `Lib.X86`, and what a C function
does to the registers and to the stack of its caller (`CReturns`). The stack rules say what a block of `popad` finds.
-/

namespace X86

open Bytes

/-- `popad`: the eight registers from the stack; the value of `esp` is passed over. -/
def Cpu.popad (c : Cpu) : Cpu :=
  let a := (c.reg .esp).toNat
  { c with reg := fun
    | .edi => load32 c.mem a
    | .esi => load32 c.mem (a + 4)
    | .ebp => load32 c.mem (a + 8)
    | .esp => c.reg .esp + 32
    | .ebx => load32 c.mem (a + 16)
    | .edx => load32 c.mem (a + 20)
    | .ecx => load32 c.mem (a + 24)
    | .eax => load32 c.mem (a + 28) }

inductive Op where
  | instr (i : Instr)
  /-- `mov dst, imm` -/
  | movImm (dst : Reg) (imm : BitVec 32)
  | popad
  /-- `mov [a], src` -/
  | storeAt (a : Nat) (src : Reg)
  /-- `mov dst, [a]` -/
  | loadAt (dst : Reg) (a : Nat)
  deriving DecidableEq, Repr

section Ops

variable (alu : BitVec 32 → BitVec 32 → BitVec 32 → BitVec 32)

def execOp (op : Op) (c : Cpu) : Cpu :=
  let next := { c with eip := c.eip + 1 }
  match op with
  | .instr i => exec alu i c
  | .movImm dst imm => next.set dst imm
  | .popad => next.popad
  | .storeAt a src => { next with mem := store32 c.mem a (c.reg src) }
  | .loadAt dst a => next.set dst (load32 c.mem a)

/-- A block of instructions. -/
def execOps (ops : List Op) (c : Cpu) : Cpu := ops.foldl (fun c op => execOp alu op c) c

/-- An interrupt that the running program raises itself goes on behind the instruction. -/
def Cpu.softwareInterrupt (c : Cpu) (handler esp0 ss0 cs0 : BitVec 32) : Cpu :=
  ({ c with eip := c.eip + 1 } : Cpu).interrupt handler esp0 ss0 cs0

end Ops

/-- What is left of `c` once a C function has returned to it: the result is in `eax`, the stack pointer is back, and of
    the memory between `args` words behind it and `e` nothing has changed. -/
structure CReturns (e args : Nat) (result : BitVec 32) (c c' : Cpu) : Prop where
  eax : c'.reg .eax = result
  esp : c'.reg .esp = c.reg .esp
  frame : ∀ a, (c.reg .esp).toNat + 4 * args ≤ a → a < e → c'.mem a = c.mem a

/-! ## The stack -/

namespace Stack

variable {e : Nat} {m : Mem} {ws args : List (BitVec 32)} {w : BitVec 32} {c c' : Cpu}
  {edi esi ebp esp ebx edx ecx eax : BitVec 32}

/-- Words that are dropped without being read. -/
theorem dropWords (h : Stack e m (args ++ ws) c) (he : e < 2 ^ 32)
    (hesp : c'.reg .esp = c.reg .esp + BitVec.ofNat 32 (4 * args.length)) (hmem : c'.mem = c.mem) :
    Stack e m ws c' := by
  have hbase := h.esp
  rw [List.length_append] at hbase
  have hnew : (c'.reg .esp).toNat = (c.reg .esp).toNat + 4 * args.length := by
    rw [hesp, BitVec.toNat_add, BitVec.toNat_ofNat, Nat.mod_eq_of_lt (by omega : 4 * args.length < 2 ^ 32)]
    exact Nat.mod_eq_of_lt (by omega)
  refine ⟨by omega, fun k hk => ?_, by rw [hmem]; exact h.above⟩
  rw [hnew, hmem, Nat.add_assoc, ← Nat.mul_add, h.word _ (by rw [List.length_append]; omega),
    List.getElem_append_right (by omega)]
  simp

/-- The words behind the arguments of a C function are as before once it has returned. -/
theorem returned {result : BitVec 32} (h : Stack e m (args ++ ws) c) (hret : CReturns e args.length result c c') :
    ∃ args', args'.length = args.length ∧ Stack e c'.mem (args' ++ ws) c' := by
  have hbase := h.esp
  rw [List.length_append] at hbase
  refine ⟨(List.range args.length).map fun k => load32 c'.mem ((c'.reg .esp).toNat + 4 * k), by simp, ?_⟩
  refine ⟨by rw [hret.esp, List.length_append, List.length_map, List.length_range]; exact hbase, fun k hk => ?_,
    fun _ _ => rfl⟩
  rw [List.length_append, List.length_map, List.length_range] at hk
  by_cases hargs : k < args.length
  · rw [List.getElem_append_left (by simpa using hargs)]
    simp
  · rw [List.getElem_append_right (by simpa using hargs)]
    simp only [List.length_map, List.length_range]
    have hword := h.word k (by rwa [List.length_append])
    rw [List.getElem_append_right (by omega)] at hword
    rw [← hword, hret.esp]
    exact load32_congr fun i hi => hret.frame _ (by omega) (by omega)

/-- `popad` takes the eight registers from the stack. -/
theorem popad (h : Stack e m ([edi, esi, ebp, esp, ebx, edx, ecx, eax] ++ ws) c) (he : e < 2 ^ 32) :
    Stack e m ws c.popad ∧ c.popad.reg .edi = edi ∧ c.popad.reg .esi = esi ∧ c.popad.reg .ebp = ebp ∧
      c.popad.reg .ebx = ebx ∧ c.popad.reg .edx = edx ∧ c.popad.reg .ecx = ecx ∧ c.popad.reg .eax = eax :=
  ⟨h.dropWords he rfl rfl, h.word 0 (by simp), h.word 1 (by simp), h.word 2 (by simp), h.word 4 (by simp),
    h.word 5 (by simp), h.word 6 (by simp), h.word 7 (by simp)⟩

/-- `iretd` takes its frame from the stack. -/
theorem iretd {eip cs eflags ss : BitVec 32} (h : Stack e m ([eip, cs, eflags, esp, ss] ++ ws) c) :
    c.iretd.eip = eip ∧ c.iretd.cs = cs ∧ c.iretd.eflags = eflags ∧ c.iretd.reg .esp = esp ∧ c.iretd.ss = ss :=
  ⟨h.word 0 (by simp), h.word 1 (by simp), h.word 2 (by simp), h.word 3 (by simp), h.word 4 (by simp)⟩

end Stack

/-- The stack pointer of `c` is `n`, and memory below `lo` is that of `m`. -/
structure Above (lo n : Nat) (m : Mem) (c : Cpu) : Prop where
  esp : (c.reg .esp).toNat = n
  below : ∀ a, a < lo → c.mem a = m a

namespace Above

variable {lo n : Nat} {m : Mem} {c d : Cpu}

theorem congr (h : Above lo n m c) (hesp : d.reg .esp = c.reg .esp) (hmem : d.mem = c.mem) : Above lo n m d :=
  ⟨by rw [hesp]; exact h.esp, by rw [hmem]; exact h.below⟩

theorem push (h : Above lo n m c) (v : BitVec 32) (hroom : lo + 4 ≤ n) : Above lo (n - 4) m (c.push v) := by
  have hesp : (c.reg .esp - 4).toNat = n - 4 := by
    rw [Stack.push_esp (by rw [h.esp]; omega), h.esp]
  refine ⟨hesp, fun a ha => ?_⟩
  show store32 c.mem (c.reg .esp - 4).toNat v a = _
  rw [store32_of_outside (by omega)]
  exact h.below a ha

/-- Several words, the last of the list first. -/
theorem pushAll (h : Above lo n m c) (vs : List (BitVec 32)) (k : Nat) (hlen : vs.length = k)
    (hroom : lo + 4 * k ≤ n) : Above lo (n - 4 * k) m (vs.foldr (fun v c => c.push v) c) := by
  induction vs generalizing k with
  | nil =>
      subst hlen
      exact h
  | cons v vs ih =>
      rw [List.length_cons] at hlen
      subst hlen
      rw [show n - 4 * (vs.length + 1) = n - 4 * vs.length - 4 by omega]
      exact (ih _ rfl (by omega)).push v (by omega)

end Above

section Push

variable {alu : BitVec 32 → BitVec 32 → BitVec 32 → BitVec 32} {c : Cpu} {r : Reg}

theorem exec_push_reg {src : Reg} (hr : r ≠ .esp) : (exec alu (.push src) c).reg r = c.reg r := by
  simp only [exec, Cpu.push, Cpu.set, Function.update_of_ne hr]

theorem exec_pushad_reg (hr : r ≠ .esp) : (exec alu .pushad c).reg r = c.reg r := by
  simp only [exec, Cpu.pushad, Cpu.push, Cpu.set, Function.update_of_ne hr]

end Push

theorem Cpu.iretd_reg {c : Cpu} {r : Reg} (hr : r ≠ .esp) : c.iretd.reg r = c.reg r := Function.update_of_ne hr _ _

end X86
