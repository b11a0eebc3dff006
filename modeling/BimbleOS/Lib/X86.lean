import BimbleOS.Lib.Bytes

/-!
# `Lib.X86` — a subset of the 32-bit x86

The registers, the flags and the stack instructions that interrupt entry and return code uses.
Instructions sit at consecutive code addresses, one address each; memory is flat and byte addressed.
What arithmetic does to the flags is a parameter, since only `pushf` and `iretd` move flags as data.
-/

namespace X86

open Bytes

/-- The general purpose registers. -/
inductive Reg where
  | eax | ecx | edx | ebx | esp | ebp | esi | edi
  deriving DecidableEq, Repr

/-- The data segment registers. -/
inductive Seg where
  | ds | es | fs | gs
  deriving DecidableEq, Repr

structure Cpu where
  reg : Reg → BitVec 32
  seg : Seg → BitVec 16
  cs : BitVec 32
  ss : BitVec 32
  eflags : BitVec 32
  eip : BitVec 32
  mem : Mem

inductive Instr where
  /-- `mov dst, src` -/
  | mov (dst src : Reg)
  /-- `mov dst, [base+disp]` -/
  | load (dst base : Reg) (disp : Nat)
  /-- `mov ax, [base+disp]` -/
  | loadAx (base : Reg) (disp : Nat)
  /-- `mov seg, ax` -/
  | movSeg (seg : Seg)
  /-- `push src` -/
  | push (src : Reg)
  /-- `push dword [base+disp]` -/
  | pushMem (base : Reg) (disp : Nat)
  /-- `push dword imm` -/
  | pushImm (imm : BitVec 32)
  | pushf
  | pushad
  /-- `pop dst` -/
  | pop (dst : Reg)
  /-- `or dst, imm` -/
  | orImm (dst : Reg) (imm : BitVec 32)
  /-- `add dst, imm` -/
  | addImm (dst : Reg) (imm : BitVec 32)
  | call (target : BitVec 32)
  | ret
  | iretd
  deriving DecidableEq, Repr

namespace Cpu

def set (c : Cpu) (r : Reg) (v : BitVec 32) : Cpu := { c with reg := Function.update c.reg r v }

/-- The effective address `[base+disp]`. -/
def addr (c : Cpu) (base : Reg) (disp : Nat) : Nat := (c.reg base + BitVec.ofNat 32 disp).toNat

/-- Push a dword. -/
def push (c : Cpu) (v : BitVec 32) : Cpu :=
  { c.set .esp (c.reg .esp - 4) with mem := store32 c.mem (c.reg .esp - 4).toNat v }

/-- The dword on top of the stack. -/
def top (c : Cpu) : BitVec 32 := load32 c.mem (c.reg .esp).toNat

/-- `esp` after popping a dword. -/
def drop (c : Cpu) : Cpu := c.set .esp (c.reg .esp + 4)

/-- `pushad`: the eight registers, `esp` as it was before. -/
def pushad (c : Cpu) : Cpu :=
  (((((((c.push (c.reg .eax)).push (c.reg .ecx)).push (c.reg .edx)).push (c.reg .ebx)).push
    (c.reg .esp)).push (c.reg .ebp)).push (c.reg .esi)).push (c.reg .edi)

/-- `iretd` to an outer privilege level: `eip`, `cs`, `eflags`, `esp` and `ss` come from the stack. -/
def iretd (c : Cpu) : Cpu :=
  let a := (c.reg .esp).toNat
  { c.set .esp (load32 c.mem (a + 12)) with
    eip := load32 c.mem a
    cs := load32 c.mem (a + 4)
    eflags := load32 c.mem (a + 8)
    ss := load32 c.mem (a + 16) }

/-- An interrupt that arrives at an outer privilege level: the stack becomes the one at `esp0`, the
    interrupted `ss`, `esp`, `eflags`, `cs` and `eip` are pushed, and `TF`, `IF`, `NT`, `RF` and `VM`
    are cleared. -/
def interrupt (c : Cpu) (handler esp0 ss0 cs0 : BitVec 32) : Cpu :=
  let k := (((({ c.set .esp esp0 with ss := ss0 }.push c.ss).push (c.reg .esp)).push c.eflags).push
    c.cs).push c.eip
  { k with cs := cs0, eip := handler, eflags := c.eflags &&& ~~~0x34300#32 }

/-- `pushf` pushes the flags without `RF` and `VM`. -/
def flagsImage (c : Cpu) : BitVec 32 := c.eflags &&& 0xFCFFFF#32

end Cpu

/-- One instruction. `alu` gives the flags after an arithmetic instruction from the flags before, the
    operands and the result. -/
def exec (alu : BitVec 32 → BitVec 32 → BitVec 32 → BitVec 32) (i : Instr) (c : Cpu) : Cpu :=
  let next := { c with eip := c.eip + 1 }
  match i with
  | .mov dst src => next.set dst (c.reg src)
  | .load dst base disp => next.set dst (load32 c.mem (c.addr base disp))
  | .loadAx base disp =>
      next.set .eax ((c.reg .eax &&& 0xFFFF0000#32)
        ||| (load16 c.mem (c.addr base disp)).setWidth 32)
  | .movSeg seg => { next with seg := Function.update c.seg seg ((c.reg .eax).setWidth 16) }
  | .push src => next.push (c.reg src)
  | .pushMem base disp => next.push (load32 c.mem (c.addr base disp))
  | .pushImm imm => next.push imm
  | .pushf => next.push c.flagsImage
  | .pushad => next.pushad
  | .pop dst => next.drop.set dst c.top
  | .orImm dst imm =>
      { next.set dst (c.reg dst ||| imm) with eflags := alu c.eflags (c.reg dst) imm }
  | .addImm dst imm =>
      { next.set dst (c.reg dst + imm) with eflags := alu c.eflags (c.reg dst) imm }
  | .call target => { next.push next.eip with eip := target }
  | .ret => { c.drop with eip := c.top }
  | .iretd => c.iretd

/-- Run from `c` up to and including the next `iretd`. -/
def runToIret (alu : BitVec 32 → BitVec 32 → BitVec 32 → BitVec 32) (code : List Instr) :
    Nat → Cpu → Option Cpu
  | 0, _ => none
  | fuel + 1, c =>
      match code[c.eip.toNat]? with
      | none => none
      | some .iretd => some c.iretd
      | some i => runToIret alu code fuel (exec alu i c)

/-! ## Straight-line code -/

/-- The instructions after which execution goes on with the next one. -/
def Instr.straight : Instr → Bool
  | .call _ | .ret | .iretd => false
  | _ => true

section Run

variable {alu : BitVec 32 → BitVec 32 → BitVec 32 → BitVec 32} {code : List Instr} {i : Instr} {c : Cpu}
  {fuel : Nat}

theorem runToIret_step (hi : code[c.eip.toNat]? = some i) (hne : i ≠ .iretd) :
    runToIret alu code (fuel + 1) c = runToIret alu code fuel (exec alu i c) := by
  cases i <;> first | exact absurd rfl hne | simp only [runToIret, hi]

theorem runToIret_iretd (hi : code[c.eip.toNat]? = some .iretd) :
    runToIret alu code (fuel + 1) c = some c.iretd := by
  simp only [runToIret, hi]

theorem exec_eip (h : i.straight = true) : (exec alu i c).eip = c.eip + 1 := by
  cases i <;> first | rfl | exact absurd h Bool.false_ne_true

/-- A block of straight-line instructions runs to its end. -/
theorem runToIret_block (is : List Instr) (n : Nat) (hn : c.eip.toNat = n) (hlen : n + is.length < 2 ^ 32)
    (hcode : ∀ k, (h : k < is.length) → code[n + k]? = some is[k])
    (hstraight : ∀ i ∈ is, i.straight = true) :
    runToIret alu code (fuel + is.length) c
      = runToIret alu code fuel (is.foldl (fun c i => exec alu i c) c) := by
  induction is generalizing c n with
  | nil => rfl
  | cons i is ih =>
      have hi : i.straight = true := hstraight i List.mem_cons_self
      have hstep : code[c.eip.toNat]? = some i := by
        rw [hn]; exact hcode 0 (Nat.zero_lt_succ _)
      have hne : i ≠ .iretd := by rintro rfl; exact absurd hi Bool.false_ne_true
      rw [List.length_cons] at hlen
      have heip : (exec alu i c).eip.toNat = n + 1 := by
        have h1 : (1 : BitVec 32).toNat = 1 := rfl
        rw [exec_eip hi, BitVec.toNat_add, hn, h1]
        exact Nat.mod_eq_of_lt (by omega)
      rw [List.length_cons, ← Nat.add_assoc, runToIret_step hstep hne]
      refine ih (n + 1) heip (by omega) (fun k hk => ?_) (fun j hj => hstraight j (List.mem_cons_of_mem _ hj))
      have hnext := hcode (k + 1) (by rw [List.length_cons]; omega)
      rw [Nat.add_assoc, Nat.add_comm 1 k]
      exact hnext

end Run

/-! ## The stack -/

/-- The stack of `c` holds the words `ws` (top first) below the address `e`, and memory from `e` on is
    that of `m`. -/
structure Stack (e : Nat) (m : Mem) (ws : List (BitVec 32)) (c : Cpu) : Prop where
  esp : (c.reg .esp).toNat + 4 * ws.length = e
  word : ∀ k, (h : k < ws.length) → load32 c.mem ((c.reg .esp).toNat + 4 * k) = ws[k]
  above : ∀ a, e ≤ a → c.mem a = m a

namespace Stack

variable {e : Nat} {m : Mem} {ws : List (BitVec 32)} {v : BitVec 32} {c c' : Cpu}

/-- The empty stack at the current `esp`. -/
theorem start (c : Cpu) : Stack (c.reg .esp).toNat c.mem [] c where
  esp := rfl
  word := fun _ h => absurd h (Nat.not_lt_zero _)
  above := fun _ _ => rfl

theorem congr (h : Stack e m ws c) (hesp : c'.reg .esp = c.reg .esp) (hmem : c'.mem = c.mem) :
    Stack e m ws c' where
  esp := by rw [hesp]; exact h.esp
  word := by rw [hesp, hmem]; exact h.word
  above := by rw [hmem]; exact h.above

/-- A load at or above the base of the stack. -/
theorem load_above (h : Stack e m ws c) {a : Nat} (ha : e ≤ a) : load32 c.mem a = load32 m a :=
  load32_congr fun i _ => h.above (a + i) (by omega)

theorem push_esp (hroom : 4 ≤ (c.reg .esp).toNat) :
    (c.reg .esp - 4).toNat = (c.reg .esp).toNat - 4 := by
  rw [BitVec.toNat_sub_of_le (by rw [BitVec.le_def]; exact hroom)]
  rfl

theorem push (h : Stack e m ws c) (v : BitVec 32) (hroom : 4 * (ws.length + 1) ≤ e) :
    Stack e m (v :: ws) (c.push v) := by
  have hbase := h.esp
  have hge : 4 ≤ (c.reg .esp).toNat := by omega
  have hesp : ((c.push v).reg .esp).toNat = (c.reg .esp).toNat - 4 := push_esp hge
  have hmem : (c.push v).mem = store32 c.mem ((c.reg .esp).toNat - 4) v := by
    show store32 c.mem (c.reg .esp - 4).toNat v = _
    rw [push_esp hge]
  refine ⟨?_, ?_, ?_⟩
  · rw [hesp, List.length_cons]; omega
  · intro k hk
    rw [hesp, hmem]
    cases k with
    | zero => exact load32_store32
    | succ k =>
        rw [load32_store32_of_apart (by omega),
          show (c.reg .esp).toNat - 4 + 4 * (k + 1) = (c.reg .esp).toNat + 4 * k by omega]
        exact h.word k (by rw [List.length_cons] at hk; omega)
  · intro a ha
    rw [hmem, store32_of_outside (by omega)]
    exact h.above a ha

/-- Push several words, the last of the list first. -/
theorem pushAll (h : Stack e m ws c) (vs : List (BitVec 32)) (hroom : 4 * (vs.length + ws.length) ≤ e) :
    Stack e m (vs ++ ws) (vs.foldr (fun v c => c.push v) c) := by
  induction vs with
  | nil => exact h
  | cons v vs ih =>
      rw [List.length_cons] at hroom
      refine (ih (by omega)).push v ?_
      rw [List.length_append]
      omega

theorem top (h : Stack e m (v :: ws) c) : c.top = v := h.word 0 (Nat.zero_lt_succ _)

theorem drop (h : Stack e m (v :: ws) c) (he : e < 2 ^ 32) : Stack e m ws c.drop := by
  have hbase := h.esp
  rw [List.length_cons] at hbase
  have hesp : (c.drop.reg .esp).toNat = (c.reg .esp).toNat + 4 := by
    have h4 : (4 : BitVec 32).toNat = 4 := rfl
    show (c.reg .esp + 4).toNat = _
    rw [BitVec.toNat_add, h4]
    exact Nat.mod_eq_of_lt (by omega)
  refine ⟨by rw [hesp]; omega, fun k hk => ?_, h.above⟩
  rw [hesp, show (c.reg .esp).toNat + 4 + 4 * k = (c.reg .esp).toNat + 4 * (k + 1) by omega]
  exact h.word (k + 1) (by rw [List.length_cons]; omega)

/-! The stack instructions. -/

section Exec

variable (alu : BitVec 32 → BitVec 32 → BitVec 32 → BitVec 32) (h : Stack e m ws c)
include h

theorem exec_push (src : Reg) (hroom : 4 * (ws.length + 1) ≤ e) :
    Stack e m (c.reg src :: ws) (exec alu (.push src) c) :=
  (h.push _ hroom).congr rfl rfl

theorem exec_pushImm (imm : BitVec 32) (hroom : 4 * (ws.length + 1) ≤ e) :
    Stack e m (imm :: ws) (exec alu (.pushImm imm) c) :=
  (h.push _ hroom).congr rfl rfl

theorem exec_pushMem (base : Reg) (disp : Nat) (hroom : 4 * (ws.length + 1) ≤ e) :
    Stack e m (load32 c.mem (c.addr base disp) :: ws) (exec alu (.pushMem base disp) c) :=
  (h.push _ hroom).congr rfl rfl

theorem exec_pushf (hroom : 4 * (ws.length + 1) ≤ e) :
    Stack e m (c.flagsImage :: ws) (exec alu .pushf c) :=
  (h.push _ hroom).congr rfl rfl

theorem exec_call (target : BitVec 32) (hroom : 4 * (ws.length + 1) ≤ e) :
    Stack e m ((c.eip + 1) :: ws) (exec alu (.call target) c) :=
  (h.push _ hroom).congr rfl rfl

theorem exec_pushad (hroom : 4 * (8 + ws.length) ≤ e) :
    Stack e m ([c.reg .edi, c.reg .esi, c.reg .ebp, c.reg .esp, c.reg .ebx, c.reg .edx, c.reg .ecx,
      c.reg .eax] ++ ws) (exec alu .pushad c) :=
  pushAll (h.congr rfl rfl : Stack e m ws { c with eip := c.eip + 1 }) _ hroom

end Exec

/-- The frame the processor pushes when an interrupt arrives. -/
theorem interrupt (c : Cpu) (handler esp0 ss0 cs0 : BitVec 32) (hroom : 4 * (5 + 0) ≤ esp0.toNat) :
    Stack esp0.toNat c.mem [c.eip, c.cs, c.eflags, c.reg .esp, c.ss]
      (c.interrupt handler esp0 ss0 cs0) :=
  ((start { c.set .esp esp0 with ss := ss0 }).pushAll [c.eip, c.cs, c.eflags, c.reg .esp, c.ss]
    hroom).congr rfl rfl

end Stack

/-- The effective address when nothing wraps. -/
theorem Cpu.addr_eq {c : Cpu} {base : Reg} {disp a : Nat} (hbase : (c.reg base).toNat = a)
    (hlt : a + disp < 2 ^ 32) : c.addr base disp = a + disp := by
  unfold Cpu.addr
  rw [BitVec.toNat_add, hbase, BitVec.toNat_ofNat, Nat.mod_eq_of_lt (by omega : disp < 2 ^ 32)]
  exact Nat.mod_eq_of_lt hlt

end X86
