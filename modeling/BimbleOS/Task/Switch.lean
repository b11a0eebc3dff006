import BimbleOS.Config
import BimbleOS.Lib.Paged

/-!
# `Task.Switch` — saving a task at an interrupt and resuming it

The save path is the interrupt stub of `idt.asm`, `interrupt_handler` and `task_save_state`; the resume
path is `task_return` of `task.asm`. Saving keeps every register of the interrupted task. Resuming
gives back all of them except two: `ebp` ends up as the kernel's own stack pointer, since
`restore_general_purpose_registers` pops its saved `ebp` over the one it has just loaded, and the flags
are the kernel's, since `task_return` pushes `eflags` of the moment instead of the saved ones.

Both paths run with a page directory of a task loaded: the interrupt finds that of the running task, and `task_switch`
loads that of the next one before `task_return` reads its registers. The kernel can only run there if the directory maps
its own pages to themselves, and the task gets the registers that its directory shows where its structure is.
-/

namespace BimbleOS

open Bytes X86

/-! ## The code -/

/-- `task_return`, followed by `restore_general_purpose_registers`. -/
def taskAsm : List Instr := [
  -- 0: task_return
  .mov .ebp .esp,
  .load .ebx .ebp 4,
  .pushMem .ebx 44,
  .pushMem .ebx 40,
  .pushf,
  .pop .eax,
  .orImm .eax 0x200,
  .push .eax,
  .pushMem .ebx 32,
  .pushMem .ebx 28,
  .loadAx .ebx 44,
  .movSeg .ds,
  .movSeg .es,
  .movSeg .fs,
  .movSeg .gs,
  .pushMem .ebp 4,
  .call 19,
  .addImm .esp 4,
  .iretd,
  -- 19: restore_general_purpose_registers
  .push .ebp,
  .mov .ebp .esp,
  .load .ebx .ebp 8,
  .load .edi .ebx 0,
  .load .esi .ebx 4,
  .load .ebp .ebx 8,
  .load .edx .ebx 16,
  .load .ecx .ebx 20,
  .load .eax .ebx 24,
  .load .ebx .ebx 12,
  .pop .ebp,
  .ret]

/-- The fields of `struct Registers`, in its order. -/
inductive SavedReg where
  | edi | esi | ebp | ebx | edx | ecx | eax | ip | cs | flags | esp | ss
  deriving DecidableEq, Repr

/-- Offset in `struct Registers`. -/
def SavedReg.inRegisters : SavedReg → Nat
  | .edi => 0 | .esi => 4 | .ebp => 8 | .ebx => 12 | .edx => 16 | .ecx => 20
  | .eax => 24 | .ip => 28 | .cs => 32 | .flags => 36 | .esp => 40 | .ss => 44

/-- Offset in `struct InterruptFrame`, where `reserved` sits at 12. -/
def SavedReg.inFrame : SavedReg → Nat
  | .edi => 0 | .esi => 4 | .ebp => 8 | .ebx => 16 | .edx => 20 | .ecx => 24
  | .eax => 28 | .ip => 32 | .cs => 36 | .flags => 40 | .esp => 44 | .ss => 48

/-- Offset of `registers` in `struct Task`, behind `process` and `page_directory`. -/
def taskRegisters : Nat := 8

/-- One assignment of `task_save_state`. -/
def saveField (regs frame : Nat) (m : Mem) (f : SavedReg) : Mem :=
  store32 m (regs + f.inRegisters) (load32 m (frame + f.inFrame))

/-- `task_save_state`: the fields in the order the source assigns them. -/
def taskSaveState (m : Mem) (task frame : Nat) : Mem :=
  [.ip, .cs, .flags, .esp, .ss, .eax, .ebp, .ebx, .ecx, .edi, .edx, .esi].foldl
    (saveField (task + taskRegisters) frame) m

/-- The interrupts `idt_init` and the keyboard driver register a callback for. -/
def interruptCallbacks (interrupt : Nat) : Bool := interrupt ≤ 0x21

/-- `interrupt_handler` up to the callback: the current task is saved. -/
def interruptHandler (m : Mem) (currentTask : Nat) (interrupt frame : BitVec 32) : Mem :=
  if interruptCallbacks interrupt.toNat then taskSaveState m currentTask frame.toNat else m

/-- The interrupt stub of vector `n`, up to the call of `interrupt_handler`. -/
def interruptStub (n : BitVec 32) : List Instr := [.pushad, .push .esp, .pushImm n]

/-- The timer's vector. -/
def timerVector : BitVec 32 := 0x20

section Interrupt

variable (alu : BitVec 32 → BitVec 32 → BitVec 32 → BitVec 32)

/-- The stub at work on a CPU that was interrupted in user mode. -/
def interruptEntry (u : Cpu) (n : BitVec 32) : Cpu :=
  (interruptStub n).foldl (fun c i => exec alu i c)
    (u.interrupt 0 (BitVec.ofNat 32 tssEsp0) (BitVec.ofNat 32 kernalDataSelector)
      (BitVec.ofNat 32 kernalCodeSelector))

variable (own : List Nat)

/-- Memory after a timer interrupt has saved the running task. The stub runs with the directory `d` that is loaded;
    `interrupt_handler` loads the kernel's and takes the vector and the frame pointer from the stack. -/
def timerInterrupt (d : PageFrames) (u : Cpu) (task : Nat) : Option Mem :=
  (u.under own d fun c => some (interruptEntry alu c timerVector)).map fun c =>
    interruptHandler c.mem task c.top (load32 c.mem (c.addr .esp 4))

/-- What happens to memory while the task does not run: other tasks are interrupted and saved, and
    everything else that runs leaves the register structure of this task alone. -/
inductive Between (task : Nat) : Mem → Mem → Prop where
  | start (m : Mem) : Between task m m
  | timer {m m' : Mem} {d : PageFrames} {u : Cpu} {other : Nat} (hb : Between task m u.mem)
      (hsaved : timerInterrupt alu own d u other = some m') (hheap : bimbleosHeapAddress ≤ other)
      (hapart : other + 64 ≤ task ∨ task + 64 ≤ other) : Between task m m'
  | run {m m₁ m₂ : Mem} (hb : Between task m m₁)
      (hkeep : ∀ a, task + taskRegisters ≤ a → a < task + taskRegisters + 48 → m₂ a = m₁ a) :
      Between task m m₂

end Interrupt

/-- The call `task_return(&task->registers)`, which leaves `back` as its return address. -/
def callTaskReturn (k : Cpu) (task : Nat) (back : BitVec 32) : Cpu :=
  { (k.push (BitVec.ofNat 32 (task + taskRegisters))).push back with eip := 0 }

/-- `task_next` from `task_switch` on: the directory `d` of the task is loaded, and `task_return` is called. Where the
    structure of the task is not on present pages, a page fault is all there is. -/
def enterTask (alu : BitVec 32 → BitVec 32 → BitVec 32 → BitVec 32) (own : List Nat) (d : PageFrames) (k : Cpu)
    (task : Nat) (back : BitVec 32) : Option Cpu :=
  if d.Present (task + taskRegisters) 48 then
    k.under own d fun k => runToIret alu taskAsm 31 (callTaskReturn k task back)
  else none

/-- The page right below `tss.esp0`, in which the kernel's stack begins. -/
def kernelStackPage : Nat := 0x5FF

/-- The kernel's stack has room for sixteen words, on its own pages. -/
structure KernelStack (own : List Nat) (k : Cpu) : Prop where
  base : kernelStackPage ∈ own
  room : 64 ≤ (k.reg .esp).toNat
  top : (k.reg .esp).toNat ≤ tssEsp0
  own : ∀ i < 64, ((k.reg .esp).toNat - 64 + i) / 4096 ∈ own

/-- `CF`, `PF`, `AF`, `ZF`, `SF` and `OF` of `eflags`. -/
def arithmeticFlags : BitVec 32 := 0x8D5

/-! ## Saving -/

/-- The value of a field in the interrupted CPU. -/
def userReg (u : Cpu) : SavedReg → BitVec 32
  | .edi => u.reg .edi | .esi => u.reg .esi | .ebp => u.reg .ebp | .ebx => u.reg .ebx
  | .edx => u.reg .edx | .ecx => u.reg .ecx | .eax => u.reg .eax | .esp => u.reg .esp
  | .ip => u.eip | .cs => u.cs | .flags => u.eflags | .ss => u.ss

/-- The field of a saved task. -/
def savedReg (m : Mem) (task : Nat) (f : SavedReg) : BitVec 32 :=
  load32 m (task + taskRegisters + f.inRegisters)

theorem SavedReg.inRegisters_apart {f g : SavedReg} (h : f ≠ g) :
    f.inRegisters + 4 ≤ g.inRegisters ∨ g.inRegisters + 4 ≤ f.inRegisters := by
  cases f <;> cases g <;> first | exact absurd rfl h | decide

theorem SavedReg.inRegisters_lt (f : SavedReg) : f.inRegisters + 4 ≤ 48 := by
  cases f <;> decide

theorem SavedReg.inFrame_lt (f : SavedReg) : f.inFrame + 4 ≤ 52 := by
  cases f <;> decide

section Save

variable {regs frame : Nat}

/-- The assignments write only into the register structure. -/
theorem saveFields_outside (fs : List SavedReg) (m : Mem) {a : Nat} (ha : a < regs ∨ regs + 48 ≤ a) :
    fs.foldl (saveField regs frame) m a = m a := by
  induction fs generalizing m with
  | nil => rfl
  | cons f fs ih =>
      rw [List.foldl_cons, ih]
      have hf := f.inRegisters_lt
      exact store32_of_outside (by omega)

theorem saveFields_of_not_mem (fs : List SavedReg) (m : Mem) {f : SavedReg} (hf : f ∉ fs) :
    load32 (fs.foldl (saveField regs frame) m) (regs + f.inRegisters)
      = load32 m (regs + f.inRegisters) := by
  induction fs generalizing m with
  | nil => rfl
  | cons g fs ih =>
      obtain ⟨hne, hnot⟩ := not_or.mp (fun h => hf (List.mem_cons.mpr h))
      rw [List.foldl_cons, ih _ hnot]
      rcases SavedReg.inRegisters_apart hne with h | h
      · exact load32_store32_of_apart (Or.inl (by omega))
      · exact load32_store32_of_apart (Or.inr (by omega))

/-- Each assignment copies its field, as long as the structure and the frame do not overlap. -/
theorem saveFields_of_mem (hapart : regs + 48 ≤ frame ∨ frame + 52 ≤ regs) (fs : List SavedReg)
    (m : Mem) (hnodup : fs.Nodup) {f : SavedReg} (hf : f ∈ fs) :
    load32 (fs.foldl (saveField regs frame) m) (regs + f.inRegisters)
      = load32 m (frame + f.inFrame) := by
  induction fs generalizing m with
  | nil => exact absurd hf List.not_mem_nil
  | cons g fs ih =>
      obtain ⟨hnot, hnodup⟩ := List.nodup_cons.mp hnodup
      rw [List.foldl_cons]
      rcases List.mem_cons.mp hf with rfl | hf
      · rw [saveFields_of_not_mem _ _ hnot]
        exact load32_store32
      · rw [ih _ hnodup hf]
        have hg := g.inRegisters_lt
        have hf' := f.inFrame_lt
        exact load32_store32_of_apart (by omega)

end Save

/-- `task_save_state` copies every field. -/
theorem savedReg_taskSaveState {m : Mem} {task frame : Nat}
    (hapart : task + taskRegisters + 48 ≤ frame ∨ frame + 52 ≤ task + taskRegisters) (f : SavedReg) :
    savedReg (taskSaveState m task frame) task f = load32 m (frame + f.inFrame) :=
  saveFields_of_mem hapart _ m (by decide) (by cases f <;> decide)

theorem taskSaveState_outside {m : Mem} {task frame a : Nat}
    (ha : a < task + taskRegisters ∨ task + taskRegisters + 48 ≤ a) :
    taskSaveState m task frame a = m a :=
  saveFields_outside _ m ha

/-- `task_save_state` through the frame pointer that is the second argument of the handler: the task gets the registers
    in the frame, which is on top of the kernel's stack below the two arguments. -/
theorem savedReg_frame {u c : Cpu} {m : Mem} {argument frame esp : BitVec 32} {task : Nat}
    (hframe : frame.toNat = tssEsp0 - 52) (hstack : Stack tssEsp0 m [argument, frame, u.reg .edi, u.reg .esi,
      u.reg .ebp, esp, u.reg .ebx, u.reg .edx, u.reg .ecx, u.reg .eax, u.eip, u.cs, u.eflags, u.reg .esp, u.ss] c)
    (htask : bimbleosHeapAddress ≤ task) (f : SavedReg) :
    savedReg (taskSaveState c.mem task (load32 c.mem (c.addr .esp 4)).toNat) task f = userReg u f := by
  have hesp : (c.reg .esp).toNat + 4 * 15 = tssEsp0 := hstack.esp
  have hword : ∀ k, (h : k < 15) → load32 c.mem ((c.reg .esp).toNat + 4 * k) = _ := hstack.word
  have hheap : tssEsp0 + 0 ≤ bimbleosHeapAddress := by decide
  have harg : load32 c.mem (c.addr .esp 4) = frame := by
    rw [Cpu.addr_eq rfl (by unfold tssEsp0 at hesp; omega)]
    exact hword 1 (by decide)
  rw [harg, savedReg_taskSaveState (Or.inr (by omega)), hframe]
  -- the frame's `k`-th dword lies two dwords above the arguments
  have hread : ∀ k, load32 c.mem (tssEsp0 - 52 + 4 * k)
      = load32 c.mem ((c.reg .esp).toNat + 4 * (k + 2)) := by
    intro k
    rw [show tssEsp0 - 52 + 4 * k = (c.reg .esp).toNat + 4 * (k + 2) by unfold tssEsp0 at hesp ⊢; omega]
  cases f with
  | edi => exact (hread 0).trans (hword 2 (by decide))
  | esi => exact (hread 1).trans (hword 3 (by decide))
  | ebp => exact (hread 2).trans (hword 4 (by decide))
  | ebx => exact (hread 4).trans (hword 6 (by decide))
  | edx => exact (hread 5).trans (hword 7 (by decide))
  | ecx => exact (hread 6).trans (hword 8 (by decide))
  | eax => exact (hread 7).trans (hword 9 (by decide))
  | ip => exact (hread 8).trans (hword 10 (by decide))
  | cs => exact (hread 9).trans (hword 11 (by decide))
  | flags => exact (hread 10).trans (hword 12 (by decide))
  | esp => exact (hread 11).trans (hword 13 (by decide))
  | ss => exact (hread 12).trans (hword 14 (by decide))

/-- What the stub leaves on the kernel stack: the arguments of `interrupt_handler`, then the frame. -/
theorem interruptEntry_stack (alu : BitVec 32 → BitVec 32 → BitVec 32 → BitVec 32) (u : Cpu)
    (n : BitVec 32) : ∃ frame esp : BitVec 32, frame.toNat = tssEsp0 - 52 ∧ Stack tssEsp0 u.mem
      [n, frame, u.reg .edi, u.reg .esi, u.reg .ebp, esp, u.reg .ebx, u.reg .edx, u.reg .ecx,
        u.reg .eax, u.eip, u.cs, u.eflags, u.reg .esp, u.ss] (interruptEntry alu u n) := by
  unfold interruptEntry interruptStub
  have hint := Stack.interrupt u 0 (BitVec.ofNat 32 tssEsp0) (BitVec.ofNat 32 kernalDataSelector)
    (BitVec.ofNat 32 kernalCodeSelector) (by decide)
  have hreg : ∀ r, r ≠ .esp → (u.interrupt 0 (BitVec.ofNat 32 tssEsp0)
      (BitVec.ofNat 32 kernalDataSelector) (BitVec.ofNat 32 kernalCodeSelector)).reg r = u.reg r := by
    intro r hr
    simp only [Cpu.interrupt, Cpu.push, Cpu.set, Function.update_of_ne hr]
  generalize u.interrupt 0 (BitVec.ofNat 32 tssEsp0) (BitVec.ofNat 32 kernalDataSelector)
    (BitVec.ofNat 32 kernalCodeSelector) = c₁ at hint hreg
  have hpushad := hint.exec_pushad alu (by decide : 4 * (8 + 5) ≤ tssEsp0)
  generalize hc₂ : exec alu .pushad c₁ = c₂ at hpushad
  have hpush := (hpushad.exec_push alu .esp (by decide : 4 * (13 + 1) ≤ tssEsp0)).exec_pushImm
    alu n (by decide : 4 * (14 + 1) ≤ tssEsp0)
  refine ⟨c₂.reg .esp, c₁.reg .esp, ?_, ?_⟩
  · have hesp : (c₂.reg .esp).toNat + 4 * 13 = tssEsp0 := hpushad.esp
    omega
  · rw [hreg .edi (by decide), hreg .esi (by decide), hreg .ebp (by decide), hreg .ebx (by decide),
      hreg .edx (by decide), hreg .ecx (by decide), hreg .eax (by decide)] at hpush
    show Stack tssEsp0 _ _ (exec alu (.pushImm n) (exec alu (.push .esp) (exec alu .pushad c₁)))
    rw [hc₂]
    exact hpush

/-- Fifteen words from the top of the kernel's stack are on its first page. -/
theorem onStackPage {own : List Nat} {c : Cpu} (hstack : kernelStackPage ∈ own)
    (hesp : (c.reg .esp).toNat + 4 * 15 = tssEsp0) {a : Nat} (hlo : (c.reg .esp).toNat ≤ a) (hhi : a < tssEsp0) :
    a / 4096 ∈ own := by
  have hpage : a / 4096 = kernelStackPage := by
    unfold tssEsp0 at hesp hhi
    unfold kernelStackPage
    omega
  exact hpage ▸ hstack

/-- What the stub leaves in memory when it has run with the directory of the running task. -/
theorem timerInterrupt_stack {alu : BitVec 32 → BitVec 32 → BitVec 32 → BitVec 32} {own : List Nat} {d : PageFrames}
    {u : Cpu} {task : Nat} {m : Mem} (hsaved : timerInterrupt alu own d u task = some m)
    (hstack : kernelStackPage ∈ own) : ∃ (c : Cpu) (frame esp : BitVec 32), frame.toNat = tssEsp0 - 52 ∧
      Stack tssEsp0 u.mem [timerVector, frame, u.reg .edi, u.reg .esi, u.reg .ebp, esp, u.reg .ebx, u.reg .edx,
        u.reg .ecx, u.reg .eax, u.eip, u.cs, u.eflags, u.reg .esp, u.ss] c ∧
      interruptHandler c.mem task c.top (load32 c.mem (c.addr .esp 4)) = m := by
  obtain ⟨c, hrun, hm⟩ := Option.map_eq_some_iff.mp hsaved
  obtain ⟨howns, c₁, hentry, rfl⟩ := Cpu.under_eq_some.mp hrun
  obtain rfl := Option.some.inj hentry
  obtain ⟨frame, esp, hframe, hseen⟩ := interruptEntry_stack alu { u with mem := d.see u.mem } timerVector
  have hesp : ((interruptEntry alu { u with mem := d.see u.mem } timerVector).reg .esp).toNat + 4 * 15 = tssEsp0 :=
    hseen.esp
  exact ⟨_, frame, esp, hframe, hseen.under howns fun _ hlo hhi => onStackPage hstack hesp hlo hhi, hm⟩

section Saved

variable {alu : BitVec 32 → BitVec 32 → BitVec 32 → BitVec 32} {own : List Nat} {d : PageFrames} {u : Cpu}
  {task : Nat} {m : Mem}

/-- **Saving a task.** After a timer interrupt its structure holds the registers it was interrupted
    with. -/
theorem savedReg_timerInterrupt (hsaved : timerInterrupt alu own d u task = some m) (hstack : kernelStackPage ∈ own)
    (htask : bimbleosHeapAddress ≤ task) (f : SavedReg) : savedReg m task f = userReg u f := by
  obtain ⟨c, frame, esp, hframe, hstack, rfl⟩ := timerInterrupt_stack hsaved hstack
  rw [hstack.top]
  exact savedReg_frame hframe hstack htask f

/-- A timer interrupt writes only the kernel stack and the structure of the running task. -/
theorem timerInterrupt_outside (hsaved : timerInterrupt alu own d u task = some m) (hstack : kernelStackPage ∈ own)
    {a : Nat} (hstackTop : tssEsp0 ≤ a) (ha : a < task + taskRegisters ∨ task + taskRegisters + 48 ≤ a) :
    m a = u.mem a := by
  obtain ⟨c, frame, esp, hframe, hstack, rfl⟩ := timerInterrupt_stack hsaved hstack
  unfold interruptHandler
  split
  · rw [taskSaveState_outside ha]
    exact hstack.above a hstackTop
  · exact hstack.above a hstackTop

end Saved

/-- **Waiting.** Whatever runs in between, the saved registers stay. -/
theorem Between.savedReg_eq {alu : BitVec 32 → BitVec 32 → BitVec 32 → BitVec 32} {own : List Nat} {task : Nat}
    {m m' : Mem} (h : Between alu own task m m') (hstack : kernelStackPage ∈ own) (htask : bimbleosHeapAddress ≤ task)
    (f : SavedReg) : savedReg m' task f = savedReg m task f := by
  induction h with
  | start => rfl
  | @timer m₁ d u other _ hsaved hheap hapart ih =>
      rw [← ih]
      refine load32_congr fun i hi => timerInterrupt_outside hsaved hstack ?_ ?_
      · have hle : tssEsp0 ≤ bimbleosHeapAddress := by decide
        omega
      · have hf := f.inRegisters_lt
        unfold taskRegisters
        omega
  | @run m₁ m₂ _ hkeep ih =>
      rw [← ih]
      have hf := f.inRegisters_lt
      exact load32_congr fun i hi => hkeep _ (by omega) (by omega)

/-! ## Resuming -/

/-- The state in which the task goes on: every general purpose register, `eip`, `esp` and the arithmetic
    flags are those of the interrupted CPU, and so are its code and stack segments. -/
structure Resumes (u c : Cpu) : Prop where
  reg : ∀ r, c.reg r = u.reg r
  eip : c.eip = u.eip
  cs : c.cs = u.cs
  ss : c.ss = u.ss
  flags : c.eflags &&& arithmeticFlags = u.eflags &&& arithmeticFlags

section Resume

variable {alu : BitVec 32 → BitVec 32 → BitVec 32 → BitVec 32} {e : Nat} {m : Mem}
  {ws : List (BitVec 32)} {p b : BitVec 32} {c : Cpu}

/-- The state inside `task_return`: `ebx` points at the registers `p`, which lie above the stack, and
    `ebp` holds the stack pointer `b` of the entry. -/
structure InTaskReturn (e : Nat) (m : Mem) (p b : BitVec 32) (ws : List (BitVec 32)) (c : Cpu) : Prop where
  stack : Stack e m ws c
  ebx : c.reg .ebx = p
  ebp : c.reg .ebp = b

namespace InTaskReturn

variable (alu)

/-- `push dword [ebx+disp]` pushes a field of the saved registers. -/
theorem pushField (h : InTaskReturn e m p b ws c) (disp : Nat) (he : e ≤ p.toNat)
    (htop : p.toNat + disp < 2 ^ 32) (hroom : 4 * (ws.length + 1) ≤ e) :
    InTaskReturn e m p b (load32 m (p.toNat + disp) :: ws) (exec alu (.pushMem .ebx disp) c) := by
  have haddr : c.addr .ebx disp = p.toNat + disp :=
    Cpu.addr_eq (by rw [h.ebx]) htop
  have hload : load32 c.mem (c.addr .ebx disp) = load32 m (p.toNat + disp) := by
    rw [haddr]; exact h.stack.load_above (by omega)
  exact ⟨hload ▸ h.stack.exec_pushMem alu .ebx disp hroom, h.ebx, h.ebp⟩

/-- `pushf`, `pop eax`, `or eax, 0x200`, `push eax`: the flags of the moment, with interrupts enabled. -/
theorem pushFlags (h : InTaskReturn e m p b ws c) (he : e < 2 ^ 32)
    (hroom : 4 * (ws.length + 1) ≤ e) :
    InTaskReturn e m p b ((c.flagsImage ||| 0x200) :: ws)
      (exec alu (.push .eax) (exec alu (.orImm .eax 0x200) (exec alu (.pop .eax)
        (exec alu .pushf c)))) := by
  have hpushf := h.stack.exec_pushf alu hroom
  have hebx : (exec alu .pushf c).reg .ebx = p := h.ebx
  have hebp : (exec alu .pushf c).reg .ebp = b := h.ebp
  generalize exec alu .pushf c = c₁ at hpushf hebx hebp
  have hpop : Stack e m ws (exec alu (.orImm .eax 0x200) (exec alu (.pop .eax) c₁)) :=
    (hpushf.drop he).congr rfl rfl
  have heax : (exec alu (.orImm .eax 0x200) (exec alu (.pop .eax) c₁)).reg .eax
      = c.flagsImage ||| 0x200 := by
    rw [← hpushf.top]; rfl
  exact ⟨heax ▸ hpop.exec_push alu .eax hroom, hebx, hebp⟩

/-- `mov ax, [ebx+44]` and the segment loads leave everything but `eax` and the segments alone. -/
theorem loadSegments (h : InTaskReturn e m p b ws c) (segs : List Seg) :
    InTaskReturn e m p b ws ((segs.map Instr.movSeg).foldl (fun c i => exec alu i c)
      (exec alu (.loadAx .ebx 44) c)) := by
  have hax : InTaskReturn e m p b ws (exec alu (.loadAx .ebx 44) c) :=
    ⟨h.stack.congr rfl rfl, h.ebx, h.ebp⟩
  generalize exec alu (.loadAx .ebx 44) c = c₁ at hax
  induction segs generalizing c₁ with
  | nil => exact hax
  | cons s segs ih => exact ih _ ⟨hax.stack.congr rfl rfl, hax.ebx, hax.ebp⟩

end InTaskReturn

/-- The frame `task_return` builds for `iretd`. -/
def returnFrame (m : Mem) (p flags : BitVec 32) : List (BitVec 32) :=
  [load32 m (p.toNat + 28), load32 m (p.toNat + 32), flags, load32 m (p.toNat + 40),
    load32 m (p.toNat + 44)]

variable (alu)

/-- `task_return` up to its call: the frame is built, and the argument pushed once more. -/
theorem taskReturn_prologue {back : BitVec 32} (hstack : Stack e m [back, p] c)
    (he : e ≤ p.toNat) (htop : p.toNat + 48 ≤ 2 ^ 32) (hroom : 64 ≤ e) :
    InTaskReturn e m p (c.reg .esp) (p :: returnFrame m p (c.flagsImage ||| 0x200) ++ [back, p])
      ((taskAsm.take 16).foldl (fun c i => exec alu i c) c) := by
  have hesp : (c.reg .esp).toNat + 4 * 2 = e := hstack.esp
  -- `mov ebp, esp` and `mov ebx, [ebp+4]` fetch the argument
  have harg : load32 c.mem ((exec alu (.mov .ebp .esp) c).addr .ebp 4) = p := by
    have haddr : (exec alu (.mov .ebp .esp) c).addr .ebp 4 = (c.reg .esp).toNat + 4 :=
      Cpu.addr_eq rfl (by omega)
    rw [haddr]
    exact hstack.word 1 (Nat.lt_succ_self 1)
  have hentry : InTaskReturn e m p (c.reg .esp) [back, p]
      (exec alu (.load .ebx .ebp 4) (exec alu (.mov .ebp .esp) c)) :=
    ⟨hstack.congr rfl rfl, harg, rfl⟩
  have hframe := ((((hentry.pushField alu 44 he (by omega) (by show 4 * 3 ≤ e; omega)).pushField
    alu 40 he (by omega) (by show 4 * 4 ≤ e; omega)).pushFlags alu (by omega)
    (by show 4 * 5 ≤ e; omega)).pushField alu 32 he (by omega)
    (by show 4 * 6 ≤ e; omega)).pushField alu 28 he (by omega) (by show 4 * 7 ≤ e; omega)
  have hsegs := hframe.loadSegments alu [.ds, .es, .fs, .gs]
  -- `push dword [ebp+4]` finds the argument where it was
  generalize hc : ([Seg.ds, .es, .fs, .gs].map Instr.movSeg).foldl (fun c i => exec alu i c)
    (exec alu (.loadAx .ebx 44) _) = c₁ at hsegs
  have hpush : load32 c₁.mem (c₁.addr .ebp 4) = p := by
    have hesp₁ : (c₁.reg .esp).toNat + 4 * 7 = e := hsegs.stack.esp
    have haddr : c₁.addr .ebp 4 = (c₁.reg .esp).toNat + 4 * 6 := by
      rw [Cpu.addr_eq (congrArg BitVec.toNat hsegs.ebp) (by omega)]
      omega
    rw [haddr]
    exact hsegs.stack.word 6 (Nat.lt_succ_self 6)
  have hrun : (taskAsm.take 16).foldl (fun c i => exec alu i c) c
      = exec alu (.pushMem .ebp 4) c₁ := by
    rw [← hc]; rfl
  rw [hrun]
  exact ⟨hpush ▸ hsegs.stack.exec_pushMem alu .ebp 4 (by show 4 * 8 ≤ e; omega), hsegs.ebx, hsegs.ebp⟩

/-- The values `restore_general_purpose_registers` leaves: the saved ones, but for `ebp`. -/
def restoredReg (m : Mem) (p : BitVec 32) (c : Cpu) : Reg → BitVec 32
  | .edi => load32 m p.toNat
  | .esi => load32 m (p.toNat + 4)
  | .edx => load32 m (p.toNat + 16)
  | .ecx => load32 m (p.toNat + 20)
  | .eax => load32 m (p.toNat + 24)
  | .ebx => load32 m (p.toNat + 12)
  | .ebp => c.reg .ebp
  | .esp => c.reg .esp

/-- `restore_general_purpose_registers` up to its `ret`: the final `pop ebp` undoes the load of
    `ebp`. -/
theorem restore_body {back : BitVec 32} (hstack : Stack e m (back :: p :: ws) c) (he : e ≤ p.toNat)
    (htop : p.toNat + 48 ≤ 2 ^ 32) (hroom : 4 * (ws.length + 3) ≤ e) :
    Stack e m (back :: p :: ws) (((taskAsm.drop 19).take 11).foldl (fun c i => exec alu i c) c) ∧
    ∀ r, r ≠ .esp → (((taskAsm.drop 19).take 11).foldl (fun c i => exec alu i c) c).reg r
      = restoredReg m p c r := by
  have hpush := hstack.exec_push alu .ebp (by rw [List.length_cons, List.length_cons]; omega)
  generalize hc₁ : exec alu (.push .ebp) c = c₁ at hpush
  have hesp : (c₁.reg .esp).toNat + 4 * (ws.length + 3) = e := hpush.esp
  have harg : load32 c₁.mem ((exec alu (.mov .ebp .esp) c₁).addr .ebp 8) = p := by
    have haddr : (exec alu (.mov .ebp .esp) c₁).addr .ebp 8 = (c₁.reg .esp).toNat + 4 * 2 :=
      Cpu.addr_eq rfl (by omega)
    rw [haddr]
    exact hpush.word 2 (Nat.succ_lt_succ (Nat.succ_lt_succ (Nat.zero_lt_succ _)))
  have hentry : Stack e m (c.reg .ebp :: back :: p :: ws)
      (exec alu (.load .ebx .ebp 8) (exec alu (.mov .ebp .esp) c₁)) := hpush.congr rfl rfl
  have hebx : (exec alu (.load .ebx .ebp 8) (exec alu (.mov .ebp .esp) c₁)).reg .ebx = p := harg
  have hrun : ((taskAsm.drop 19).take 11).foldl (fun c i => exec alu i c) c
      = exec alu (.pop .ebp) (((taskAsm.drop 22).take 7).foldl (fun c i => exec alu i c)
          (exec alu (.load .ebx .ebp 8) (exec alu (.mov .ebp .esp) c₁))) := by
    rw [← hc₁]; rfl
  rw [hrun]
  generalize exec alu (.load .ebx .ebp 8) (exec alu (.mov .ebp .esp) c₁) = c₂ at hentry hebx
  -- the seven loads read the saved registers through `ebx`, the last one over `ebx` itself
  have hfield : ∀ d, d + 4 ≤ 48 → load32 c₂.mem (c₂.addr .ebx d) = load32 m (p.toNat + d) := by
    intro d hd
    rw [Cpu.addr_eq (congrArg BitVec.toNat hebx) (by omega)]
    exact hentry.load_above (by omega)
  have hloads : Stack e m (c.reg .ebp :: back :: p :: ws)
      (((taskAsm.drop 22).take 7).foldl (fun c i => exec alu i c) c₂) := hentry.congr rfl rfl
  refine ⟨(hloads.drop (by omega)).congr rfl rfl, fun r hr => ?_⟩
  cases r with
  | edi => exact hfield 0 (by decide)
  | esi => exact hfield 4 (by decide)
  | edx => exact hfield 16 (by decide)
  | ecx => exact hfield 20 (by decide)
  | eax => exact hfield 24 (by decide)
  | ebx => exact hfield 12 (by decide)
  | ebp => exact hloads.top
  | esp => exact absurd rfl hr

/-- **Running `task_return`.** From its entry to the state after its `iretd`. -/
theorem taskReturn_run {back : BitVec 32} (hstack : Stack e m [back, p] c) (heip : c.eip = 0)
    (he : e ≤ p.toNat) (htop : p.toNat + 48 ≤ 2 ^ 32) (hroom : 64 ≤ e) :
    ∃ c', runToIret alu taskAsm 31 c = some c' ∧
      (∀ r, r ≠ .esp → r ≠ .ebp → c'.reg r = restoredReg m p c r) ∧
      c'.reg .ebp = c.reg .esp ∧ c'.reg .esp = load32 m (p.toNat + 40) ∧
      c'.eip = load32 m (p.toNat + 28) ∧ c'.cs = load32 m (p.toNat + 32) ∧ c'.ss = load32 m (p.toNat + 44) ∧
      c'.eflags = c.flagsImage ||| 0x200 ∧ ∀ a, e ≤ a → c'.mem a = m a := by
  -- up to the call
  have hpro := taskReturn_prologue alu hstack he htop hroom
  have hrun₁ : runToIret alu taskAsm 31 c
      = runToIret alu taskAsm 15 ((taskAsm.take 16).foldl (fun c i => exec alu i c) c) :=
    runToIret_block (taskAsm.take 16) 0 (by rw [heip]; rfl) (by decide) (by decide) (by decide)
  have heip₁ : ((taskAsm.take 16).foldl (fun c i => exec alu i c) c).eip = 16 := by
    show c.eip + 1 + 1 + 1 + 1 + 1 + 1 + 1 + 1 + 1 + 1 + 1 + 1 + 1 + 1 + 1 + 1 = 16
    rw [heip]; rfl
  rw [hrun₁]
  generalize (taskAsm.take 16).foldl (fun c i => exec alu i c) c = c₁ at hpro heip₁
  -- the call
  have hcall := hpro.stack.exec_call alu 19 (by show 4 * 9 ≤ e; omega)
  have hebp : (exec alu (.call 19) c₁).reg .ebp = c.reg .esp := hpro.ebp
  have heip₂ : (exec alu (.call 19) c₁).eip = 19 := rfl
  rw [runToIret_step (i := .call 19) (by rw [heip₁]; rfl) (by decide)]
  rw [heip₁] at hcall
  generalize exec alu (.call 19) c₁ = c₂ at hcall hebp heip₂
  -- the body of `restore_general_purpose_registers`
  obtain ⟨hbody, hregs⟩ := restore_body alu hcall he htop (by show 4 * 10 ≤ e; omega)
  have hrun₃ : runToIret alu taskAsm 14 c₂
      = runToIret alu taskAsm 3 (((taskAsm.drop 19).take 11).foldl (fun c i => exec alu i c) c₂) :=
    runToIret_block ((taskAsm.drop 19).take 11) 19 (by rw [heip₂]; rfl) (by decide)
      (by decide) (by decide)
  have heip₃ : (((taskAsm.drop 19).take 11).foldl (fun c i => exec alu i c) c₂).eip = 30 := by
    show c₂.eip + 1 + 1 + 1 + 1 + 1 + 1 + 1 + 1 + 1 + 1 + 1 = 30
    rw [heip₂]; rfl
  rw [hrun₃]
  generalize ((taskAsm.drop 19).take 11).foldl (fun c i => exec alu i c) c₂ = c₃ at hbody hregs heip₃
  -- `ret`, `add esp, 4` and `iretd`
  have hret : Stack e m (p :: returnFrame m p (c.flagsImage ||| 0x200) ++ [back, p])
      (exec alu .ret c₃) := (hbody.drop (by omega)).congr rfl rfl
  have heip₄ : (exec alu .ret c₃).eip = 17 := hbody.top
  have hregs₄ : ∀ r, r ≠ .esp → (exec alu .ret c₃).reg r = c₃.reg r :=
    fun r hr => Function.update_of_ne hr _ _
  rw [runToIret_step (i := .ret) (by rw [heip₃]; rfl) (by decide)]
  generalize exec alu .ret c₃ = c₄ at hret heip₄ hregs₄
  have hadd : Stack e m (returnFrame m p (c.flagsImage ||| 0x200) ++ [back, p])
      (exec alu (.addImm .esp 4) c₄) := (hret.drop (by omega)).congr rfl rfl
  have heip₅ : (exec alu (.addImm .esp 4) c₄).eip = 18 := by
    show c₄.eip + 1 = 18
    rw [heip₄]; rfl
  have hregs₅ : ∀ r, r ≠ .esp → (exec alu (.addImm .esp 4) c₄).reg r = c₄.reg r :=
    fun r hr => Function.update_of_ne hr _ _
  rw [runToIret_step (i := .addImm .esp 4) (by rw [heip₄]; rfl) (by decide)]
  generalize exec alu (.addImm .esp 4) c₄ = c₅ at hadd heip₅ hregs₅
  rw [runToIret_iretd (by rw [heip₅]; rfl)]
  have hword : ∀ k (h : k < 7), load32 c₅.mem ((c₅.reg .esp).toNat + 4 * k)
      = (returnFrame m p (c.flagsImage ||| 0x200) ++ [back, p])[k] := hadd.word
  have hkeep : ∀ r, r ≠ .esp → c₅.iretd.reg r = restoredReg m p c₂ r := by
    intro r hr
    rw [← hregs r hr, ← hregs₄ r hr, ← hregs₅ r hr]
    exact Function.update_of_ne hr _ _
  refine ⟨_, rfl, ?_, ?_, ?_, ?_, ?_, ?_, ?_, hadd.above⟩
  · intro r hesp hebp
    rw [hkeep r hesp]
    cases r <;> first | rfl | exact absurd rfl hesp | exact absurd rfl hebp
  · rw [hkeep .ebp (by decide)]
    exact hebp
  · exact hword 3 (by decide)
  · exact hword 0 (by decide)
  · exact hword 1 (by decide)
  · exact hword 4 (by decide)
  · exact hword 2 (by decide)

end Resume

/-- The call of `task_return` runs to its `iretd`, and the task gets back what its structure holds,
    except for `ebp` and the flags. -/
theorem callTaskReturn_run (alu : BitVec 32 → BitVec 32 → BitVec 32 → BitVec 32) {k : Cpu} {task : Nat}
    (back : BitVec 32) (htask : bimbleosHeapAddress ≤ task) (htop : task + 64 ≤ 4294967296)
    (hroom : 64 ≤ (k.reg .esp).toNat) (hle : (k.reg .esp).toNat ≤ tssEsp0) :
    ∃ c, runToIret alu taskAsm 31 (callTaskReturn k task back) = some c ∧
      c.reg .edi = savedReg k.mem task .edi ∧ c.reg .esi = savedReg k.mem task .esi ∧
      c.reg .ebx = savedReg k.mem task .ebx ∧ c.reg .edx = savedReg k.mem task .edx ∧
      c.reg .ecx = savedReg k.mem task .ecx ∧ c.reg .eax = savedReg k.mem task .eax ∧
      c.reg .esp = savedReg k.mem task .esp ∧ c.eip = savedReg k.mem task .ip ∧
      c.cs = savedReg k.mem task .cs ∧ c.ss = savedReg k.mem task .ss ∧
      c.reg .ebp = k.reg .esp - 8 ∧ c.eflags = k.flagsImage ||| 0x200 ∧ ∀ a, tssEsp0 ≤ a → c.mem a = k.mem a := by
  have hp : (BitVec.ofNat 32 (task + taskRegisters)).toNat = task + taskRegisters := by
    rw [BitVec.toNat_ofNat]
    exact Nat.mod_eq_of_lt (by unfold taskRegisters; omega)
  have hheap : tssEsp0 ≤ bimbleosHeapAddress := by decide
  have hstack : Stack (k.reg .esp).toNat k.mem [back, BitVec.ofNat 32 (task + taskRegisters)]
      (callTaskReturn k task back) :=
    (((Stack.start k).push _ (by show 4 * 1 ≤ _; omega)).push _ (by show 4 * 2 ≤ _; omega)).congr
      rfl rfl
  obtain ⟨c, hrun, hregs, hebp, hesp, heip, hcs, hss, hflags, hmem⟩ := taskReturn_run alu hstack rfl
    (by rw [hp]; omega) (by rw [hp]; unfold taskRegisters; omega) hroom
  rw [hp] at hesp heip hcs hss
  have hfield : ∀ r, r ≠ .esp → r ≠ .ebp → c.reg r
      = restoredReg k.mem (BitVec.ofNat 32 (task + taskRegisters)) (callTaskReturn k task back) r := hregs
  unfold restoredReg at hfield
  rw [hp] at hfield
  refine ⟨c, hrun, hfield .edi (by decide) (by decide), hfield .esi (by decide) (by decide),
    hfield .ebx (by decide) (by decide), hfield .edx (by decide) (by decide),
    hfield .ecx (by decide) (by decide), hfield .eax (by decide) (by decide), hesp, heip, hcs, hss, ?_, hflags,
    fun a ha => hmem a (by omega)⟩
  rw [hebp]
  show k.reg .esp - 4 - 4 = k.reg .esp - 8
  rw [BitVec.sub_sub]
  rfl

/-- `or eax, 0x200` and `pushf` leave the arithmetic flags alone. -/
theorem flagsImage_arithmetic (k : Cpu) :
    (k.flagsImage ||| 0x200) &&& arithmeticFlags = k.eflags &&& arithmeticFlags := by
  unfold Cpu.flagsImage arithmeticFlags
  ext i hi
  simp only [BitVec.getElem_and, BitVec.getElem_or]
  interval_cases i <;> simp

/-- The page directory has the register structure of the task on present pages, and shows the words that `task_return`
    gives back as they are. -/
structure ShowsRegisters (d : PageFrames) (m : Mem) (task : Nat) : Prop where
  present : d.Present (task + taskRegisters) 48
  words : ∀ f, f ≠ .ebp → f ≠ .flags → savedReg (d.see m) task f = savedReg m task f

section Enter

variable {alu : BitVec 32 → BitVec 32 → BitVec 32 → BitVec 32} {own : List Nat} {d : PageFrames} {u k c : Cpu}
  {m saved : Mem} {task : Nat} {back : BitVec 32}

/-- A structure that is mapped to itself is shown. -/
theorem ShowsRegisters.of_self (hself : d.Self (task + taskRegisters) 48) : ShowsRegisters d m task where
  present := hself.present
  words := fun f _ _ => by
    have hf := f.inRegisters_lt
    refine load32_congr fun i hi => PageFrames.see_of_self ?_
    rw [Nat.add_assoc]
    exact hself _ (by omega)

/-- **Entering a task.** Where the kernel's pages are its own and those of the structure are present, `task_return` runs
    to its `iretd`: the task gets what its directory shows, except for `ebp` and the flags. -/
theorem enterTask_run (alu : BitVec 32 → BitVec 32 → BitVec 32 → BitVec 32) (back : BitVec 32) (howns : d.Owns own)
    (hpresent : d.Present (task + taskRegisters) 48) (hstack : KernelStack own k)
    (htask : bimbleosHeapAddress ≤ task) (htop : task + 64 ≤ 4294967296) :
    ∃ c, enterTask alu own d k task back = some c ∧
      c.reg .edi = savedReg (d.see k.mem) task .edi ∧ c.reg .esi = savedReg (d.see k.mem) task .esi ∧
      c.reg .ebx = savedReg (d.see k.mem) task .ebx ∧ c.reg .edx = savedReg (d.see k.mem) task .edx ∧
      c.reg .ecx = savedReg (d.see k.mem) task .ecx ∧ c.reg .eax = savedReg (d.see k.mem) task .eax ∧
      c.reg .esp = savedReg (d.see k.mem) task .esp ∧ c.eip = savedReg (d.see k.mem) task .ip ∧
      c.cs = savedReg (d.see k.mem) task .cs ∧ c.ss = savedReg (d.see k.mem) task .ss ∧
      c.reg .ebp = k.reg .esp - 8 ∧ c.eflags = k.flagsImage ||| 0x200 ∧ ∀ a, tssEsp0 ≤ a → c.mem a = k.mem a := by
  obtain ⟨c, hrun, hedi, hesi, hebx, hedx, hecx, heax, hesp, heip, hcs, hss, hebp, hflags, hmem⟩ :=
    @callTaskReturn_run alu { k with mem := d.see k.mem } task back htask htop hstack.room hstack.top
  refine ⟨{ c with mem := fun a => if a / 4096 ∈ own then c.mem a else k.mem a }, ?_, hedi, hesi, hebx, hedx, hecx, heax,
    hesp, heip, hcs, hss, hebp, hflags, fun a ha => ?_⟩
  · unfold enterTask
    rw [if_pos hpresent]
    exact Cpu.under_eq_some.mpr ⟨howns, c, hrun, rfl⟩
  · show (if a / 4096 ∈ own then c.mem a else k.mem a) = k.mem a
    split
    · rename_i hown
      rw [hmem a ha]
      exact howns.see_eq hown
    · rfl

theorem enterTask_shown (h : enterTask alu own d k task back = some c) :
    d.Owns own ∧ d.Present (task + taskRegisters) 48 := by
  unfold enterTask at h
  split at h
  · rename_i hpresent
    exact ⟨(Cpu.under_eq_some.mp h).1, hpresent⟩
  · exact absurd h.symm (Option.some_ne_none c)

end Enter

/-- A CPU whose registers are all zero but the stack pointer. -/
def idleCpu (esp : BitVec 32) (mem : Mem) : Cpu where
  reg := fun r => if r = .esp then esp else 0
  seg := fun _ => 0x23
  cs := 0x1B
  ss := 0x23
  eflags := 0x202
  eip := 0x400000
  mem := mem

/-- Flags that no arithmetic instruction changes. -/
def keepFlags (flags _ _ : BitVec 32) : BitVec 32 := flags

/-- A user task about to be interrupted. -/
def idleTask : Cpu := idleCpu 0x3FE000 fun _ => 0

/-- The pages of a small kernel: one for its code and data, one for its stack. -/
def idlePages : List Nat := [0x100, kernelStackPage]

/-- The directory that `paging_new` makes, with the code of the program at 0x400000. -/
def idleFrames : PageFrames := fun page => some (if page = 0x400 then 0x1800 else page)

theorem idleFrames_owns : idleFrames.Owns idlePages := by
  have hcode : ∀ frame ∈ idlePages, frame ≠ 0x1800 := by decide
  refine ⟨by decide, fun page _ frame hframe heq => ?_⟩
  have hframe' : (if page = 0x400 then 0x1800 else page) = frame := Option.some.inj heq
  split at hframe'
  · exact absurd hframe'.symm (hcode frame hframe)
  · exact hframe'

theorem idleFrames_self {page : Nat} (hne : page ≠ 0x400) : idleFrames page = some page := by
  unfold idleFrames
  rw [if_neg hne]

/-- The kernel has its directory back and is about to resume the task, nothing else having run. -/
theorem idleKernel_saved : ∃ saved, timerInterrupt keepFlags idlePages idleFrames idleTask 0x1000000 = some saved := by
  unfold timerInterrupt Cpu.under
  rw [if_pos idleFrames_owns]
  exact ⟨_, rfl⟩

theorem idleStack (m : Mem) : KernelStack idlePages (idleCpu 0x5FFF00 m) where
  base := by decide
  room := by show 64 ≤ (0x5FFF00 : BitVec 32).toNat; decide
  top := by show (0x5FFF00 : BitVec 32).toNat ≤ tssEsp0; decide
  own := by show ∀ i < 64, ((0x5FFF00 : BitVec 32).toNat - 64 + i) / 4096 ∈ idlePages; decide

end BimbleOS
