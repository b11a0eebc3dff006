import BimbleOS.Kernel.State
import BimbleOS.Lib.Ring
import BimbleOS.Lib.Trace

/-!
# `Keyboard.Keyboard` — `keyboard/keyboard.c`

Characters go to the process that has the focus, and a task takes the characters of its own process. The
buffer is a ring whose free slots hold a zero byte. `keyboard_pop` looks at the slot at the head before it
takes it; `keyboard_push` does not look at the slot it writes to. With 1024 characters unread that is the
slot at the head, and the newest character takes the place of the oldest one.

`keyboard_accounts` shows that nothing goes wrong as long as every push finds its slot free.
-/

namespace BimbleOS

open CWord Ring Transition

/-- `keyboard_get_tail_index`: `tail` is converted to the unsigned type of `sizeof`. -/
def keyboardGetTailIndex (process : Process) : Nat :=
  u32 process.keyboard.tail % bimbleosKeyboardBufferSize

/-- The stores of `keyboard_push`; the counter wraps, as it does in an unoptimised build. -/
def KeyboardBuffer.put (keyboard : KeyboardBuffer) (realIndex : Nat) (c : BitVec 8) : KeyboardBuffer :=
  { keyboard with
    buffer := Function.update keyboard.buffer realIndex c
    tail := s32 (keyboard.tail + 1) }

/-- The stores of `keyboard_pop`. -/
def KeyboardBuffer.take (keyboard : KeyboardBuffer) (realIndex : Nat) : KeyboardBuffer :=
  { keyboard with
    buffer := Function.update keyboard.buffer realIndex 0
    head := s32 (keyboard.head + 1) }

def keyboardPush (c : BitVec 8) : KM Unit := do
  let k ← get
  let process := k.currentProcess
  if process = 0 then return ()
  else if c = 0 then return ()
  else
    let realIndex := keyboardGetTailIndex (k.process process)
    modifyProcess process fun p => { p with keyboard := p.keyboard.put realIndex c }

def keyboardPop : KM (BitVec 8) := do
  let k ← get
  if k.tasks.currentTask = 0 then return 0
  else
    let process := (k.tasks.task k.tasks.currentTask).process
    deref process
    let realIndex := u32 (k.process process).keyboard.head % bimbleosKeyboardBufferSize
    let c := (k.process process).keyboard.buffer realIndex
    if c = 0 then return 0
    else
      modifyProcess process fun p => { p with keyboard := p.keyboard.take realIndex }
      return c

/-! ## What the keyboard of a process should do -/

/-- What happens to the keyboard of a process: a character is pushed, `keyboard_pop` returns a value, or
    anything else goes on in the kernel. -/
inductive KeyEvent where
  | push (c : BitVec 8)
  | pop (c : BitVec 8)
  | other
  deriving DecidableEq

/-- A history of the keyboard and the characters that are unread after it. A push adds its character;
    characters are dropped only while 1024 are unread, and then by a push. A pop takes the oldest unread
    character, and returns 0 only when there is none. -/
inductive Accounts : List KeyEvent → List (BitVec 8) → Prop where
  | start : Accounts [] []
  | push {es : List KeyEvent} {unread : List (BitVec 8)} {c : BitVec 8} :
      Accounts es unread → unread.length < 1024 → Accounts (es ++ [.push c]) (unread ++ [c])
  | drop {es : List KeyEvent} {unread kept : List (BitVec 8)} {c : BitVec 8} :
      Accounts es unread → unread.length = 1024 → kept.Sublist (unread ++ [c]) →
      Accounts (es ++ [.push c]) kept
  | pop {es : List KeyEvent} {unread : List (BitVec 8)} {c : BitVec 8} :
      Accounts es (c :: unread) → Accounts (es ++ [.pop c]) unread
  | popEmpty {es : List KeyEvent} : Accounts es [] → Accounts (es ++ [.pop 0]) []
  | other {es : List KeyEvent} {unread : List (BitVec 8)} :
      Accounts es unread → Accounts (es ++ [.other]) unread

/-- The character an event pushes. -/
def KeyEvent.pushed : KeyEvent → Option (BitVec 8)
  | .push c => some c
  | _ => none

/-- The character an event pops. -/
def KeyEvent.popped : KeyEvent → Option (BitVec 8)
  | .pop c => if c = 0 then none else some c
  | _ => none

/-- **The characters popped are a subsequence of those pushed**, followed by the unread ones. -/
theorem Accounts.sublist {es : List KeyEvent} {unread : List (BitVec 8)} (h : Accounts es unread) :
    (es.filterMap KeyEvent.popped ++ unread).Sublist (es.filterMap KeyEvent.pushed) := by
  induction h with
  | start => exact List.Sublist.refl []
  | @push es unread c _ _ ih =>
      simp only [List.filterMap_append]
      show ((es.filterMap KeyEvent.popped ++ []) ++ (unread ++ [c])).Sublist
        (es.filterMap KeyEvent.pushed ++ [c])
      rw [List.append_nil, ← List.append_assoc]
      exact ih.append (List.Sublist.refl [c])
  | @drop es unread kept c _ _ hkept ih =>
      simp only [List.filterMap_append]
      show ((es.filterMap KeyEvent.popped ++ []) ++ kept).Sublist (es.filterMap KeyEvent.pushed ++ [c])
      rw [List.append_nil]
      refine ((List.Sublist.refl _).append hkept).trans ?_
      rw [← List.append_assoc]
      exact ih.append (List.Sublist.refl [c])
  | @pop es unread c _ ih =>
      simp only [List.filterMap_append]
      show ((es.filterMap KeyEvent.popped ++ [KeyEvent.pop c].filterMap KeyEvent.popped) ++ unread).Sublist
        (es.filterMap KeyEvent.pushed ++ [])
      rw [List.append_nil, List.append_assoc]
      refine ((List.Sublist.refl _).append ?_).trans ih
      by_cases hc : c = 0
      · have hnone : KeyEvent.popped (.pop c) = none := if_pos hc
        rw [List.filterMap_cons_none hnone]
        exact List.sublist_cons_self c unread
      · have hsome : KeyEvent.popped (.pop c) = some c := if_neg hc
        rw [List.filterMap_cons_some hsome]
        exact List.Sublist.refl _
  | popEmpty _ ih =>
      simp only [List.filterMap_append]
      rw [List.filterMap_cons_none (f := KeyEvent.popped) rfl,
        List.filterMap_cons_none (f := KeyEvent.pushed) rfl]
      simpa using ih
  | other _ ih =>
      simp only [List.filterMap_append]
      rw [List.filterMap_cons_none (f := KeyEvent.popped) rfl,
        List.filterMap_cons_none (f := KeyEvent.pushed) rfl]
      simpa using ih

/-! ## The calls -/

/-- A step of the kernel as the keyboard of the process `p` sees it: a character is pushed while `p` has
    the focus, `keyboard_pop` is called by the task of `p`, or something leaves that keyboard alone. -/
inductive KeyStep (p : Nat) : Kernel → KeyEvent → Kernel → Prop where
  | push {k k' : Kernel} {c : BitVec 8} : k.currentProcess = p → c ≠ 0 →
      keyboardPush c k = .ok ((), k') → KeyStep p k (.push c) k'
  | pop {k k' : Kernel} {c : BitVec 8} : k.tasks.currentTask ≠ 0 →
      (k.tasks.task k.tasks.currentTask).process = p → keyboardPop k = .ok (c, k') →
      KeyStep p k (.pop c) k'
  | other {k k' : Kernel} : (k'.process p).keyboard = (k.process p).keyboard → KeyStep p k .other k'

section Calls

variable {p : Nat} {k k' : Kernel} {c : BitVec 8}

/-- A kernel with another keyboard buffer for one process. -/
def Kernel.withKeyboard (k : Kernel) (p : Nat) (keyboard : KeyboardBuffer) : Kernel :=
  { k with process := Function.update k.process p ({ k.process p with keyboard := keyboard }) }

@[simp] theorem withKeyboard_self {keyboard : KeyboardBuffer} :
    ((k.withKeyboard p keyboard).process p).keyboard = keyboard := by
  unfold Kernel.withKeyboard
  simp

/-- `keyboard_push` with a character, while some process has the focus. -/
theorem keyboardPush_eq (hp : p ≠ 0) (hfocus : k.currentProcess = p) (hc : c ≠ 0) :
    keyboardPush c k = .ok ((), k.withKeyboard p
      ((k.process p).keyboard.put (u32 (k.process p).keyboard.tail % 1024) c)) := by
  subst hfocus
  unfold keyboardPush
  show (if k.currentProcess = 0 then _ else if c = 0 then _ else _ : KM Unit) k = _
  rw [if_neg hp, if_neg hc]
  rfl

/-- `keyboard_pop` by a task of the process. -/
theorem keyboardPop_eq (hp : p ≠ 0) (htask : k.tasks.currentTask ≠ 0)
    (hprocess : (k.tasks.task k.tasks.currentTask).process = p) :
    keyboardPop k = .ok ((k.process p).keyboard.buffer (u32 (k.process p).keyboard.head % 1024),
      if (k.process p).keyboard.buffer (u32 (k.process p).keyboard.head % 1024) = 0 then k
      else k.withKeyboard p ((k.process p).keyboard.take (u32 (k.process p).keyboard.head % 1024))) := by
  unfold keyboardPop
  show (if k.tasks.currentTask = 0 then _ else _ : KM (BitVec 8)) k = _
  rw [if_neg htask, hprocess, Exec.bind_of_ok (deref_of_ne hp)]
  show (if (k.process p).keyboard.buffer (u32 (k.process p).keyboard.head % 1024) = 0 then _
    else _ : KM (BitVec 8)) k = _
  split
  · rename_i hempty
    rw [hempty]
    rfl
  · rfl

end Calls

/-! ## Runs -/

/-- The buffer holds the unread characters between its two counters. -/
structure KeyboardBuffer.Unread (keyboard : KeyboardBuffer) (unread : List (BitVec 8)) : Prop where
  ring : Ring.Holds 1024 0 keyboard.buffer (u32 keyboard.head) unread
  tail : u32 keyboard.tail % 1024 = (u32 keyboard.head + unread.length) % 1024

/-- The slot that the next push writes to is free. -/
def KeyboardBuffer.TailFree (keyboard : KeyboardBuffer) : Prop :=
  keyboard.buffer (u32 keyboard.tail % 1024) = 0

/-- The condition on a step: a push finds its slot free. -/
def PushFree (p : Nat) (k : Kernel) : KeyEvent → Prop
  | .push _ => (k.process p).keyboard.TailFree
  | _ => True

section Runs

variable {keyboard : KeyboardBuffer} {unread : List (BitVec 8)} {c : BitVec 8}

/-- A counter that wraps keeps its residue. -/
theorem u32_succ_mod (x : Int) : u32 (s32 (x + 1)) % 1024 = (u32 x + 1) % 1024 := by
  unfold u32 s32
  omega

theorem KeyboardBuffer.Unread.tailFree_iff (h : keyboard.Unread unread) :
    keyboard.TailFree ↔ unread.length < 1024 := by
  unfold KeyboardBuffer.TailFree
  rw [h.tail]
  exact h.ring.back_eq_empty_iff (by decide)

theorem KeyboardBuffer.Unread.put (h : keyboard.Unread unread) (hroom : unread.length < 1024)
    (hc : c ≠ 0) : (keyboard.put (u32 keyboard.tail % 1024) c).Unread (unread ++ [c]) where
  ring := by
    unfold KeyboardBuffer.put
    rw [h.tail]
    exact h.ring.push hroom hc
  tail := by
    show u32 (s32 (keyboard.tail + 1)) % 1024 = (u32 keyboard.head + (unread ++ [c]).length) % 1024
    have htail := h.tail
    rw [u32_succ_mod, List.length_append, List.length_singleton]
    omega

theorem KeyboardBuffer.Unread.take (h : keyboard.Unread (c :: unread)) :
    (keyboard.take (u32 keyboard.head % 1024)).Unread unread where
  ring := h.ring.pop.congr_head (u32_succ_mod keyboard.head)
  tail := by
    show u32 keyboard.tail % 1024 = (u32 (s32 (keyboard.head + 1)) + unread.length) % 1024
    have htail := h.tail
    have hhead := u32_succ_mod keyboard.head
    rw [List.length_cons] at htail
    omega

end Runs

/-- As long as each push finds its slot free, the history is accounted for, and the buffer holds what is
    unread. The induction is on the run. -/
theorem keyboard_unread {p : Nat} {k₀ k : Kernel} {tr : List (Kernel × KeyEvent)} (hp : p ≠ 0)
    (h₀ : (k₀.process p).keyboard = {}) (h : Trace (KeyStep p) k₀ tr k)
    (hfree : ∀ q ∈ tr, PushFree p q.1 q.2) :
    ∃ unread, Accounts (tr.map Prod.snd) unread ∧ (k.process p).keyboard.Unread unread := by
  induction h with
  | nil =>
      refine ⟨[], Accounts.start, ?_⟩
      rw [h₀]
      exact ⟨Ring.Holds.nil fun _ => rfl, rfl⟩
  | @snoc tr k k' e _ hstep ih =>
      obtain ⟨unread, hacc, hunread⟩ := ih fun q hq => hfree q (List.mem_append_left _ hq)
      have hlast := hfree (k, e) (List.mem_append_right _ (List.mem_singleton.mpr rfl))
      rw [List.map_append]
      cases hstep with
      | @push _ c hfocus hc hrun =>
          have hroom := hunread.tailFree_iff.mp hlast
          rw [keyboardPush_eq hp hfocus hc] at hrun
          cases hrun
          refine ⟨unread ++ [c], hacc.push hroom, ?_⟩
          rw [withKeyboard_self]
          exact hunread.put hroom hc
      | @pop _ c htask hprocess hrun =>
          rw [keyboardPop_eq hp htask hprocess] at hrun
          cases unread with
          | nil =>
              have hzero := (hunread.ring.front_eq_empty_iff (by decide)).mpr rfl
              rw [if_pos hzero, hzero] at hrun
              cases hrun
              exact ⟨[], hacc.popEmpty, hunread⟩
          | cons x rest =>
              have hfront := hunread.ring.front_cons
              have hne : x ≠ 0 := hunread.ring.solid x List.mem_cons_self
              rw [hfront, if_neg hne] at hrun
              cases hrun
              refine ⟨rest, hacc.pop, ?_⟩
              rw [withKeyboard_self]
              exact hunread.take
      | other hkeyboard =>
          exact ⟨unread, hacc.other, by rw [hkeyboard]; exact hunread⟩

/-- **A keyboard on which every push finds its slot free works**: the characters popped are pushed
    characters in order, none is dropped while fewer than 1024 are unread, and `keyboard_pop` returns 0
    only when none is unread. -/
theorem keyboard_accounts {p : Nat} {k₀ k : Kernel} {tr : List (Kernel × KeyEvent)} (hp : p ≠ 0)
    (h₀ : (k₀.process p).keyboard = {}) (h : Trace (KeyStep p) k₀ tr k)
    (hfree : ∀ q ∈ tr, PushFree p q.1 q.2) :
    ((tr.map Prod.snd).filterMap KeyEvent.popped).Sublist ((tr.map Prod.snd).filterMap KeyEvent.pushed) ∧
      ∃ unread, Accounts (tr.map Prod.snd) unread := by
  obtain ⟨unread, hacc, _⟩ := keyboard_unread hp h₀ h hfree
  exact ⟨(List.sublist_append_left _ unread).trans hacc.sublist, unread, hacc⟩

/-- A process at 4096 that has the focus; its task, at 8192, runs. -/
def keyKernel : Kernel :=
  { bootKernel with
    tasks := { task := fun _ => { process := 4096 }, currentTask := 8192 }
    currentProcess := 4096 }

section Examples

variable {c : BitVec 8}

theorem keyKernel_push (keyboard : KeyboardBuffer) (hc : c ≠ 0) :
    KeyStep 4096 (keyKernel.withKeyboard 4096 keyboard) (.push c)
    (keyKernel.withKeyboard 4096 (keyboard.put (u32 keyboard.tail % 1024) c)) := by
  refine KeyStep.push rfl hc ?_
  rw [keyboardPush_eq (p := 4096) (by decide) rfl hc, withKeyboard_self]
  simp [Kernel.withKeyboard]

theorem keyKernel_pop (keyboard : KeyboardBuffer) (hfront : keyboard.buffer (u32 keyboard.head % 1024) = c)
    (hc : c ≠ 0) :
    KeyStep 4096 (keyKernel.withKeyboard 4096 keyboard) (.pop c)
      (keyKernel.withKeyboard 4096 (keyboard.take (u32 keyboard.head % 1024))) := by
  have htask : (keyKernel.withKeyboard 4096 keyboard).tasks.currentTask ≠ 0 :=
    (by decide : 8192 ≠ 0)
  refine KeyStep.pop htask rfl ?_
  rw [keyboardPop_eq (p := 4096) (by decide) htask rfl, withKeyboard_self, hfront, if_neg hc]
  simp [Kernel.withKeyboard]

/-- Pushing 1 as often as the buffer has room. -/
theorem keyKernel_fill {n : Nat} (hn : n ≤ 1024) : ∃ tr keyboard,
    Trace (KeyStep 4096) (keyKernel.withKeyboard 4096 {}) tr (keyKernel.withKeyboard 4096 keyboard) ∧
      tr.map Prod.snd = List.replicate n (.push 1) ∧ keyboard.Unread (List.replicate n 1) := by
  induction n with
  | zero => exact ⟨[], {}, Trace.nil, rfl, Ring.Holds.nil fun _ => rfl, rfl⟩
  | succ n ih =>
      obtain ⟨tr, keyboard, htr, hevents, hunread⟩ := ih (Nat.le_of_succ_le hn)
      have hroom : (List.replicate n (1 : BitVec 8)).length < 1024 := by
        rw [List.length_replicate]
        exact hn
      refine ⟨_, _, htr.snoc (keyKernel_push keyboard (c := 1) (by decide)), ?_, ?_⟩
      · rw [List.map_append, hevents, List.replicate_succ']
        rfl
      · rw [List.replicate_succ']
        exact hunread.put hroom (by decide)

end Examples

theorem keyboard_accounts_once :
    (([KeyEvent.push 65, KeyEvent.pop 65].filterMap KeyEvent.popped).Sublist
        ([KeyEvent.push 65, KeyEvent.pop 65].filterMap KeyEvent.pushed)) ∧
      ∃ unread, Accounts [KeyEvent.push 65, KeyEvent.pop 65] unread :=
  keyboard_accounts (p := 4096) (by decide)
    (withKeyboard_self : ((keyKernel.withKeyboard 4096 {}).process 4096).keyboard = {})
    ((Trace.nil.snoc (keyKernel_push {} (c := 65) (by decide))).snoc (keyKernel_pop _ rfl (by decide)))
    (by
      intro q hq
      rcases List.mem_append.mp hq with hq | hq
      · rw [List.mem_singleton.mp hq]
        show ((keyKernel.withKeyboard 4096 {}).process 4096).keyboard.TailFree
        rw [withKeyboard_self]
        rfl
      · rw [List.mem_singleton.mp hq]
        trivial)

/-- 1024 times 1 and then 2 are pushed: the 2 takes the place of the first 1 and is popped before the
    others. -/
theorem keyboard_pops_newest_first :
    ¬ ∀ (p : Nat) (k₀ k : Kernel) (tr : List (Kernel × KeyEvent)), p ≠ 0 →
      (k₀.process p).keyboard = {} → Trace (KeyStep p) k₀ tr k →
      ((tr.map Prod.snd).filterMap KeyEvent.popped).Sublist
          ((tr.map Prod.snd).filterMap KeyEvent.pushed) ∧
        ∃ unread, Accounts (tr.map Prod.snd) unread := by
  intro h
  obtain ⟨tr, keyboard, htr, hevents, hunread⟩ := keyKernel_fill (Nat.le_refl 1024)
  have hslot : u32 keyboard.tail % 1024 = u32 keyboard.head % 1024 := by
    rw [hunread.tail, List.length_replicate, Nat.add_mod_right]
  have hnext : keyboard.buffer ((u32 keyboard.head + 1) % 1024) = 1 := by
    have hstored := hunread.ring.stored 1 (by rw [List.length_replicate]; decide)
    rwa [List.getElem_replicate] at hstored
  have hne : (u32 keyboard.head + 1) % 1024 ≠ u32 keyboard.head % 1024 := by omega
  have hpush := keyKernel_push keyboard (c := 2) (by decide)
  rw [hslot] at hpush
  have hpop := keyKernel_pop (keyboard.put (u32 keyboard.head % 1024) 2) (c := 2)
    (Function.update_self ..) (by decide)
  have hpop' := keyKernel_pop (c := 1)
    ((keyboard.put (u32 keyboard.head % 1024) 2).take (u32 keyboard.head % 1024)) (by
      show Function.update (Function.update keyboard.buffer (u32 keyboard.head % 1024) 2)
        (u32 keyboard.head % 1024) 0 (u32 (s32 (keyboard.head + 1)) % 1024) = 1
      rw [u32_succ_mod, Function.update_of_ne hne, Function.update_of_ne hne, hnext]) (by decide)
  have hlaw := (h 4096 _ _ _ (by decide) withKeyboard_self
    (((htr.snoc hpush).snoc hpop).snoc hpop')).1
  simp only [List.map_append, hevents, List.map_cons, List.map_nil] at hlaw
  exact absurd hlaw (by decide +kernel)

end BimbleOS
