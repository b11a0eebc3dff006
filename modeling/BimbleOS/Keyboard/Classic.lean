import BimbleOS.Fs.Fat16Item
import BimbleOS.Keyboard.Keyboard

/-!
# `Keyboard.Classic` — `keyboard/classic.c`

Every interrupt of the keyboard brings one scan code. A key that is released is passed over, the caps lock key changes
the state of caps lock, and the character of any other key goes to the process that has the focus. The check of the
index lets one code through that has no entry: 0x52 reads the byte behind the table.

What a process reads is the text that was typed while it had the focus, whatever the order of interrupts and calls of
`keyboard_pop`, as long as every character finds room (`classicKeyboard_delivers`).
-/

namespace BimbleOS

open CWord Exec Transition

/-- `keyboard_scan_set_one`. -/
def keyboardScanSetOne : List (BitVec 8) := [
  0x00, 0x1B, 0x31, 0x32, 0x33, 0x34, 0x35,
  0x36, 0x37, 0x38, 0x39, 0x30, 0x2D, 0x3D,
  0x08, 0x09, 0x51, 0x57, 0x45, 0x52, 0x54,
  0x59, 0x55, 0x49, 0x4F, 0x50, 0x5B, 0x5D,
  0x0D, 0x00, 0x41, 0x53, 0x44, 0x46, 0x47,
  0x48, 0x4A, 0x4B, 0x4C, 0x3B, 0x27, 0x60,
  0x00, 0x5C, 0x5A, 0x58, 0x43, 0x56, 0x42,
  0x4E, 0x4D, 0x2C, 0x2E, 0x2F, 0x00, 0x2A,
  0x00, 0x20, 0x00, 0x00, 0x00, 0x00,
  0x00, 0x00, 0x00, 0x00, 0x00, 0x00,
  0x00, 0x37, 0x38, 0x39, 0x2D, 0x34, 0x35,
  0x36, 0x2B, 0x31, 0x32, 0x33, 0x30, 0x2E]

def classicKeyboardCapslock : BitVec 8 := 0x3A
def classicKeyboardKeyReleased : BitVec 8 := 0x80
def keyboardCapsLockOn : Int := 1
def keyboardCapsLockOff : Int := 0

/-- What the keyboard works on: the kernel, and `capslock_state` of `classic_keyboard`. -/
structure KeyboardState where
  kernel : Kernel
  capslockState : Int := keyboardCapsLockOff

/-- A computation of the kernel. -/
def KeyboardState.liftKernel {α : Type} (x : KM α) : StateT KeyboardState (Except Fault) α := fun s =>
  match x s.kernel with
  | .ok (a, k) => .ok (a, { s with kernel := k })
  | .error e => .error e

/-- `classic_keyboard_scancode_to_char`; the table has no entry at its own size. -/
def classicKeyboardScancodeToChar (capslockState : Int) (scancode : BitVec 8) : Except Fault (BitVec 8) :=
  if keyboardScanSetOne.length < scancode.toNat then .ok 0
  else
    match keyboardScanSetOne[scancode.toNat]? with
    | none => .error .outOfBounds
    | some c =>
        if capslockState = keyboardCapsLockOff ∧ 0x41 ≤ c.toInt ∧ c.toInt ≤ 0x5A then .ok (c + 32) else .ok c

/-- `classic_keyboard_handle_interrupt`, with the code that it reads from the keyboard. -/
def classicKeyboardHandleInterrupt (scancode : BitVec 8) : StateT KeyboardState (Except Fault) Unit := do
  if scancode &&& classicKeyboardKeyReleased ≠ 0 then return ()
  else
    if scancode = classicKeyboardCapslock then
      modify fun s => { s with capslockState :=
        if s.capslockState = keyboardCapsLockOn then keyboardCapsLockOff else keyboardCapsLockOn }
    let s ← get
    let c ← (classicKeyboardScancodeToChar s.capslockState scancode : Except Fault (BitVec 8))
    if c ≠ 0 then KeyboardState.liftKernel (keyboardPush c) else return ()

/-- A series of interrupts of the keyboard. -/
def classicKeyboardInterrupts : List (BitVec 8) → StateT KeyboardState (Except Fault) Unit
  | [] => return ()
  | scancode :: codes => do
      classicKeyboardHandleInterrupt scancode
      classicKeyboardInterrupts codes

/-! ## What is typed -/

/-- The value of `capslock_state`. -/
def capsState (caps : Bool) : Int := if caps then keyboardCapsLockOn else keyboardCapsLockOff

/-- Caps lock once a key was pressed. -/
def capsAfter (caps : Bool) (scancode : BitVec 8) : Bool :=
  if scancode = classicKeyboardCapslock then !caps else caps

/-- The character on a key; without caps lock a letter is small. -/
def keyChar (caps : Bool) (scancode : BitVec 8) : BitVec 8 :=
  if caps then keyboardScanSetOne.getD scancode.toNat 0
  else tolower (keyboardScanSetOne.getD scancode.toNat 0)

/-- What a key types: nothing when it is released, and nothing without a character. -/
def keyText (caps : Bool) (scancode : BitVec 8) : List (BitVec 8) :=
  if 0x80 ≤ scancode.toNat ∨ keyChar caps scancode = 0 then [] else [keyChar caps scancode]

/-- What happens at the keyboard, as a process sees it: a key is pressed or released while the process has the focus or
    while it does not, its task calls `keyboard_pop`, or anything else goes on. -/
inductive ClassicEvent where
  | key (focus : Bool) (scancode : BitVec 8)
  | pop (c : BitVec 8)
  | other
  deriving DecidableEq

namespace ClassicEvent

/-- Caps lock after an event. -/
def caps (caps : Bool) : ClassicEvent → Bool
  | key _ scancode => capsAfter caps scancode
  | _ => caps

/-- What an event types for the process. -/
def text (caps : Bool) : ClassicEvent → List (BitVec 8)
  | key true scancode => keyText (capsAfter caps scancode) scancode
  | _ => []

/-- The answer of `keyboard_pop`. -/
def answer : ClassicEvent → Option (BitVec 8)
  | pop c => some c
  | _ => none

end ClassicEvent

/-- Caps lock after a history. -/
def capsNow (caps : Bool) (es : List ClassicEvent) : Bool := es.foldl ClassicEvent.caps caps

/-- The text that was typed for the process. -/
def typedText : Bool → List ClassicEvent → List (BitVec 8)
  | _, [] => []
  | caps, e :: es => e.text caps ++ typedText (e.caps caps) es

/-- The characters that the process has read. -/
def readText (es : List ClassicEvent) : List (BitVec 8) := (es.filterMap ClassicEvent.answer).filter fun c => c ≠ 0

/-! ## One interrupt -/

section Interrupt

variable {k : Kernel} {caps : Bool} {c scancode : BitVec 8} {codes text : List (BitVec 8)}

/-- The kernel after `keyboard_push`. -/
def Kernel.pushed (k : Kernel) (c : BitVec 8) : Kernel :=
  if k.currentProcess = 0 then k
  else k.withKeyboard k.currentProcess ((k.process k.currentProcess).keyboard.put
    (keyboardGetTailIndex (k.process k.currentProcess)) c)

theorem keyboardPush_pushed (hc : c ≠ 0) : keyboardPush c k = .ok ((), k.pushed c) := by
  unfold Kernel.pushed
  split
  · rename_i hnone
    unfold keyboardPush
    rw [get_bind]
    dsimp only
    rw [if_pos hnone]
    rfl
  · rename_i hsome
    exact keyboardPush_eq hsome rfl hc

theorem capsAfter_released (h : 0x80 ≤ scancode.toNat) : capsAfter caps scancode = caps := by
  unfold capsAfter
  rw [if_neg]
  rintro rfl
  exact absurd h (by decide)

/-- The two ways to make a letter small. -/
theorem small_letter (hcaps : caps = false) : (if capsState caps = keyboardCapsLockOff ∧ 0x41 ≤ c.toInt ∧ c.toInt ≤ 0x5A
    then (.ok (c + 32) : Except Fault (BitVec 8)) else .ok c) = .ok (tolower c) := by
  subst hcaps
  have hlt := c.isLt
  unfold tolower
  rw [BitVec.toInt_eq_toNat_cond]
  by_cases hletter : 65 ≤ c.toNat ∧ c.toNat ≤ 90
  · rw [if_pos hletter, if_pos ⟨rfl, by rw [if_pos (by omega)]; omega, by rw [if_pos (by omega)]; omega⟩]
  · rw [if_neg hletter, if_neg]
    rintro ⟨_, hlo, hhi⟩
    split at hlo <;> omega

/-- The table has the character of every key but one. -/
theorem classicKeyboardScancodeToChar_eq (h : scancode ≠ 0x52) :
    classicKeyboardScancodeToChar (capsState caps) scancode = .ok (keyChar caps scancode) := by
  have hsize : keyboardScanSetOne.length = 82 := rfl
  have hne : scancode.toNat ≠ 82 := fun heq => h (BitVec.eq_of_toNat_eq heq)
  unfold classicKeyboardScancodeToChar keyChar
  rw [List.getD_eq_getElem?_getD]
  by_cases hlong : keyboardScanSetOne.length < scancode.toNat
  · rw [if_pos hlong, List.getElem?_eq_none (by omega), Option.getD_none, show tolower 0 = 0 from rfl, ite_self]
  · rw [if_neg hlong, List.getElem?_eq_getElem (by omega), Option.getD_some]
    generalize keyboardScanSetOne[scancode.toNat] = c
    dsimp only
    cases caps
    · exact small_letter rfl
    · exact if_neg fun hoff => absurd hoff.1 (by decide)

theorem classicKeyboardScancodeToChar_behind {state : Int} :
    classicKeyboardScancodeToChar state 0x52 = .error .outOfBounds := rfl

/-- The kernel after a text was pushed. -/
def Kernel.pushedAll (k : Kernel) (text : List (BitVec 8)) : Kernel := text.foldl Kernel.pushed k

/-- **One interrupt.** The key types its text and moves caps lock, except for the one whose entry is behind the table.
    -/
theorem classicKeyboardHandleInterrupt_eq : classicKeyboardHandleInterrupt scancode ⟨k, capsState caps⟩ =
    if scancode = 0x52 then .error .outOfBounds
    else .ok ((), ⟨k.pushedAll (keyText (capsAfter caps scancode) scancode), capsState (capsAfter caps scancode)⟩) := by
  have hbit : scancode &&& classicKeyboardKeyReleased ≠ 0 ↔ 0x80 ≤ scancode.toNat := by
    revert scancode
    decide
  unfold classicKeyboardHandleInterrupt
  by_cases hreleased : 0x80 ≤ scancode.toNat
  · have hne : scancode ≠ 0x52 := by
      rintro rfl
      exact absurd hreleased (by decide)
    rw [if_pos (hbit.mpr hreleased), if_neg hne, capsAfter_released hreleased, keyText, if_pos (Or.inl hreleased)]
    rfl
  rw [if_neg fun h => hreleased (hbit.mp h)]
  -- what `keyboard_push` gets, once caps lock has its new state
  have hpress : (do
      let s ← get
      let c ← (classicKeyboardScancodeToChar s.capslockState scancode : Except Fault (BitVec 8))
      if c ≠ 0 then KeyboardState.liftKernel (keyboardPush c) else return () : StateT KeyboardState (Except Fault) Unit)
        ⟨k, capsState (capsAfter caps scancode)⟩ = if scancode = 0x52 then .error .outOfBounds
    else .ok ((), ⟨k.pushedAll (keyText (capsAfter caps scancode) scancode), capsState (capsAfter caps scancode)⟩) := by
    generalize capsAfter caps scancode = caps
    rw [get_bind]
    by_cases hbehind : scancode = 0x52
    · rw [if_pos hbehind, hbehind]
      rfl
    rw [if_neg hbehind]
    have hchar : ((classicKeyboardScancodeToChar (capsState caps) scancode : Except Fault (BitVec 8)) :
        StateT KeyboardState (Except Fault) (BitVec 8)) ⟨k, capsState caps⟩
          = .ok (keyChar caps scancode, ⟨k, capsState caps⟩) := by
      rw [classicKeyboardScancodeToChar_eq hbehind]
      rfl
    rw [bind_of_ok hchar, keyText]
    by_cases hzero : keyChar caps scancode = 0
    · rw [if_neg (not_not.mpr hzero), if_pos (Or.inr hzero)]
      rfl
    · rw [if_pos hzero, if_neg (not_or.mpr ⟨hreleased, hzero⟩)]
      unfold KeyboardState.liftKernel
      dsimp only
      rw [keyboardPush_pushed hzero]
      rfl
  rw [← hpress]
  unfold capsAfter
  by_cases hcaps : scancode = classicKeyboardCapslock
  · rw [if_pos hcaps, if_pos hcaps]
    cases caps
    · rfl
    · rfl
  · rw [if_neg hcaps, if_neg hcaps]

end Interrupt

/-! ## A series of interrupts -/

section Series

variable {k : Kernel} {caps : Bool} {codes text text' : List (BitVec 8)} {e : ClassicEvent} {es es' : List ClassicEvent}

theorem typedText_append : typedText caps (es ++ es') = typedText caps es ++ typedText (capsNow caps es) es' := by
  induction es generalizing caps with
  | nil => rfl
  | cons e es ih =>
      show e.text caps ++ typedText (e.caps caps) (es ++ es') = (e.text caps ++ typedText (e.caps caps) es) ++ _
      rw [ih, List.append_assoc]
      rfl

theorem typedText_snoc : typedText caps (es ++ [e]) = typedText caps es ++ e.text (capsNow caps es) := by
  rw [typedText_append]
  exact congrArg _ (List.append_nil _)

theorem capsNow_snoc : capsNow caps (es ++ [e]) = e.caps (capsNow caps es) := List.foldl_append

/-- Caps lock has changed as often as its key was pressed. -/
theorem capsNow_count : capsNow caps (codes.map (ClassicEvent.key true))
    = xor caps (decide (codes.count classicKeyboardCapslock % 2 = 1)) := by
  induction codes generalizing caps with
  | nil => exact (Bool.xor_false caps).symm
  | cons code codes ih =>
      show capsNow (capsAfter caps code) (codes.map _) = _
      rw [ih, List.count_cons]
      unfold capsAfter
      by_cases hcaps : code = classicKeyboardCapslock
      · rw [if_pos hcaps, if_pos (by rw [hcaps]; exact beq_self_eq_true _)]
        rcases Nat.mod_two_eq_zero_or_one (codes.count classicKeyboardCapslock) with h | h
        · rw [decide_eq_false (by omega), decide_eq_true (by omega)]
          cases caps <;> rfl
        · rw [decide_eq_true (by omega), decide_eq_false (by omega)]
          cases caps <;> rfl
      · rw [if_neg hcaps, if_neg (by simpa using hcaps), Nat.add_zero]

theorem pushedAll_append : k.pushedAll (text ++ text') = (k.pushedAll text).pushedAll text' := List.foldl_append

/-- **A series of interrupts** pushes the text that its codes type, caps lock changing with every press of its key; it
    is handled exactly when the code without an entry is not in it. -/
theorem classicKeyboardInterrupts_eq (codes : List (BitVec 8)) (k : Kernel) (caps : Bool) :
    classicKeyboardInterrupts codes ⟨k, capsState caps⟩ =
      if 0x52 ∈ codes then .error .outOfBounds
      else .ok ((), ⟨k.pushedAll (typedText caps (codes.map (ClassicEvent.key true))),
        capsState (xor caps (decide (codes.count classicKeyboardCapslock % 2 = 1)))⟩) := by
  rw [← capsNow_count]
  induction codes generalizing k caps with
  | nil => rfl
  | cons code codes ih =>
      have hone := @classicKeyboardHandleInterrupt_eq k caps code
      unfold classicKeyboardInterrupts
      by_cases hfirst : code = 0x52
      · rw [if_pos hfirst] at hone
        rw [bind_of_error hone, if_pos (List.mem_cons.mpr (Or.inl hfirst.symm))]
      · rw [if_neg hfirst] at hone
        have hmem : 0x52 ∈ code :: codes ↔ 0x52 ∈ codes :=
          List.mem_cons.trans (or_iff_right fun heq => hfirst heq.symm)
        rw [bind_of_ok hone, ih]
        simp only [hmem]
        rw [← pushedAll_append]
        rfl

end Series

/-! ## What is read -/

/-- A step of the kernel as the keyboard of the process `p` sees it. -/
inductive ClassicStep (p : Nat) : KeyboardState → ClassicEvent → KeyboardState → Prop where
  | key {s s' : KeyboardState} {scancode : BitVec 8} : classicKeyboardHandleInterrupt scancode s = .ok ((), s') →
      ClassicStep p s (.key (decide (s.kernel.currentProcess = p)) scancode) s'
  | pop {s : KeyboardState} {k' : Kernel} {c : BitVec 8} : s.kernel.tasks.currentTask ≠ 0 →
      (s.kernel.tasks.task s.kernel.tasks.currentTask).process = p → keyboardPop s.kernel = .ok (c, k') →
      ClassicStep p s (.pop c) { s with kernel := k' }
  | other {s s' : KeyboardState} : (s'.kernel.process p).keyboard = (s.kernel.process p).keyboard →
      s'.capslockState = s.capslockState → ClassicStep p s .other s'

/-- The characters that were typed for the process were read, in their order, or are in its buffer; and a call of
    `keyboard_pop` that brought nothing came when everything had been read. -/
structure Delivered (p : Nat) (caps : Bool) (es : List ClassicEvent) (s : KeyboardState) : Prop where
  state : s.capslockState = capsState (capsNow caps es)
  unread : ∃ unread, readText es ++ unread = typedText caps es ∧ (s.kernel.process p).keyboard.Unread unread
  waits : ∀ es', es' ++ [.pop 0] <+: es → readText es' = typedText caps es'

/-- At most 1024 characters wait to be read, at any time. -/
def HasRoom (caps : Bool) (es : List ClassicEvent) : Prop :=
  ∀ es', es' <+: es → (typedText caps es').length ≤ (readText es').length + 1024

section Delivery

variable {p : Nat} {k : Kernel} {caps focus : Bool} {c scancode : BitVec 8} {e : ClassicEvent}
  {es es' : List ClassicEvent} {s s' : KeyboardState} {unread text : List (BitVec 8)}

theorem readText_snoc (hanswer : e.answer = none) : readText (es ++ [e]) = readText es := by
  unfold readText
  rw [List.filterMap_append, List.filterMap_cons_none hanswer, List.filterMap_nil, List.append_nil]

theorem readText_pop : readText (es ++ [.pop c]) = readText es ++ if c = 0 then [] else [c] := by
  unfold readText
  rw [List.filterMap_append, List.filter_append]
  refine congrArg _ ?_
  rw [List.filterMap_cons_some (show ClassicEvent.answer (.pop c) = some c from rfl), List.filterMap_nil]
  by_cases hc : c = 0
  · rw [if_pos hc, List.filter_cons_of_neg (by simpa using hc)]
    rfl
  · rw [if_neg hc, List.filter_cons_of_pos (by simpa using hc)]
    rfl

/-- What the events before the last one have is kept, unless the last one is a call that brings nothing. -/
theorem waits_snoc (h : ∀ es', es' ++ [.pop 0] <+: es → readText es' = typedText caps es')
    (hlast : e = .pop 0 → readText es = typedText caps es) :
    ∀ es', es' ++ [.pop 0] <+: es ++ [e] → readText es' = typedText caps es' := by
  intro es' hprefix
  rcases List.prefix_concat_iff.mp hprefix with heq | hprefix
  · obtain ⟨rfl, htail⟩ := List.append_inj' heq rfl
    exact hlast (List.singleton_inj.mp htail).symm
  · exact h es' hprefix

/-- A key that is typed while another process has the focus, or none, leaves the buffer alone. -/
theorem pushedAll_other (hp : k.currentProcess ≠ p) :
    ((k.pushedAll text).process p).keyboard = (k.process p).keyboard := by
  induction text generalizing k with
  | nil => rfl
  | cons c text ih =>
      have hone : ((k.pushed c).process p).keyboard = (k.process p).keyboard ∧ (k.pushed c).currentProcess ≠ p := by
        unfold Kernel.pushed
        split
        · exact ⟨rfl, hp⟩
        · exact ⟨congrArg Process.keyboard (Function.update_of_ne hp.symm ..), hp⟩
      exact (ih hone.2).trans hone.1

/-- A text of one character at most is put behind the others. -/
theorem pushedAll_unread (hp : p ≠ 0) (hfocus : k.currentProcess = p) (h : (k.process p).keyboard.Unread unread)
    (htext : keyText caps scancode = text) (hroom : unread.length + text.length ≤ 1024) :
    ((k.pushedAll text).process p).keyboard.Unread (unread ++ text) := by
  subst htext
  unfold keyText at hroom ⊢
  split
  · rw [List.append_nil]
    exact h
  · rename_i hsome
    rw [if_neg hsome] at hroom
    subst hfocus
    show ((k.pushed _).process k.currentProcess).keyboard.Unread _
    unfold Kernel.pushed
    rw [if_neg hp, withKeyboard_self]
    exact h.put hroom (not_or.mp hsome).2

/-- The interrupt of a key. -/
theorem Delivered.key (hp : p ≠ 0) (h : Delivered p caps es s)
    (hroom : HasRoom caps (es ++ [.key (decide (s.kernel.currentProcess = p)) scancode]))
    (hrun : classicKeyboardHandleInterrupt scancode s = .ok ((), s')) :
    Delivered p caps (es ++ [.key (decide (s.kernel.currentProcess = p)) scancode]) s' := by
  obtain ⟨k, state⟩ := s
  obtain ⟨hcaps, ⟨unread, htyped, hunread⟩, hwaits⟩ := h
  have hstate : state = capsState (capsNow caps es) := hcaps
  subst hstate
  rw [classicKeyboardHandleInterrupt_eq] at hrun
  split at hrun
  · cases hrun
  cases hrun
  have hlast := hroom _ List.prefix_rfl
  rw [typedText_snoc, readText_snoc rfl, ← htyped] at hlast
  simp only [List.length_append] at hlast
  refine ⟨?_, ?_, waits_snoc hwaits (by rintro ⟨⟩)⟩
  · rw [capsNow_snoc]
    rfl
  · rw [typedText_snoc, readText_snoc rfl, ← htyped]
    simp only [List.append_assoc]
    refine ⟨_, rfl, ?_⟩
    by_cases hfocus : k.currentProcess = p
    · rw [decide_eq_true hfocus] at hlast ⊢
      exact pushedAll_unread hp hfocus hunread rfl (by rw [ClassicEvent.text] at hlast; omega)
    · have hnone : ClassicEvent.text (capsNow caps es) (.key false scancode) = [] := rfl
      rw [decide_eq_false hfocus, hnone, List.append_nil]
      show ((k.pushedAll _).process p).keyboard.Unread unread
      rw [pushedAll_other hfocus]
      exact hunread

/-- A call of `keyboard_pop` takes the oldest character, if there is one. -/
theorem Delivered.pop (hp : p ≠ 0) (h : Delivered p caps es s) (htask : s.kernel.tasks.currentTask ≠ 0)
    (hprocess : (s.kernel.tasks.task s.kernel.tasks.currentTask).process = p)
    (hrun : keyboardPop s.kernel = .ok (c, k)) :
    Delivered p caps (es ++ [.pop c]) { s with kernel := k } := by
  obtain ⟨hcaps, ⟨unread, htyped, hunread⟩, hwaits⟩ := h
  have hsame : typedText caps (es ++ [.pop c]) = typedText caps es := by
    rw [typedText_snoc]
    exact List.append_nil _
  rw [keyboardPop_eq hp htask hprocess] at hrun
  cases unread with
  | nil =>
      have hzero := (hunread.ring.front_eq_empty_iff (by decide)).mpr rfl
      rw [if_pos hzero, hzero] at hrun
      cases hrun
      rw [List.append_nil] at htyped
      refine ⟨by rw [capsNow_snoc]; exact hcaps, ⟨[], ?_, hunread⟩, waits_snoc hwaits fun _ => htyped⟩
      rw [readText_pop, if_pos rfl, hsame, List.append_nil, List.append_nil]
      exact htyped
  | cons x rest =>
      have hfront := hunread.ring.front_cons
      have hne : x ≠ 0 := hunread.ring.solid x List.mem_cons_self
      rw [hfront, if_neg hne] at hrun
      cases hrun
      refine ⟨by rw [capsNow_snoc]; exact hcaps, ⟨rest, ?_, ?_⟩, waits_snoc hwaits fun heq => ?_⟩
      · rw [readText_pop, if_neg hne, hsame, List.append_assoc]
        exact htyped
      · rw [withKeyboard_self]
        exact hunread.take
      · exact absurd (ClassicEvent.pop.inj heq) hne

end Delivery

/-- The run: the induction is on its events. -/
theorem classicKeyboard_delivered {p : Nat} {caps : Bool} {s₀ s : KeyboardState}
    {tr : List (KeyboardState × ClassicEvent)} (hp : p ≠ 0) (hempty : (s₀.kernel.process p).keyboard = {})
    (hcaps : s₀.capslockState = capsState caps) (h : Trace (ClassicStep p) s₀ tr s)
    (hroom : HasRoom caps (tr.map Prod.snd)) : Delivered p caps (tr.map Prod.snd) s := by
  induction h with
  | nil =>
      refine ⟨hcaps, ⟨[], rfl, ?_⟩, fun es' hprefix => ?_⟩
      · rw [hempty]
        exact ⟨Ring.Holds.nil fun _ => rfl, rfl⟩
      · exact absurd (List.prefix_nil.mp hprefix) (List.append_ne_nil_of_right_ne_nil es' (List.cons_ne_nil _ _))
  | @snoc tr s s' e _ hstep ih =>
      rw [List.map_append] at hroom ⊢
      have hprev := ih fun es' hes' => hroom es' (hes'.trans (List.prefix_append _ _))
      cases hstep with
      | key hrun => exact hprev.key hp hroom hrun
      | pop htask hprocess hrun => exact hprev.pop hp htask hprocess hrun
      | other hkeyboard hstate =>
          obtain ⟨hcaps', ⟨unread, htyped, hunread⟩, hwaits⟩ := hprev
          refine ⟨?_, ⟨unread, ?_, by rwa [hkeyboard]⟩, waits_snoc hwaits (by rintro ⟨⟩)⟩
          · show s'.capslockState = capsState (capsNow caps (_ ++ [ClassicEvent.other]))
            rw [capsNow_snoc, hstate, hcaps']
            rfl
          · show readText (_ ++ [ClassicEvent.other]) ++ unread = typedText caps (_ ++ [ClassicEvent.other])
            rw [readText_snoc rfl, typedText_snoc, htyped]
            exact (List.append_nil _).symm

/-- **What is typed is what is read**: while at most 1024 characters wait, every character that is typed with the
    focus on a process, as caps lock then was, reaches its task once and in order, whatever the order of interrupts
    and calls; a call brings nothing only when everything has been read. -/
theorem classicKeyboard_delivers {p : Nat} {caps : Bool} {s₀ s : KeyboardState}
    {tr : List (KeyboardState × ClassicEvent)} (hp : p ≠ 0) (hempty : (s₀.kernel.process p).keyboard = {})
    (hcaps : s₀.capslockState = capsState caps) (h : Trace (ClassicStep p) s₀ tr s)
    (hroom : HasRoom caps (tr.map Prod.snd)) : readText (tr.map Prod.snd) <+: typedText caps (tr.map Prod.snd) ∧
      ∀ es, es ++ [.pop 0] <+: tr.map Prod.snd → readText es = typedText caps es := by
  obtain ⟨_, ⟨unread, htyped, _⟩, hwaits⟩ := classicKeyboard_delivered hp hempty hcaps h hroom
  exact ⟨⟨unread, htyped⟩, hwaits⟩

/-! A process at 4096 that has the focus; its task runs. -/

def typingState (keyboard : KeyboardBuffer) : KeyboardState where
  kernel := keyKernel.withKeyboard 4096 keyboard

section Examples

variable {c scancode : BitVec 8}

theorem typingState_key (keyboard : KeyboardBuffer) (hne : scancode ≠ 0x52) (hcaps : capsAfter false scancode = false)
    (htext : keyText false scancode = [c]) : ClassicStep 4096 (typingState keyboard) (.key true scancode)
      (typingState (keyboard.put (u32 keyboard.tail % 1024) c)) := by
  refine ClassicStep.key (p := 4096) (s := typingState keyboard) ?_
  have hrun := @classicKeyboardHandleInterrupt_eq (keyKernel.withKeyboard 4096 keyboard) false scancode
  rw [if_neg hne, hcaps, htext] at hrun
  refine hrun.trans ?_
  have hpushed : (keyKernel.withKeyboard 4096 keyboard).pushed c
      = keyKernel.withKeyboard 4096 (keyboard.put (u32 keyboard.tail % 1024) c) := by
    have hfocus : ¬ (keyKernel.withKeyboard 4096 keyboard).currentProcess = 0 := (by decide : ¬ 4096 = 0)
    unfold Kernel.pushed
    rw [if_neg hfocus]
    show (keyKernel.withKeyboard 4096 keyboard).withKeyboard 4096
      (((keyKernel.withKeyboard 4096 keyboard).process 4096).keyboard.put
        (u32 ((keyKernel.withKeyboard 4096 keyboard).process 4096).keyboard.tail % 1024) c) = _
    rw [withKeyboard_self]
    simp [Kernel.withKeyboard]
  show Except.ok ((), ({ kernel := (keyKernel.withKeyboard 4096 keyboard).pushed c } : KeyboardState)) = _
  rw [hpushed]
  rfl

theorem typingState_pop (keyboard : KeyboardBuffer) (hfront : keyboard.buffer (u32 keyboard.head % 1024) = c)
    (hc : c ≠ 0) : ClassicStep 4096 (typingState keyboard) (.pop c)
      (typingState (keyboard.take (u32 keyboard.head % 1024))) := by
  have htask : (keyKernel.withKeyboard 4096 keyboard).tasks.currentTask ≠ 0 := (by decide : 8192 ≠ 0)
  refine ClassicStep.pop (s := typingState keyboard) htask rfl ?_
  show keyboardPop (keyKernel.withKeyboard 4096 keyboard) = _
  rw [keyboardPop_eq (p := 4096) (by decide) htask rfl, withKeyboard_self, hfront, if_neg hc]
  simp [Kernel.withKeyboard]

/-- The events of typing `a` and return, and of reading both. -/
def typingEvents : List ClassicEvent := [.key true 0x1E, .key true 0x1C, .pop 0x61, .pop 0x0D]

theorem typing_trace : ∃ tr s, Trace (ClassicStep 4096) (typingState {}) tr s ∧ tr.map Prod.snd = typingEvents :=
  ⟨_, _, (((Trace.nil.snoc (typingState_key (c := 0x61) {} (by decide) (by decide) (by decide))).snoc
    (typingState_key (c := 0x0D) _ (by decide) (by decide) (by decide))).snoc
    (typingState_pop (c := 0x61) _ (by decide) (by decide))).snoc
    (typingState_pop (c := 0x0D) _ (by decide) (by decide)), rfl⟩

theorem typingEvents_hasRoom : HasRoom false typingEvents := by
  have hall : ∀ es' ∈ typingEvents.inits, (typedText false es').length ≤ (readText es').length + 1024 := by decide
  exact fun es' hprefix => hall es' ((List.mem_inits es' typingEvents).mpr hprefix)

end Examples

theorem classicKeyboard_delivers_letter : readText typingEvents <+: typedText false typingEvents ∧
    ∀ es, es ++ [.pop 0] <+: typingEvents → readText es = typedText false es := by
  obtain ⟨tr, s, htrace, hevents⟩ := typing_trace
  have hdelivers := @classicKeyboard_delivers 4096 false _ s tr (by decide)
    (withKeyboard_self : ((keyKernel.withKeyboard 4096 {}).process 4096).keyboard = {}) rfl htrace
    (by rw [hevents]; exact typingEvents_hasRoom)
  rwa [hevents] at hdelivers

end BimbleOS
