import BimbleOS.Lib.Bytes
import Mathlib.Order.Basic

/-!
# `Lib.AtaDrive` — a disk drive behind its ports

Reading from a drive in PIO mode. What is behind the ports is a parameter (`Device`); a `PioDrive` is one that keeps to
the protocol of the command READ SECTORS: once the command is given to an idle drive, the status says for each sector
when its data is there, and its 256 words are taken from the data port. A drive takes its time: the status is read any
number of times before the data is there. Nothing is said of a drive that is doing something else.

`takeSectors_of_left` says what a reader gets that waits for each sector and then takes its words, `takeSectors_none`
that it waits for ever for a sector that does not come.
-/

namespace Ata

open Bytes

/-- What is behind the ports of a channel. -/
structure Device (σ : Type) where
  outb : Nat → BitVec 8 → σ → σ
  inb : Nat → σ → BitVec 8 × σ
  inw : Nat → σ → BitVec 16 × σ

/-- The registers that a command is written to. -/
structure CommandBlock where
  sectorCount : BitVec 8 := 0
  lbaLow : BitVec 8 := 0
  lbaMid : BitVec 8 := 0
  lbaHigh : BitVec 8 := 0
  device : BitVec 8 := 0
  deriving DecidableEq, Repr

namespace CommandBlock

def write (port : Nat) (v : BitVec 8) (r : CommandBlock) : CommandBlock :=
  match port with
  | 0x1F2 => { r with sectorCount := v }
  | 0x1F3 => { r with lbaLow := v }
  | 0x1F4 => { r with lbaMid := v }
  | 0x1F5 => { r with lbaHigh := v }
  | 0x1F6 => { r with device := v }
  | _ => r

/-- The address of the first sector. -/
def sector (r : CommandBlock) : Nat :=
  r.lbaLow.toNat + 256 * r.lbaMid.toNat + 65536 * r.lbaHigh.toNat + 16777216 * (r.device.toNat % 16)

/-- The number of sectors; zero means 256. -/
def count (r : CommandBlock) : Nat := if r.sectorCount = 0 then 256 else r.sectorCount.toNat

end CommandBlock

/-- How far a READ SECTORS has come. -/
inductive Phase where
  | idle
  /-- The data of `sector` is not there yet; `left` sectors are to come, this one included. -/
  | busy (sector left : Nat)
  /-- The data is there, and `word` words of it have been taken. -/
  | data (sector left word : Nat)
  deriving DecidableEq, Repr

/-- The phase before the first of `left` sectors. -/
def Phase.before (sector left : Nat) : Phase := if left = 0 then .idle else .busy sector left

/-- Word `word` of a sector, its first byte the low one. -/
def dataWord (image : Nat → Nat → BitVec 8) (sector word : Nat) : BitVec 16 :=
  BitVec.ofNat 16 ((image sector (2 * word)).toNat + 256 * (image sector (2 * word + 1)).toNat)

/-- A drive that reads in PIO mode: byte `i` of sector `n` is `image n i`. It is the first drive of its channel, and
    there is no second one. The data request bit of the status is `8`. -/
structure PioDrive (σ : Type) extends Device σ where
  image : Nat → Nat → BitVec 8
  /-- The number of its sectors. -/
  capacity : Nat
  block : σ → CommandBlock
  /-- What it is doing, if it is reading or idle. -/
  phase : σ → Option Phase
  /-- A bound on the number of times its status is read before data is there. -/
  waits : σ → Nat
  outb_block : ∀ {s port}, phase s = some .idle → 0x1F2 ≤ port → port ≤ 0x1F6 → ∀ v,
    phase (outb port v s) = some .idle ∧ block (outb port v s) = (block s).write port v
  /-- READ SECTORS in LBA mode: all sectors come, or only some of those in front of the end of the drive. -/
  read_sectors : ∀ {s}, phase s = some .idle → (block s).device &&& 0x50 = 0x40 → ∃ n ≤ (block s).count,
    (n = (block s).count ↔ (block s).sector + (block s).count ≤ capacity) ∧
      phase (outb 0x1F7 0x20 s) = some (Phase.before (block s).sector n)
  /-- The same for the second drive. -/
  read_absent : ∀ {s}, phase s = some .idle → (block s).device &&& 0x50 = 0x50 →
    phase (outb 0x1F7 0x20 s) = some .idle
  status_idle : ∀ {s}, phase s = some .idle →
    (inb 0x1F7 s).1 &&& 8 = 0 ∧ phase (inb 0x1F7 s).2 = some .idle
  status_busy : ∀ {s sector left}, phase s = some (.busy sector left) →
    (inb 0x1F7 s).1 &&& 8 = 0 ∧ phase (inb 0x1F7 s).2 = some (.busy sector left) ∧ waits (inb 0x1F7 s).2 < waits s ∨
      (inb 0x1F7 s).1 &&& 8 ≠ 0 ∧ phase (inb 0x1F7 s).2 = some (.data sector left 0)
  data_word : ∀ {s sector left word}, phase s = some (.data sector left word) →
    (inw 0x1F0 s).1 = dataWord image sector word ∧ phase (inw 0x1F0 s).2
      = some (if word + 1 < 256 then .data sector left (word + 1) else Phase.before (sector + 1) (left - 1))

variable {σ : Type}

/-! ## A reader -/

section Code

variable (d : Device σ)

/-- Read the status until the data is there. -/
def waitForData : Nat → σ → Option σ
  | 0, _ => none
  | polls + 1, s =>
      let (c, s') := d.inb 0x1F7 s
      if c &&& 8 = 0 then waitForData polls s' else some s'

/-- Take words, and store each behind the one before. -/
def takeWords : Nat → Nat → σ → Mem → σ × Mem
  | 0, _, s, m => (s, m)
  | n + 1, ptr, s, m =>
      let (w, s') := d.inw 0x1F0 s
      takeWords n (ptr + 2) s' (storeBytes m ptr [w.setWidth 8, (w >>> 8).setWidth 8])

/-- One sector after the other. -/
def takeSectors (polls : Nat) : Nat → Nat → σ → Mem → Option (σ × Mem)
  | 0, _, s, m => some (s, m)
  | n + 1, ptr, s, m =>
      (waitForData d polls s).bind fun s' =>
        let (s'', m') := takeWords d 256 ptr s' m
        takeSectors polls n (ptr + 512) s'' m'

theorem takeWords_succ {n ptr : Nat} {s : σ} {m : Mem} : takeWords d (n + 1) ptr s m
    = takeWords d n (ptr + 2) (d.inw 0x1F0 s).2
        (storeBytes m ptr [(d.inw 0x1F0 s).1.setWidth 8, ((d.inw 0x1F0 s).1 >>> 8).setWidth 8]) := rfl

end Code

section Reader

variable {d : PioDrive σ} {s s' : σ} {m m' : Mem} {polls polls' n ptr sector left word : Nat}

/-! ### Waiting -/

/-- More patience changes nothing. -/
theorem waitForData_mono {dev : Device σ} (h : waitForData dev polls s = some s') (hle : polls ≤ polls') :
    waitForData dev polls' s = some s' := by
  induction polls generalizing s polls' with
  | zero => exact absurd h.symm (Option.some_ne_none s')
  | succ polls ih =>
      obtain ⟨rest, rfl⟩ : ∃ rest, polls' = rest + 1 := ⟨polls' - 1, by omega⟩
      unfold waitForData at h ⊢
      by_cases hdrq : (dev.inb 0x1F7 s).1 &&& 8 = 0
      · simp only [hdrq, if_true] at h ⊢
        exact ih h (by omega)
      · simp only [hdrq, if_false] at h ⊢
        exact h

/-- A reader that goes on has the data. -/
theorem waitForData_data (hphase : d.phase s = some (.busy sector left))
    (h : waitForData d.toDevice polls s = some s') : d.phase s' = some (.data sector left 0) := by
  induction polls generalizing s with
  | zero => exact absurd h.symm (Option.some_ne_none s')
  | succ polls ih =>
      unfold waitForData at h
      rcases d.status_busy hphase with ⟨hdrq, hbusy, _⟩ | ⟨hdrq, hdata⟩
      · simp only [hdrq, if_true] at h
        exact ih hbusy h
      · simp only [hdrq, if_false] at h
        rw [← Option.some.inj h]
        exact hdata

/-- A reader that is patient enough goes on. -/
theorem waitForData_some (hphase : d.phase s = some (.busy sector left)) :
    ∃ s', waitForData d.toDevice (d.waits s + 1) s = some s' := by
  generalize hwaits : d.waits s = waits
  induction waits using Nat.strong_induction_on generalizing s with
  | _ waits ih =>
      unfold waitForData
      rcases d.status_busy hphase with ⟨hdrq, hbusy, hlt⟩ | ⟨hdrq, _⟩
      · obtain ⟨s', hs'⟩ := ih _ (hwaits ▸ hlt) hbusy rfl
        simp only [hdrq, if_true]
        exact ⟨s', waitForData_mono hs' (by omega)⟩
      · simp only [hdrq, if_false]
        exact ⟨_, rfl⟩

/-- A drive that has nothing to give is waited for in vain. -/
theorem waitForData_idle (hphase : d.phase s = some .idle) : waitForData d.toDevice polls s = none := by
  induction polls generalizing s with
  | zero => rfl
  | succ polls ih =>
      obtain ⟨hdrq, hidle⟩ := d.status_idle hphase
      unfold waitForData
      simp only [hdrq, if_true]
      exact ih hidle

/-! ### Taking words -/

/-- A word in memory. -/
theorem storeWord_eq {image : Nat → Nat → BitVec 8} {a : Nat} :
    storeBytes m ptr [(dataWord image sector word).setWidth 8, (dataWord image sector word >>> 8).setWidth 8] a
      = if ptr ≤ a ∧ a < ptr + 2 then image sector (2 * word + (a - ptr)) else m a := by
  have hlow : (dataWord image sector word).setWidth 8 = image sector (2 * word) := by
    apply BitVec.eq_of_toNat_eq
    simp only [dataWord, BitVec.toNat_setWidth, BitVec.toNat_ofNat]
    omega
  have hhigh : (dataWord image sector word >>> 8).setWidth 8 = image sector (2 * word + 1) := by
    apply BitVec.eq_of_toNat_eq
    simp only [dataWord, BitVec.toNat_setWidth, BitVec.toNat_ushiftRight, BitVec.toNat_ofNat, Nat.shiftRight_eq_div_pow]
    omega
  have hlen : [(dataWord image sector word).setWidth 8, (dataWord image sector word >>> 8).setWidth 8].length = 2 := rfl
  unfold storeBytes
  rw [hlen, hlow, hhigh]
  by_cases ha : ptr ≤ a ∧ a < ptr + 2
  · rw [if_pos ha, if_pos ha]
    obtain rfl | rfl : a = ptr ∨ a = ptr + 1 := by omega
    · simp
    · simp
  · rw [if_neg ha, if_neg ha]

/-- `n` words from the one that comes next: they end the sector when it has no more. -/
theorem takeWords_spec (hphase : d.phase s = some (.data sector left word)) (hpos : 0 < n) (hn : word + n ≤ 256) :
    d.phase (takeWords d.toDevice n ptr s m).1
        = some (if word + n < 256 then .data sector left (word + n) else Phase.before (sector + 1) (left - 1)) ∧
      ∀ a, (takeWords d.toDevice n ptr s m).2 a
        = if ptr ≤ a ∧ a < ptr + 2 * n then d.image sector (2 * word + (a - ptr)) else m a := by
  induction n generalizing s ptr m word with
  | zero => exact absurd hpos (Nat.lt_irrefl 0)
  | succ n ih =>
      obtain ⟨hword, hnext⟩ := d.data_word hphase
      rw [takeWords_succ, hword]
      have hstored : ∀ a, storeBytes m ptr
          [(dataWord d.image sector word).setWidth 8, (dataWord d.image sector word >>> 8).setWidth 8] a
            = if ptr ≤ a ∧ a < ptr + 2 then d.image sector (2 * word + (a - ptr)) else m a := fun a => storeWord_eq
      generalize storeBytes m ptr
        [(dataWord d.image sector word).setWidth 8, (dataWord d.image sector word >>> 8).setWidth 8] = m₁ at hstored
      by_cases hlast : n = 0
      · subst hlast
        exact ⟨hnext, hstored⟩
      · rw [if_pos (by omega)] at hnext
        obtain ⟨hstate, hmem⟩ := @ih _ m₁ (ptr + 2) (word + 1) hnext (by omega) (by omega)
        refine ⟨hstate.trans ?_, fun a => (hmem a).trans ?_⟩
        · rw [Nat.add_right_comm, Nat.add_assoc word n 1]
        · rw [hstored]
          by_cases hrest : ptr + 2 ≤ a ∧ a < ptr + 2 + 2 * n
          · rw [if_pos hrest, if_pos (by omega), show 2 * (word + 1) + (a - (ptr + 2)) = 2 * word + (a - ptr) by omega]
          · rw [if_neg hrest]
            by_cases hfirst : ptr ≤ a ∧ a < ptr + 2
            · rw [if_pos hfirst, if_pos (by omega)]
            · rw [if_neg hfirst, if_neg (by omega)]

/-- A whole sector. -/
theorem takeWords_sector (hphase : d.phase s = some (.data sector left 0)) :
    d.phase (takeWords d.toDevice 256 ptr s m).1 = some (Phase.before (sector + 1) (left - 1)) ∧
      ∀ a, (takeWords d.toDevice 256 ptr s m).2 a
        = if ptr ≤ a ∧ a < ptr + 512 then d.image sector (a - ptr) else m a := by
  obtain ⟨hstate, hmem⟩ := @takeWords_spec _ d s m 256 ptr sector left 0 hphase (by decide) (by decide)
  rw [if_neg (by decide)] at hstate
  refine ⟨hstate, fun a => (hmem a).trans ?_⟩
  rw [Nat.mul_zero, Nat.zero_add]

/-! ### Taking sectors -/

theorem Phase.before_pos (h : 0 < left) : Phase.before sector left = .busy sector left := by
  unfold Phase.before
  rw [if_neg (by omega)]

/-- A range of sectors in memory. -/
structure SectorsAt (image : Nat → Nat → BitVec 8) (lba n : Nat) (m : Mem) (buf : Nat) (m' : Mem) : Prop where
  stored : ∀ i, i < 512 * n → m' (buf + i) = image (lba + i / 512) (i % 512)
  frame : ∀ a, a < buf ∨ buf + 512 * n ≤ a → m' a = m a

theorem SectorsAt.nil {image : Nat → Nat → BitVec 8} : SectorsAt image sector 0 m ptr m :=
  ⟨fun i hi => absurd hi (by omega), fun _ _ => rfl⟩

/-- The bytes of one sector, and of those behind it. -/
theorem stored_cons {image : Nat → Nat → BitVec 8} (hfirst : ∀ i, i < 512 → m' (ptr + i) = image sector i)
    (hrest : ∀ i, i < 512 * n → m' (ptr + 512 + i) = image (sector + 1 + i / 512) (i % 512)) :
    ∀ i, i < 512 * (n + 1) → m' (ptr + i) = image (sector + i / 512) (i % 512) := by
  intro i hi
  by_cases hlt : i < 512
  · rw [hfirst i hlt, Nat.div_eq_of_lt hlt, Nat.mod_eq_of_lt hlt, Nat.add_zero]
  · have hstored := hrest (i - 512) (by omega)
    rw [show ptr + 512 + (i - 512) = ptr + i by omega] at hstored
    rw [hstored, show sector + 1 + (i - 512) / 512 = sector + i / 512 by omega,
      show (i - 512) % 512 = i % 512 by omega]

/-- One sector, and those behind it. -/
theorem SectorsAt.cons {image : Nat → Nat → BitVec 8} {m₁ : Mem}
    (hfirst : ∀ a, m₁ a = if ptr ≤ a ∧ a < ptr + 512 then image sector (a - ptr) else m a)
    (hrest : SectorsAt image (sector + 1) n m₁ (ptr + 512) m') : SectorsAt image sector (n + 1) m ptr m' where
  stored := by
    refine stored_cons (fun i hi => ?_) hrest.stored
    rw [hrest.frame _ (by omega), hfirst, if_pos (by omega), Nat.add_sub_cancel_left]
  frame := fun a ha => by
    rw [hrest.frame a (by omega), hfirst, if_neg (by omega)]

/-- **The sectors that are left can be taken**: a reader that asks often enough gets them all. -/
theorem takeSectors_of_left (hphase : d.phase s = some (Phase.before sector left)) (hn : n ≤ left) :
    ∃ least s' m', (∀ polls, least ≤ polls → takeSectors d.toDevice polls n ptr s m = some (s', m')) ∧
      d.phase s' = some (Phase.before (sector + n) (left - n)) ∧ SectorsAt d.image sector n m ptr m' := by
  induction n generalizing s m ptr sector left with
  | zero => exact ⟨0, s, m, fun _ _ => rfl, hphase, SectorsAt.nil⟩
  | succ n ih =>
      rw [Phase.before_pos (by omega)] at hphase
      obtain ⟨s₁, hwait⟩ := waitForData_some hphase
      obtain ⟨hnext, hmem⟩ := @takeWords_sector _ d s₁ m ptr sector left (waitForData_data hphase hwait)
      obtain ⟨least, s', m', hrun, hstate, hsectors⟩ := @ih _ (takeWords d.toDevice 256 ptr s₁ m).2 (ptr + 512)
        (sector + 1) (left - 1) hnext (by omega)
      refine ⟨max least (d.waits s + 1), s', m', fun polls hpolls => ?_, ?_, hsectors.cons hmem⟩
      · unfold takeSectors
        rw [waitForData_mono hwait (le_trans (le_max_right _ _) hpolls), Option.bind_some]
        exact hrun polls (le_trans (le_max_left _ _) hpolls)
      · rw [hstate, Nat.add_assoc, Nat.add_comm 1 n, Nat.sub_sub, Nat.add_comm 1 n]

/-- A reader that asks for more than is left waits for ever. -/
theorem takeSectors_none (hphase : d.phase s = some (Phase.before sector left)) (hn : left < n) :
    takeSectors d.toDevice polls n ptr s m = none := by
  induction n generalizing s m ptr sector left with
  | zero => exact absurd hn (Nat.not_lt_zero _)
  | succ n ih =>
      unfold takeSectors
      cases hwait : waitForData d.toDevice polls s with
      | none => rfl
      | some s₁ =>
          by_cases hleft : left = 0
          · rw [hleft] at hphase
            rw [waitForData_idle hphase] at hwait
            exact absurd hwait.symm (Option.some_ne_none s₁)
          · rw [Phase.before_pos (by omega)] at hphase
            obtain ⟨hnext, _⟩ := @takeWords_sector _ d s₁ m ptr sector left (waitForData_data hphase hwait)
            rw [Option.bind_some]
            exact ih hnext (by omega)

end Reader

/-! ## A drive of this kind -/

section Simple

/-- The state of a drive that does nothing but read. -/
structure State where
  block : CommandBlock := {}
  phase : Phase := .idle
  /-- Reads of the status until the data is there. -/
  wait : Nat := 0
  deriving DecidableEq, Repr

variable (image : Nat → Nat → BitVec 8) (capacity : Nat) (delay : Nat → Nat)

/-- READ SECTORS. -/
def State.start (s : State) : State :=
  if s.block.device &&& 0x50 = 0x40 then
    { s with
      phase := Phase.before s.block.sector (min s.block.count (capacity - s.block.sector))
      wait := delay s.block.sector }
  else s

/-- A drive whose status is read `delay n` times before sector `n` is there. -/
def simpleDevice : Device State where
  outb := fun port v s => if port = 0x1F7 then (if v = 0x20 then s.start capacity delay else s)
    else { s with block := s.block.write port v }
  inb := fun _ s => match s.phase with
    | .idle => (0x50, s)
    | .busy sector left => if s.wait = 0 then (0x58, { s with phase := .data sector left 0 })
        else (0x80, { s with wait := s.wait - 1 })
    | .data _ _ _ => (0x58, s)
  inw := fun _ s => match s.phase with
    | .data sector left word => (dataWord image sector word, { s with
        phase := if word + 1 < 256 then .data sector left (word + 1) else Phase.before (sector + 1) (left - 1)
        wait := delay (sector + 1) })
    | _ => (0, s)

theorem CommandBlock.count_pos (r : CommandBlock) : 0 < r.count := by
  unfold CommandBlock.count
  split
  · decide
  · rename_i hne
    exact Nat.pos_of_ne_zero fun h => hne (BitVec.eq_of_toNat_eq h)

def simpleDrive : PioDrive State where
  toDevice := simpleDevice image capacity delay
  image := image
  capacity := capacity
  block := State.block
  phase := fun s => some s.phase
  waits := State.wait
  outb_block := fun {s port} hidle hlo hhi v => by
    have hne : port ≠ 0x1F7 := by omega
    simp only [simpleDevice, if_neg hne]
    exact ⟨hidle, trivial⟩
  read_sectors := fun {s} _ hselects => by
    have hcount := s.block.count_pos
    refine ⟨min s.block.count (capacity - s.block.sector), Nat.min_le_left _ _, by omega, ?_⟩
    simp only [simpleDevice, State.start, if_true, if_pos hselects]
  read_absent := fun {s} hidle habsent => by
    have hne : s.block.device &&& 0x50 ≠ 0x40 := by
      rw [habsent]
      decide
    simp only [simpleDevice, State.start, if_true, if_neg hne]
    exact hidle
  status_idle := fun {s} hidle => by
    have hphase : s.phase = .idle := Option.some.inj hidle
    simp only [simpleDevice, hphase]
    exact ⟨by decide, trivial⟩
  status_busy := fun {s sector left} hbusy => by
    have hphase : s.phase = .busy sector left := Option.some.inj hbusy
    simp only [simpleDevice, hphase]
    by_cases hwait : s.wait = 0
    · rw [if_pos hwait]
      exact Or.inr ⟨(by decide : (0x58 : BitVec 8) &&& 8 ≠ 0), rfl⟩
    · rw [if_neg hwait]
      exact Or.inl ⟨(by decide : (0x80 : BitVec 8) &&& 8 = 0), rfl, by show s.wait - 1 < s.wait; omega⟩
  data_word := fun {s sector left word} hdata => by
    have hphase : s.phase = .data sector left word := Option.some.inj hdata
    simp only [simpleDevice, hphase]
    exact ⟨trivial, trivial⟩

end Simple

end Ata
