import BimbleOS.Config
import BimbleOS.Lib.Word
import BimbleOS.Lib.Window

/-!
# `Disk.Streamer` — `disk/disk.c` and `disk/streamer.c`

The disk is the function that `disk_read_block` reads sectors through; the streamer reads byte ranges,
one sector at a time. A stream is its position, a byte offset on the disk, and what a call writes to
`out` is the list of the bytes it writes, in order. `none` stands for what C leaves undefined: signed
overflow, and a read in front of the sector buffer.

The main result, `diskstreamerRead_spec`, covers every range that starts at a non-negative position: it
is read exactly, as long as its end is a possible position.
-/

namespace BimbleOS

open CWord Window

/-- A disk, as `disk_read_block` shows it: byte `i` of the sector at `lba`. -/
structure Disk where
  sector : Int → Nat → BitVec 8

/-- `disk_read_block` for one sector of the one disk there is: it always succeeds. -/
def diskReadBlock (disk : Disk) (lba : Int) : Int × (Nat → BitVec 8) :=
  (0, disk.sector lba)

/-- What a streamer call leaves: its result, the stream's position, the bytes written to `out`, and the
    sectors it asked for. -/
structure StreamRead where
  res : Int
  pos : Int
  out : List (BitVec 8) := []
  asked : List Int := []
  deriving DecidableEq, Repr

/-- `diskstreamer_read`; each call of the recursion costs one unit of fuel. -/
def diskstreamerReadLoop (disk : Disk) : Nat → Int → Int → Option StreamRead
  | 0, _, _ => none
  | fuel + 1, pos, total =>
      let sector := pos.tdiv bimbleosSectorSize
      let offset := pos.tmod bimbleosSectorSize
      (checked (offset + total)).bind fun last =>
        let overflow := decide ((bimbleosSectorSize : Int) ≤ last)
        let totalToRead := if overflow then total - (last - bimbleosSectorSize) else total
        let (res, buff) := diskReadBlock disk sector
        if res < 0 then some { res := res, pos := pos, asked := [sector] }
        else if offset < 0 ∧ 0 < totalToRead then none
        else
          let out := window buff offset.toNat totalToRead.toNat
          (checked (pos + totalToRead)).bind fun pos' =>
            if overflow then
              (diskstreamerReadLoop disk fuel pos' (total - totalToRead)).map fun r =>
                { r with out := out ++ r.out, asked := sector :: r.asked }
            else some { res := res, pos := pos', out := out, asked := [sector] }

/-- `diskstreamer_read` on a stream at `pos`: every call but the first asks for fewer bytes, so `total`
    calls and one more are enough. -/
def diskstreamerRead (disk : Disk) (pos total : Int) : Option StreamRead :=
  diskstreamerReadLoop disk (total.toNat + 1) pos total

/-! ## Reading a range -/

/-- The byte at a disk position. -/
def Disk.byte (disk : Disk) (p : Nat) : BitVec 8 := disk.sector (p / 512 : Nat) (p % 512)

/-- The sectors from the one that holds `pos` to the one that holds `pos + total`. -/
def sectorsAsked (pos total : Nat) : List Int :=
  window (fun i => (i : Int)) (pos / 512) ((pos % 512 + total) / 512 + 1)

/-- Reading `total` bytes at `pos`, when the range ends at a possible position. -/
def rangeRead (disk : Disk) (pos total : Nat) : StreamRead where
  res := 0
  pos := pos + total
  out := window disk.byte pos total
  asked := sectorsAsked pos total

variable {disk : Disk} {pos total fuel : Nat}

/-- Inside one sector the buffer holds the disk's bytes. -/
theorem window_sector {n : Nat} (h : pos % 512 + n ≤ 512) :
    window (disk.sector (pos / 512 : Nat)) (pos % 512) n = window disk.byte pos n := by
  refine window_inj.mpr fun i hi => ?_
  unfold Disk.byte
  rw [show (pos + i) / 512 = pos / 512 by omega, show (pos + i) % 512 = pos % 512 + i by omega]

/-- A range that stays below the sector end needs that sector only. -/
theorem rangeRead_last (h : pos % 512 + total < 512) :
    rangeRead disk pos total = {
      res := 0
      pos := pos + total
      out := window (disk.sector (pos / 512 : Nat)) (pos % 512) total
      asked := [((pos / 512 : Nat) : Int)] } := by
  unfold rangeRead sectorsAsked
  rw [window_sector (Nat.le_of_lt h), show (pos % 512 + total) / 512 = 0 by omega]
  rfl

/-- A range that reaches the sector end is the rest of the sector, followed by the range behind it. -/
theorem rangeRead_step {n : Nat} (hn : pos % 512 + n = 512) (h : n ≤ total) :
    rangeRead disk pos total = { rangeRead disk (pos + n) (total - n) with
      out := window (disk.sector (pos / 512 : Nat)) (pos % 512) n
        ++ (rangeRead disk (pos + n) (total - n)).out
      asked := ((pos / 512 : Nat) : Int) :: (rangeRead disk (pos + n) (total - n)).asked } := by
  have hout : window disk.byte pos total
      = window disk.byte pos n ++ window disk.byte (pos + n) (total - n) := by
    rw [← window_add, Nat.add_sub_cancel' h]
  have hasked : sectorsAsked pos total
      = ((pos / 512 : Nat) : Int) :: sectorsAsked (pos + n) (total - n) := by
    unfold sectorsAsked
    rw [show (pos % 512 + total) / 512 = ((pos + n) % 512 + (total - n)) / 512 + 1 by omega,
      window_succ, show pos / 512 + 1 = (pos + n) / 512 by omega]
  have hpos : ((pos + n : Nat) : Int) + (total - n : Nat) = pos + total := by omega
  rw [window_sector (Nat.le_of_eq hn)]
  unfold rangeRead
  rw [hout, hasked, hpos]

/-- **The streamer reads every range exactly**, as long as the range ends at a possible position. The
    induction follows the recursion: one call per sector. -/
theorem diskstreamerReadLoop_spec (hfuel : total < fuel) (htotal : pos % 512 + total < 2147483648) :
    diskstreamerReadLoop disk fuel pos total
      = if pos + total < 2147483648 then some (rangeRead disk pos total) else none := by
  induction fuel generalizing pos total with
  | zero => exact absurd hfuel (Nat.not_lt_zero _)
  | succ fuel ih =>
      have hsector : (pos : Int).tdiv 512 = (pos / 512 : Nat) := rfl
      have hoffset : (pos : Int).tmod 512 = (pos % 512 : Nat) := rfl
      have hlast : checked (((pos % 512 : Nat) : Int) + total) = some ((pos % 512 + total : Nat) : Int) := by
        rw [checked_of_range (by omega) (by omega)]
        rfl
      have hres : ¬ (0 : Int) < 0 := by omega
      have hbuff : ∀ n : Int, ¬ (((pos % 512 : Nat) : Int) < 0 ∧ 0 < n) := fun n h => by omega
      have hsize : (bimbleosSectorSize : Int) = 512 := rfl
      unfold diskstreamerReadLoop
      simp only [hsize, hsector, hoffset, hlast, Option.bind_some, diskReadBlock, hres, hbuff, if_false]
      by_cases hover : 512 ≤ pos % 512 + total
      · -- the rest of this sector, then the recursive call
        obtain ⟨n, hn⟩ : ∃ n, pos % 512 + n = 512 := ⟨512 - pos % 512, by omega⟩
        have hflag : decide ((512 : Int) ≤ ((pos % 512 + total : Nat) : Int)) = true :=
          decide_eq_true (by omega)
        have hread : (total : Int) - (((pos % 512 + total : Nat) : Int) - 512) = (n : Nat) := by omega
        have hrest : (total : Int) - (n : Nat) = (total - n : Nat) := by omega
        simp only [hflag, if_true, hread, hrest, Int.toNat_natCast]
        by_cases hpos : pos + n < 2147483648
        · have hnext : checked ((pos : Int) + (n : Nat)) = some ((pos + n : Nat) : Int) := by
            rw [checked_of_range (by omega) (by omega)]
            rfl
          rw [hnext, Option.bind_some, ih (by omega) (by omega),
            show pos + n + (total - n) = pos + total by omega]
          by_cases hend : pos + total < 2147483648
          · rw [if_pos hend, if_pos hend, Option.map_some, rangeRead_step hn (by omega)]
          · rw [if_neg hend, if_neg hend]
            rfl
        · rw [checked_of_ge (by omega), if_neg (by omega)]
          rfl
      · -- the range ends inside this sector
        have hflag : decide ((512 : Int) ≤ ((pos % 512 + total : Nat) : Int)) = false :=
          decide_eq_false (by omega)
        simp only [hflag, Bool.false_eq_true, if_false, Int.toNat_natCast]
        by_cases hpos : pos + total < 2147483648
        · rw [checked_of_range (by omega) (by omega), if_pos hpos, rangeRead_last (by omega)]
          rfl
        · rw [checked_of_ge (by omega), if_neg hpos]
          rfl

theorem diskstreamerRead_spec (htotal : total + 512 ≤ 2147483648) :
    diskstreamerRead disk pos total
      = if pos + total < 2147483648 then some (rangeRead disk pos total) else none :=
  diskstreamerReadLoop_spec (Nat.lt_succ_self _) (by omega)

/-- **A read delivers the bytes of its range**, in order, and leaves the stream behind them. No call of the
    recursion is one too many: any fuel above `total` gives the same. -/
theorem diskstreamerRead_range (disk : Disk) (pos total : Int) (hpos : 0 ≤ pos) (htotal : 0 ≤ total)
    (hend : pos + total < 2147483648 - 512) :
    ∃ r, diskstreamerRead disk pos total = some r ∧
      (∀ fuel, total.toNat < fuel → diskstreamerReadLoop disk fuel pos total = some r) ∧
      r.res = 0 ∧ r.pos = pos + total ∧ r.out.length = total.toNat ∧
      ∀ i, i < total.toNat → r.out[i]? = some (disk.byte (pos.toNat + i)) := by
  obtain ⟨p, rfl⟩ := Int.eq_ofNat_of_zero_le hpos
  obtain ⟨n, rfl⟩ := Int.eq_ofNat_of_zero_le htotal
  have hread : ∀ fuel, n < fuel → diskstreamerReadLoop disk fuel p n = some (rangeRead disk p n) := by
    intro fuel hfuel
    rw [diskstreamerReadLoop_spec hfuel (by omega), if_pos (by omega)]
  refine ⟨rangeRead disk p n, hread _ (Nat.lt_succ_self n), hread, rfl, rfl, length_window, ?_⟩
  intro i hi
  exact getElem?_window hi

/-- The rest of a sector, up to its end exactly. -/
theorem diskstreamerRead_range_boundary : ∃ r, diskstreamerRead ⟨fun _ i => BitVec.ofNat 8 i⟩ 500 12 = some r ∧
    (∀ fuel, (12 : Int).toNat < fuel → diskstreamerReadLoop ⟨fun _ i => BitVec.ofNat 8 i⟩ fuel 500 12 = some r) ∧
    r.res = 0 ∧ r.pos = 500 + 12 ∧ r.out.length = (12 : Int).toNat ∧
    ∀ i, i < (12 : Int).toNat →
      r.out[i]? = some ((⟨fun _ i => BitVec.ofNat 8 i⟩ : Disk).byte ((500 : Int).toNat + i)) :=
  diskstreamerRead_range ⟨fun _ i => BitVec.ofNat 8 i⟩ 500 12 (by decide) (by decide) (by decide)

/-! ## The sectors that are asked for -/

/-- A sector that holds a byte of the range. -/
def InRange (pos total sector : Int) : Prop := ∃ p, pos ≤ p ∧ p < pos + total ∧ p / bimbleosSectorSize = sector

/-- The call returns, and asks for no sector but those that hold a byte of the range. -/
def AsksInRange (disk : Disk) (pos total : Int) : Prop :=
  ∃ r, diskstreamerRead disk pos total = some r ∧ ∀ sector ∈ r.asked, InRange pos total sector

section Asked

/-- The last sector that is asked for is the one that holds the byte behind the range. -/
theorem sectorsAsked_inRange_iff (htotal : 1 ≤ total) :
    (∀ sector ∈ sectorsAsked pos total, InRange pos total sector) ↔ (pos + total) % 512 ≠ 0 := by
  have hsize : (bimbleosSectorSize : Int) = 512 := rfl
  unfold sectorsAsked InRange
  rw [forall_mem_window, hsize]
  constructor
  · intro h hend
    obtain ⟨p, hlo, hhi, hsector⟩ := h ((pos % 512 + total) / 512) (Nat.lt_succ_self _)
    omega
  · intro hend i hi
    rcases Nat.eq_zero_or_pos i with rfl | hi₀
    · exact ⟨pos, Int.le_refl _, by omega, by omega⟩
    · -- a later sector is met at its first byte
      exact ⟨(512 * (pos / 512 + i) : Nat), by omega, by omega, by omega⟩

/-- A range that is too long for an `int` from the first sector on. -/
theorem diskstreamerRead_long (h : 2147483648 ≤ pos % 512 + total) : diskstreamerRead disk pos total = none := by
  have hoffset : (pos : Int).tmod 512 = (pos % 512 : Nat) := rfl
  have hsize : (bimbleosSectorSize : Int) = 512 := rfl
  unfold diskstreamerRead diskstreamerReadLoop
  simp only [hsize, hoffset]
  rw [checked_of_ge (by omega)]
  rfl

/-- **Which sectors are read**: none too many exactly when the range does not end where a sector does, for every range
    that ends at a possible position. -/
theorem diskstreamerRead_asksInRange_iff (disk : Disk) (pos total : Int) (hpos : 0 ≤ pos) (htotal : 1 ≤ total) :
    AsksInRange disk pos total ↔ (pos + total) % bimbleosSectorSize ≠ 0 ∧ pos + total < 2147483648 := by
  obtain ⟨p, rfl⟩ := Int.eq_ofNat_of_zero_le hpos
  obtain ⟨n, rfl⟩ := Int.eq_ofNat_of_zero_le (Int.le_trans Int.one_nonneg htotal)
  have hsize : (bimbleosSectorSize : Int) = 512 := rfl
  unfold AsksInRange
  rw [hsize]
  by_cases hlong : p % 512 + n < 2147483648
  · have hread := @diskstreamerReadLoop_spec disk p n (n + 1) (Nat.lt_succ_self n) hlong
    have hcall : diskstreamerRead disk p n = diskstreamerReadLoop disk (n + 1) p n := rfl
    rw [hcall, hread]
    split
    · rename_i hend
      have hasked := @sectorsAsked_inRange_iff p n (by omega)
      constructor
      · rintro ⟨r, hr, hall⟩
        cases hr
        have hboundary := hasked.mp hall
        omega
      · rintro ⟨hboundary, _⟩
        exact ⟨_, rfl, hasked.mpr (by omega)⟩
    · rename_i hend
      constructor
      · rintro ⟨r, hr, _⟩
        cases hr
      · rintro ⟨_, hlt⟩
        omega
  · rw [diskstreamerRead_long (by omega)]
    constructor
    · rintro ⟨r, hr, _⟩
      cases hr
    · rintro ⟨_, hlt⟩
      omega

theorem diskstreamerRead_asksInRange_iff_boot :
    AsksInRange ⟨fun _ _ => 0⟩ 0 62 ↔ ((0 : Int) + 62) % bimbleosSectorSize ≠ 0 ∧ (0 : Int) + 62 < 2147483648 :=
  diskstreamerRead_asksInRange_iff ⟨fun _ _ => 0⟩ 0 62 (by decide) (by decide)

/-- Reading the first sector asks for the second one. -/
theorem diskstreamerRead_asks_behind : ¬ ∀ (disk : Disk) (pos total : Int), 0 ≤ pos → 1 ≤ total →
    pos + total < 2147483648 → AsksInRange disk pos total := by
  intro h
  obtain ⟨r, hread, hasked⟩ := h ⟨fun _ _ => 0⟩ 0 512 (by decide) (by decide) (by decide)
  have hrange := @diskstreamerRead_spec ⟨fun _ _ => 0⟩ 0 512 (by decide)
  rw [if_pos (by decide)] at hrange
  obtain rfl := Option.some.inj (hread.symm.trans hrange)
  obtain ⟨p, hlo, hhi, hsector⟩ := hasked 1 (by decide)
  unfold bimbleosSectorSize at hsector
  omega

end Asked

end BimbleOS
