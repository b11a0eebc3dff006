import BimbleOS.Disk.Streamer
import BimbleOS.Lib.AtaDrive

/-!
# `Disk.Ata` — `disk_read_sector` and the boot sector's `ata_lba_read`

The two drivers over any drive that reads in PIO mode (`Ata.PioDrive`). From an idle drive the kernel's one gets every
range of at most 256 sectors that the drive has, however long it takes (`diskReadSector_reads`); it waits for ever
exactly for more sectors, for sectors behind the end of the drive, or for the drive that is not there
(`diskReadSector_returns_iff`). So the streamer over the driver is the streamer over `diskReadBlock`
(`diskstreamerReadAta_eq`). The driver of the boot sector is the same up to its loop, which keeps its counter on the
stack (`ataLbaRead_loads`).

A wait is bounded by the number of times the status is read (`polls`).
-/

namespace BimbleOS

open Ata Bytes CWord Window

variable {σ : Type}

section Drivers

variable (d : Device σ) (polls : Nat)

/-- `disk_read_sector`, from its command on; its loops are those of `takeSectors`. -/
def diskReadSector (lba total : BitVec 32) (buf : Nat) (s : σ) (m : Mem) : Option (Int × σ × Mem) :=
  let s := d.outb 0x1F6 ((lba.sshiftRight 24 ||| 0xE0).setWidth 8) s
  let s := d.outb 0x1F2 (total.setWidth 8) s
  let s := d.outb 0x1F3 ((lba &&& 0xff).setWidth 8) s
  let s := d.outb 0x1F4 ((lba.sshiftRight 8).setWidth 8) s
  let s := d.outb 0x1F5 ((lba.sshiftRight 16).setWidth 8) s
  let s := d.outb 0x1F7 0x20 s
  (takeSectors d polls total.toInt.toNat buf s m).map fun (s, m) => (0, s, m)

/-- `.next_sector`: `ecx` waits on the stack while the words of a sector are taken. -/
def ataNextSector : Nat → BitVec 32 → Nat → Nat → σ → Mem → Option (σ × Mem)
  | 0, _, _, _, _, _ => none
  | fuel + 1, ecx, edi, esp, s, m =>
      let m := store32 m (esp - 4) ecx
      (waitForData d polls s).bind fun s =>
        let (s, m) := takeWords d 256 edi s m
        -- `pop ecx`, and `loop` counts down first
        let ecx := load32 m (esp - 4) - 1
        if ecx = 0 then some (s, m) else ataNextSector fuel ecx (edi + 512) esp s m

/-- `ata_lba_read`, with the return address on top of the stack, which it goes back to. -/
def ataLbaRead (fuel : Nat) (eax ecx : BitVec 32) (edi esp : Nat) (s : σ) (m : Mem) : Option (BitVec 32 × σ × Mem) :=
  let ebx := eax
  let s := d.outb 0x1F6 ((eax >>> 24 ||| 0xE0).setWidth 8) s
  let s := d.outb 0x1F2 (ecx.setWidth 8) s
  let s := d.outb 0x1F3 (ebx.setWidth 8) s
  let s := d.outb 0x1F4 ((ebx >>> 8).setWidth 8) s
  let s := d.outb 0x1F5 ((ebx >>> 16).setWidth 8) s
  let s := d.outb 0x1f7 0x20 s
  (ataNextSector d polls fuel ecx edi esp s m).map fun (s, m) => (load32 m esp, s, m)

/-- `load32`: the kernel, from sector 1 on to one megabyte; `back` is the address behind the call. -/
def load32Kernel (fuel esp : Nat) (back : BitVec 32) (s : σ) (m : Mem) : Option (BitVec 32 × σ × Mem) :=
  ataLbaRead d polls fuel 1 100 0x00100000 (esp - 4) s (store32 m (esp - 4) back)

/-- `diskstreamer_read`, with its sectors from the driver; `buff n` is where the sector buffer of a call lies. -/
def diskstreamerReadAta (buff : Nat → Nat) : Nat → Int → Int → σ → Mem → Option (StreamRead × σ × Mem)
  | 0, _, _, _, _ => none
  | fuel + 1, pos, total, s, m =>
      let sector := pos.tdiv bimbleosSectorSize
      let offset := pos.tmod bimbleosSectorSize
      (checked (offset + total)).bind fun last =>
        let overflow := decide ((bimbleosSectorSize : Int) ≤ last)
        let totalToRead := if overflow then total - (last - bimbleosSectorSize) else total
        (diskReadSector d polls (BitVec.ofInt 32 sector) 1 (buff fuel) s m).bind fun (res, s, m) =>
          if res < 0 then some ({ res := res, pos := pos, asked := [sector] }, s, m)
          else if offset < 0 ∧ 0 < totalToRead then none
          else
            let out := window (fun i => m (buff fuel + i)) offset.toNat totalToRead.toNat
            (checked (pos + totalToRead)).bind fun pos' =>
              if overflow then
                (diskstreamerReadAta buff fuel pos' (total - totalToRead) s m).map fun (r, s, m) =>
                  ({ r with out := out ++ r.out, asked := sector :: r.asked }, s, m)
              else some ({ res := res, pos := pos', out := out, asked := [sector] }, s, m)

end Drivers

/-- The disk that the file system sees. -/
def driveDisk (image : Nat → Nat → BitVec 8) : Disk where
  sector := fun lba i => image lba.toNat i

/-! ## The command -/

section Command

variable {d : PioDrive σ} {lba total : BitVec 32} {s : σ}

theorem setWidth_sshiftRight (k : Nat) (hk : k ≤ 24) : (lba.sshiftRight k).setWidth 8 = (lba >>> k).setWidth 8 := by
  ext i hi
  simp [BitVec.getLsbD_sshiftRight, show k + i < 32 by omega]
  omega

theorem toNat_byte (k : Nat) : ((lba >>> k).setWidth 8).toNat = lba.toNat / 2 ^ k % 256 := by
  rw [BitVec.toNat_setWidth, BitVec.toNat_ushiftRight, Nat.shiftRight_eq_div_pow]

theorem device_lba (x : BitVec 8) : (x ||| 0xE0).toNat % 16 = x.toNat % 16 := by
  revert x
  decide

theorem device_selected (x : BitVec 8) : (x ||| 0xE0) &&& 0x50 = if x.toNat / 16 % 2 = 0 then 0x40 else 0x50 := by
  revert x
  decide

/-- The drive once the command is given, its registers in the order in which the drivers write them. -/
def commanded (d : Device σ) (lba total : BitVec 32) (s : σ) : σ :=
  let s := d.outb 0x1F6 ((lba >>> 24).setWidth 8 ||| 0xE0) s
  let s := d.outb 0x1F2 (total.setWidth 8) s
  let s := d.outb 0x1F3 (lba.setWidth 8) s
  let s := d.outb 0x1F4 ((lba >>> 8).setWidth 8) s
  let s := d.outb 0x1F5 ((lba >>> 16).setWidth 8) s
  d.outb 0x1F7 0x20 s

/-- The command as the drive finds it. -/
def commandBlock (lba total : BitVec 32) : CommandBlock where
  sectorCount := total.setWidth 8
  lbaLow := lba.setWidth 8
  lbaMid := (lba >>> 8).setWidth 8
  lbaHigh := (lba >>> 16).setWidth 8
  device := (lba >>> 24).setWidth 8 ||| 0xE0

theorem commandBlock_sector : (commandBlock lba total).sector = lba.toNat % 268435456 := by
  show (lba.setWidth 8).toNat + 256 * ((lba >>> 8).setWidth 8).toNat + 65536 * ((lba >>> 16).setWidth 8).toNat
    + 16777216 * (((lba >>> 24).setWidth 8 ||| 0xE0).toNat % 16) = _
  rw [toNat_byte, toNat_byte, device_lba, toNat_byte, BitVec.toNat_setWidth]
  omega

theorem commandBlock_count :
    (commandBlock lba total).count = if total.toNat % 256 = 0 then 256 else total.toNat % 256 := by
  have hcount : total.setWidth 8 = 0 ↔ total.toNat % 256 = 0 := by
    rw [← BitVec.toNat_inj, BitVec.toNat_setWidth]
    rfl
  show (if total.setWidth 8 = 0 then 256 else (total.setWidth 8).toNat) = _
  rw [BitVec.toNat_setWidth]
  exact if_congr hcount rfl rfl

/-- Bit 28 of the address reaches the bit that selects the drive. -/
theorem commandBlock_device : (commandBlock lba total).device &&& 0x50
    = if lba.toNat / 268435456 % 2 = 0 then 0x40 else 0x50 := by
  have hbit : ((lba >>> 24).setWidth 8).toNat / 16 % 2 = lba.toNat / 268435456 % 2 := by
    rw [toNat_byte]
    omega
  rw [← hbit]
  exact device_selected _

/-- **The command**: the drive that is selected begins with the sectors that it has, the other one stays idle. -/
theorem commanded_phase (hidle : d.phase s = some .idle) : ∃ n,
    d.phase (commanded d.toDevice lba total s) = some (Phase.before (lba.toNat % 268435456) n) ∧
      if lba.toNat / 268435456 % 2 = 0 then n ≤ (commandBlock lba total).count ∧
        (n = (commandBlock lba total).count ↔ lba.toNat % 268435456 + (commandBlock lba total).count ≤ d.capacity)
      else n = 0 := by
  obtain ⟨h₁, hb₁⟩ := @PioDrive.outb_block _ d _ 0x1F6 hidle (by decide) (by decide) ((lba >>> 24).setWidth 8 ||| 0xE0)
  obtain ⟨h₂, hb₂⟩ := @PioDrive.outb_block _ d _ 0x1F2 h₁ (by decide) (by decide) (total.setWidth 8)
  obtain ⟨h₃, hb₃⟩ := @PioDrive.outb_block _ d _ 0x1F3 h₂ (by decide) (by decide) (lba.setWidth 8)
  obtain ⟨h₄, hb₄⟩ := @PioDrive.outb_block _ d _ 0x1F4 h₃ (by decide) (by decide) ((lba >>> 8).setWidth 8)
  obtain ⟨h₅, hb₅⟩ := @PioDrive.outb_block _ d _ 0x1F5 h₄ (by decide) (by decide) ((lba >>> 16).setWidth 8)
  rw [hb₄, hb₃, hb₂, hb₁] at hb₅
  have hblock : d.block _ = commandBlock lba total := hb₅
  by_cases hdrive : lba.toNat / 268435456 % 2 = 0
  · obtain ⟨n, hle, hall, hphase⟩ := d.read_sectors h₅ (by rw [hblock, commandBlock_device, if_pos hdrive])
    rw [hblock, commandBlock_sector] at hall hphase
    rw [hblock] at hle
    exact ⟨n, hphase, by rw [if_pos hdrive]; exact ⟨hle, hall⟩⟩
  · have hphase := d.read_absent h₅ (by rw [hblock, commandBlock_device, if_neg hdrive])
    exact ⟨0, hphase, by rw [if_neg hdrive]⟩

theorem diskReadSector_eq {d : Device σ} {polls buf : Nat} {m : Mem} : diskReadSector d polls lba total buf s m
    = (takeSectors d polls total.toInt.toNat buf (commanded d lba total s) m).map fun (s, m) => (0, s, m) := by
  have hlow : (lba &&& 0xff).setWidth 8 = lba.setWidth 8 := by
    rw [BitVec.setWidth_and]
    exact BitVec.and_allOnes
  have hdevice : (lba.sshiftRight 24 ||| 0xE0).setWidth 8 = (lba >>> 24).setWidth 8 ||| 0xE0 := by
    rw [BitVec.setWidth_or, setWidth_sshiftRight 24 (by decide)]
    rfl
  unfold diskReadSector commanded
  rw [hlow, hdevice, setWidth_sshiftRight 8 (by decide), setWidth_sshiftRight 16 (by decide)]

end Command

/-! ## Reading -/

section Reading

variable {d : PioDrive σ} {lba total : BitVec 32} {buf : Nat} {s : σ} {m : Mem}

/-- All the sectors come that are asked for. -/
theorem commanded_all (hidle : d.phase s = some .idle) (hlba : lba.toNat < 268435456) (hlo : 0 < total.toNat)
    (hhi : total.toNat ≤ 256) (hcapacity : lba.toNat + total.toNat ≤ d.capacity) :
    d.phase (commanded d.toDevice lba total s) = some (Phase.before lba.toNat total.toNat) := by
  obtain ⟨n, hphase, hn⟩ := @commanded_phase _ d lba total s hidle
  have hcount : (commandBlock lba total).count = total.toNat := by
    rw [commandBlock_count]
    split <;> omega
  rw [if_pos (by omega), hcount, Nat.mod_eq_of_lt hlba] at hn
  rw [hphase, Nat.mod_eq_of_lt hlba, hn.2.mpr hcapacity]

/-- **Reading sectors**: when the driver returns, a range of at most 256 sectors of the drive is in memory, nothing else
    has been written, and the drive is idle again. It takes as long as the drive takes. -/
theorem diskReadSector_reads (d : PioDrive σ) (lba total : BitVec 32) (buf : Nat) (s : σ) (m : Mem)
    (hidle : d.phase s = some .idle) (hlba : lba.toNat < 268435456) (hlo : 0 < total.toNat) (hhi : total.toNat ≤ 256)
    (hcapacity : lba.toNat + total.toNat ≤ d.capacity) :
    ∃ least s' m', (∀ polls, least ≤ polls → diskReadSector d.toDevice polls lba total buf s m = some (0, s', m')) ∧
      d.phase s' = some .idle ∧ SectorsAt d.image lba.toNat total.toNat m buf m' := by
  have htotal : total.toInt.toNat = total.toNat := by
    rw [BitVec.toInt_eq_toNat_of_lt (by omega)]
    rfl
  obtain ⟨least, s', m', hrun, hphase, hsectors⟩ := @takeSectors_of_left _ d (commanded d.toDevice lba total s) m
    total.toNat buf lba.toNat total.toNat (commanded_all hidle hlba hlo hhi hcapacity) (Nat.le_refl _)
  rw [Nat.sub_self] at hphase
  refine ⟨least, s', m', fun polls hpolls => ?_, hphase, hsectors⟩
  rw [diskReadSector_eq, htotal, hrun polls hpolls]
  rfl

theorem toInt_of_pos (hpos : 0 < total.toInt) : total.toInt = total.toNat ∧ total.toNat < 2147483648 := by
  have hlt := total.isLt
  rw [BitVec.toInt_eq_toNat_cond] at hpos ⊢
  split at hpos
  · rename_i hsmall
    rw [if_pos hsmall]
    exact ⟨rfl, by omega⟩
  · omega

/-- **When the driver returns**: for every address and number of sectors, exactly when it asks for none, or for no more
    than 256 that the drive has. -/
theorem diskReadSector_returns_iff (d : PioDrive σ) (lba total : BitVec 32) (buf : Nat) (s : σ) (m : Mem)
    (hidle : d.phase s = some .idle) :
    (∃ polls r, diskReadSector d.toDevice polls lba total buf s m = some r) ↔
      total.toInt ≤ 0 ∨ total.toInt ≤ 256 ∧ lba.getLsbD 28 = false ∧
        lba.toNat % 268435456 + total.toInt ≤ d.capacity := by
  have hbit : lba.getLsbD 28 = false ↔ lba.toNat / 268435456 % 2 = 0 := by
    rw [BitVec.getLsbD, Nat.testBit_eq_decide_div_mod_eq]
    simp
  obtain ⟨n, hphase, hn⟩ := @commanded_phase _ d lba total s hidle
  have henough : (∃ polls r, diskReadSector d.toDevice polls lba total buf s m = some r) ↔ total.toInt.toNat ≤ n := by
    constructor
    · rintro ⟨polls, r, hrun⟩
      by_contra hmore
      rw [diskReadSector_eq, takeSectors_none hphase (Nat.lt_of_not_le hmore)] at hrun
      cases hrun
    · intro hle
      obtain ⟨least, s', m', hrun, _⟩ := @takeSectors_of_left _ d (commanded d.toDevice lba total s) m
        total.toInt.toNat buf _ n hphase hle
      exact ⟨least, (0, s', m'), by rw [diskReadSector_eq, hrun least (Nat.le_refl _)]; rfl⟩
  rw [henough, hbit]
  by_cases hpos : 0 < total.toInt
  · obtain ⟨hvalue, hlt⟩ := toInt_of_pos hpos
    rw [commandBlock_count] at hn
    rw [hvalue]
    by_cases hdrive : lba.toNat / 268435456 % 2 = 0
    · rw [if_pos hdrive] at hn
      split at hn <;> omega
    · rw [if_neg hdrive] at hn
      omega
  · constructor
    · exact fun _ => Or.inl (by omega)
    · intro _
      rw [Int.toNat_eq_zero.mpr (by omega)]
      exact Nat.zero_le _

end Reading

/-- A drive of a thousand sectors that is ready when it is asked for the third time. -/
def slowDrive : PioDrive State := simpleDrive (fun sector i => BitVec.ofNat 8 (sector + i)) 1000 fun _ => 2

theorem diskReadSector_reads_first : ∃ least s' m',
    (∀ polls, least ≤ polls →
      diskReadSector slowDrive.toDevice polls 1 2 0x8000 {} (fun _ => 0) = some (0, s', m')) ∧
      slowDrive.phase s' = some .idle ∧ SectorsAt slowDrive.image 1 2 (fun _ => 0) 0x8000 m' :=
  diskReadSector_reads slowDrive 1 2 0x8000 {} (fun _ => 0) rfl (by decide) (by decide) (by decide) (by decide)

/-- The two last sectors, and one that is not there. -/
theorem diskReadSector_returns_iff_end :
    (∃ polls r, diskReadSector slowDrive.toDevice polls 998 3 0x8000 {} (fun _ => 0) = some r) ↔
      (3 : BitVec 32).toInt ≤ 0 ∨ (3 : BitVec 32).toInt ≤ 256 ∧ (998 : BitVec 32).getLsbD 28 = false ∧
        (998 : BitVec 32).toNat % 268435456 + (3 : BitVec 32).toInt ≤ slowDrive.capacity :=
  diskReadSector_returns_iff slowDrive 998 3 0x8000 {} (fun _ => 0) rfl

/-! ## The streamer -/

section Streamer

variable {d : PioDrive σ} {buff : Nat → Nat}

/-- **The streamer over the driver is the streamer over `diskReadBlock`**: the same result, position, bytes and sectors
    for every range of sectors that the drive has (the one that the range ends in included), and a call that C leaves
    undefined is one for both. -/
theorem diskstreamerReadAta_eq (d : PioDrive σ) (buff : Nat → Nat) (fuel pos total : Nat) (s : σ) (m : Mem)
    (hpos : pos < 2147483648) (hidle : d.phase s = some .idle) (hcapacity : (pos + total) / 512 < d.capacity) :
    ∃ least, ∀ polls, least ≤ polls →
      (diskstreamerReadAta d.toDevice polls buff fuel pos total s m).map (fun r => r.1)
        = diskstreamerReadLoop (driveDisk d.image) fuel pos total := by
  induction fuel generalizing pos total s m with
  | zero => exact ⟨0, fun _ _ => rfl⟩
  | succ fuel ih =>
      have hsector : (pos : Int).tdiv 512 = (pos / 512 : Nat) := rfl
      have hoffset : (pos : Int).tmod 512 = (pos % 512 : Nat) := rfl
      have hsize : (bimbleosSectorSize : Int) = 512 := rfl
      have hlba : (BitVec.ofInt 32 ((pos / 512 : Nat) : Int)).toNat = pos / 512 := by
        rw [BitVec.ofInt_natCast, BitVec.toNat_ofNat]
        exact Nat.mod_eq_of_lt (by omega)
      obtain ⟨least, s', m', hrun, hidle', hread⟩ :=
        diskReadSector_reads d (BitVec.ofInt 32 ((pos / 512 : Nat) : Int)) 1
        (buff fuel) s m hidle (by omega) (by decide) (by decide) (by rw [hlba]; show pos / 512 + 1 ≤ _; omega)
      rw [hlba] at hread
      have hbytes : ∀ n, pos % 512 + n ≤ 512 → window (fun i => m' (buff fuel + i)) (pos % 512) n
          = window ((driveDisk d.image).sector ((pos / 512 : Nat) : Int)) (pos % 512) n := by
        intro n hn
        refine window_inj.mpr fun i hi => ?_
        rw [hread.stored _ (by show _ < 512 * 1; omega)]
        show d.image (pos / 512 + (pos % 512 + i) / 512) ((pos % 512 + i) % 512) = d.image (pos / 512) (pos % 512 + i)
        rw [show (pos % 512 + i) / 512 = 0 by omega, show (pos % 512 + i) % 512 = pos % 512 + i by omega, Nat.add_zero]
      have hres : ¬ (0 : Int) < 0 := by omega
      have hbuff : ∀ n : Int, ¬ (((pos % 512 : Nat) : Int) < 0 ∧ 0 < n) := fun n h => by omega
      by_cases hlast : pos % 512 + total < 2147483648
      · have hchecked : checked (((pos % 512 : Nat) : Int) + total) = some ((pos % 512 + total : Nat) : Int) := by
          rw [checked_of_range (by omega) (by omega)]
          rfl
        unfold diskstreamerReadAta diskstreamerReadLoop
        simp only [hsize, hsector, hoffset, hchecked, Option.bind_some, diskReadBlock, hres, hbuff, if_false]
        by_cases hover : 512 ≤ pos % 512 + total
        · obtain ⟨n, hn⟩ : ∃ n, pos % 512 + n = 512 := ⟨512 - pos % 512, by omega⟩
          have hflag : decide ((512 : Int) ≤ ((pos % 512 + total : Nat) : Int)) = true := decide_eq_true (by omega)
          have hfirst : (total : Int) - (((pos % 512 + total : Nat) : Int) - 512) = (n : Nat) := by omega
          have hrest : (total : Int) - (n : Nat) = (total - n : Nat) := by omega
          simp only [hflag, if_true, hfirst, hrest, Int.toNat_natCast]
          by_cases hnext : pos + n < 2147483648
          · have hmoved : checked ((pos : Int) + (n : Nat)) = some ((pos + n : Nat) : Int) := by
              rw [checked_of_range (by omega) (by omega)]
              rfl
            obtain ⟨leastRest, hih⟩ := ih (pos + n) (total - n) s' m' hnext hidle' (by omega)
            refine ⟨max least leastRest, fun polls hpolls => ?_⟩
            rw [hrun polls (le_trans (le_max_left _ _) hpolls), Option.bind_some]
            simp only [hres, if_false, hmoved, Option.bind_some, hbytes n (Nat.le_of_eq hn)]
            rw [← hih polls (le_trans (le_max_right _ _) hpolls), Option.map_map, Option.map_map]
            rfl
          · refine ⟨least, fun polls hpolls => ?_⟩
            rw [hrun polls hpolls, Option.bind_some, checked_of_ge (by omega)]
            rfl
        · have hflag : decide ((512 : Int) ≤ ((pos % 512 + total : Nat) : Int)) = false := decide_eq_false (by omega)
          refine ⟨least, fun polls hpolls => ?_⟩
          rw [hrun polls hpolls, Option.bind_some]
          simp only [hres, if_false, hflag, Bool.false_eq_true, Int.toNat_natCast, hbytes total (by omega)]
          by_cases hend : pos + total < 2147483648
          · rw [checked_of_range (by omega) (by omega)]
            rfl
          · rw [checked_of_ge (by omega)]
            rfl
      · refine ⟨0, fun polls _ => ?_⟩
        unfold diskstreamerReadAta diskstreamerReadLoop
        simp only [hsize, hoffset]
        rw [checked_of_ge (by omega)]
        rfl

/-- A range that begins in the middle of one sector and ends in the next but one. -/
theorem diskstreamerReadAta_eq_slow : ∃ least, ∀ polls, least ≤ polls →
    (diskstreamerReadAta slowDrive.toDevice polls (fun n => 0x8000 + 512 * n) 3 500 600 {} (fun _ => 0)).map
        (fun r => r.1)
      = diskstreamerReadLoop (driveDisk slowDrive.image) 3 500 600 :=
  diskstreamerReadAta_eq slowDrive (fun n => 0x8000 + 512 * n) 3 500 600 {} (fun _ => 0) (by decide) rfl (by decide)

end Streamer

/-! ## The boot sector -/

/-- The place of `n` sectors at `edi`: apart from the counter and the return address on the stack, and from the code of
    the boot sector. -/
structure LoadsApart (edi n esp : Nat) : Prop where
  room : 4 ≤ esp
  stack : edi + 512 * n ≤ esp - 4 ∨ esp + 4 ≤ edi
  code : edi + 512 * n ≤ 0x7C00 ∨ 0x7E00 ≤ edi
  top : edi + 512 * n ≤ 4294967296

section Boot

variable {d : PioDrive σ} {polls fuel edi esp n sector left : Nat} {ecx : BitVec 32} {s : σ} {m m' : Mem}

/-- What the loop of the boot sector leaves: the sectors, and the counter below `esp`. -/
structure LoadedAt (image : Nat → Nat → BitVec 8) (lba n : Nat) (m : Mem) (edi esp : Nat) (m' : Mem) : Prop where
  stored : ∀ i, i < 512 * n → m' (edi + i) = image (lba + i / 512) (i % 512)
  frame : ∀ a, a < edi ∨ edi + 512 * n ≤ a → a < esp - 4 ∨ esp ≤ a → m' a = m a

/-- One sector, and those behind it. -/
theorem LoadedAt.cons {image : Nat → Nat → BitVec 8} {m₁ : Mem} (hroom : 4 ≤ esp)
    (hfirst : ∀ a, m₁ a = if edi ≤ a ∧ a < edi + 512 then image sector (a - edi) else store32 m (esp - 4) ecx a)
    (hstack : edi + 512 * (n + 1) ≤ esp - 4 ∨ esp + 4 ≤ edi)
    (hrest : LoadedAt image (sector + 1) n m₁ (edi + 512) esp m') : LoadedAt image sector (n + 1) m edi esp m' where
  stored := by
    refine stored_cons (fun i hi => ?_) hrest.stored
    rw [hrest.frame _ (by omega) (by omega), hfirst, if_pos (by omega), Nat.add_sub_cancel_left]
  frame := fun a ha hesp => by
    rw [hrest.frame a (by omega) hesp, hfirst, if_neg (by omega)]
    exact store32_of_outside (by omega)

/-- One round of the loop: a sector is in memory, and the counter is back from the stack. -/
theorem ataNextSector_succ (hphase : d.phase s = some (Phase.before sector left)) (hleft : 0 < left) (hroom : 4 ≤ esp)
    (hstack : edi + 512 ≤ esp - 4 ∨ esp + 4 ≤ edi) : ∃ s₁ m₁,
      d.phase s₁ = some (Phase.before (sector + 1) (left - 1)) ∧
      (∀ a, m₁ a = if edi ≤ a ∧ a < edi + 512 then d.image sector (a - edi) else store32 m (esp - 4) ecx a) ∧
      ∀ polls, d.waits s + 1 ≤ polls → ∀ fuel, ataNextSector d.toDevice polls (fuel + 1) ecx edi esp s m
        = if ecx - 1 = 0 then some (s₁, m₁)
          else ataNextSector d.toDevice polls fuel (ecx - 1) (edi + 512) esp s₁ m₁ := by
  rw [Phase.before_pos hleft] at hphase
  obtain ⟨s₀, hwait⟩ := waitForData_some hphase
  obtain ⟨hnext, hmem⟩ := @takeWords_sector _ d s₀ (store32 m (esp - 4) ecx) edi sector left
    (waitForData_data hphase hwait)
  obtain ⟨r, hr⟩ : ∃ r, takeWords d.toDevice 256 edi s₀ (store32 m (esp - 4) ecx) = r := ⟨_, rfl⟩
  rw [hr] at hnext hmem
  have hecx : load32 r.2 (esp - 4) = ecx := by
    have hkept : load32 r.2 (esp - 4) = load32 (store32 m (esp - 4) ecx) (esp - 4) :=
      load32_congr fun i hi => by rw [hmem, if_neg (by omega)]
    exact hkept.trans load32_store32
  refine ⟨r.1, r.2, hnext, hmem, fun polls hpolls fuel => ?_⟩
  rw [ataNextSector, waitForData_mono hwait hpolls, Option.bind_some]
  simp only [hr, hecx]

/-- **The loop of the boot sector** takes `ecx` sectors. -/
theorem ataNextSector_loads (hphase : d.phase s = some (Phase.before sector left)) (hn : ecx.toNat = n + 1)
    (hleft : n + 1 ≤ left) (hfuel : n < fuel) (hroom : 4 ≤ esp)
    (hstack : edi + 512 * (n + 1) ≤ esp - 4 ∨ esp + 4 ≤ edi) : ∃ least s' m',
      (∀ polls, least ≤ polls → ataNextSector d.toDevice polls fuel ecx edi esp s m = some (s', m')) ∧
        d.phase s' = some (Phase.before (sector + (n + 1)) (left - (n + 1))) ∧
          LoadedAt d.image sector (n + 1) m edi esp m' := by
  induction n generalizing fuel ecx edi s m sector left with
  | zero =>
      obtain ⟨fuel, rfl⟩ : ∃ rest, fuel = rest + 1 := ⟨fuel - 1, by omega⟩
      obtain ⟨s₁, m₁, hnext, hmem, hround⟩ := @ataNextSector_succ _ d edi esp sector left ecx s m hphase (by omega)
        hroom (by omega)
      have hone : ecx = 1#32 := BitVec.eq_of_toNat_eq hn
      have hlast : ecx - 1 = 0 := by
        rw [hone]
        decide
      refine ⟨d.waits s + 1, s₁, m₁, fun polls hpolls => ?_, hnext,
        LoadedAt.cons hroom hmem hstack ⟨fun i hi => absurd hi (by omega), fun _ _ _ => rfl⟩⟩
      rw [hround polls hpolls, if_pos hlast]
  | succ n ih =>
      obtain ⟨fuel, rfl⟩ : ∃ rest, fuel = rest + 1 := ⟨fuel - 1, by omega⟩
      have hfirst : edi + 512 ≤ esp - 4 ∨ esp + 4 ≤ edi :=
        hstack.imp_left fun h => le_trans (Nat.add_le_add_left (Nat.le_mul_of_pos_right 512 (Nat.succ_pos _)) edi) h
      have hrest : edi + 512 + 512 * (n + 1) ≤ esp - 4 ∨ esp + 4 ≤ edi + 512 := by
        rw [Nat.add_assoc, Nat.add_comm 512 (512 * (n + 1)), ← Nat.mul_succ]
        exact hstack.imp_right fun h => le_trans h (Nat.le_add_right _ _)
      obtain ⟨s₁, m₁, hnext, hmem, hround⟩ := @ataNextSector_succ _ d edi esp sector left ecx s m hphase (by omega)
        hroom hfirst
      have hpos : 0 < ecx.toNat := by omega
      have hdown : (ecx - 1).toNat = n + 1 := by
        rw [BitVec.toNat_sub_of_le (show (1 : BitVec 32) ≤ ecx from hpos), hn]
        rfl
      have hmore : ¬ ecx - 1 = 0 := fun h => by
        rw [h] at hdown
        exact absurd hdown (by simp)
      obtain ⟨least, s', m', hrun, hstate, hloaded⟩ := @ih fuel (edi + 512) (sector + 1) (left - 1) (ecx - 1) s₁ m₁
        hnext hdown (by omega) (by omega) hrest
      refine ⟨max least (d.waits s + 1), s', m', fun polls hpolls => ?_, ?_, hloaded.cons hroom hmem hstack⟩
      · rw [hround polls (le_trans (le_max_right _ _) hpolls), if_neg hmore]
        exact hrun polls (le_trans (le_max_left _ _) hpolls)
      · rw [hstate, Nat.add_assoc, Nat.add_comm 1 (n + 1), Nat.sub_sub, Nat.add_comm 1 (n + 1)]

/-- **The boot sector's driver** loads any number of sectors up to 256 from an idle drive, as the kernel's does, and
    returns; below its return address it uses one word of the stack. -/
theorem ataLbaRead_loads (d : PioDrive σ) (eax ecx : BitVec 32) (edi esp : Nat) (s : σ) (m : Mem)
    (hidle : d.phase s = some .idle) (heax : eax.toNat < 268435456) (hlo : 0 < ecx.toNat) (hhi : ecx.toNat ≤ 256)
    (hcapacity : eax.toNat + ecx.toNat ≤ d.capacity) (hapart : LoadsApart edi ecx.toNat esp) :
    ∃ least s' m', (∀ polls, least ≤ polls →
      ataLbaRead d.toDevice polls ecx.toNat eax ecx edi esp s m = some (load32 m esp, s', m')) ∧
      d.phase s' = some .idle ∧ LoadedAt d.image eax.toNat ecx.toNat m edi esp m' := by
  obtain ⟨n, hn⟩ : ∃ n, ecx.toNat = n + 1 := ⟨ecx.toNat - 1, by omega⟩
  have hroom := hapart.room
  have hstack := hapart.stack
  rw [hn] at hstack
  obtain ⟨least, s', m', hrun, hphase, hloaded⟩ := @ataNextSector_loads _ d ecx.toNat edi esp n eax.toNat ecx.toNat ecx
    (commanded d.toDevice eax ecx s) m (commanded_all hidle heax hlo hhi hcapacity) hn (by omega) (by omega) hroom hstack
  rw [← hn, Nat.sub_self] at hphase
  rw [← hn] at hloaded
  have hback : load32 m' esp = load32 m esp := load32_congr fun i hi => hloaded.frame _ (by omega) (by omega)
  refine ⟨least, s', m', fun polls hpolls => ?_, hphase, hloaded⟩
  have hcommand : ataLbaRead d.toDevice polls ecx.toNat eax ecx edi esp s m
      = (ataNextSector d.toDevice polls ecx.toNat ecx edi esp (commanded d.toDevice eax ecx s) m).map
        fun (s, m) => (load32 m esp, s, m) := by
    unfold ataLbaRead commanded
    rw [BitVec.setWidth_or]
    rfl
  rw [hcommand, hrun polls hpolls, ← hback]
  rfl

end Boot

/-- The kernel is loaded: the first hundred sectors behind the boot sector, at one megabyte. -/
theorem ataLbaRead_loads_kernel : ∃ least s' m', (∀ polls, least ≤ polls →
    load32Kernel slowDrive.toDevice polls (100 : BitVec 32).toNat 0x7C00 0x7C9F {} (fun _ => 0)
      = some (load32 (store32 (fun _ => 0) 0x7BFC 0x7C9F) 0x7BFC, s', m')) ∧ slowDrive.phase s' = some .idle ∧
    LoadedAt slowDrive.image (1 : BitVec 32).toNat (100 : BitVec 32).toNat (store32 (fun _ => 0) 0x7BFC 0x7C9F)
      0x00100000 0x7BFC m' :=
  ataLbaRead_loads slowDrive 1 100 0x00100000 0x7BFC {} (store32 (fun _ => 0) 0x7BFC 0x7C9F) rfl (by decide)
    (by decide) (by decide) (by decide) ⟨by decide, by decide, by decide, by decide⟩

end BimbleOS
