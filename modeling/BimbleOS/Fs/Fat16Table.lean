import BimbleOS.Fs.Fat16Read
import Mathlib.Logic.Function.Iterate

/-!
# `Fs.Fat16Table` — the file allocation table

`fat16_get_fat_entry` multiplies the table's byte position by the entry's offset in it, where the two
should be added. Both are even, the first a multiple of the sector size, so what it returns are the first
two bytes of some sector (`fat16GetFatEntry_sector`).

`fat16_get_cluster_for_offset` walks the table. It knows the marks of a 12-bit table only, so it stops at
six values of the sixteen-bit entries and follows all others (`fat16ClusterLoop_eq`).
-/

namespace BimbleOS

open CWord Window

/-! ## One entry -/

/-- The little-endian word at a disk position. -/
def Disk.word (disk : Disk) (p : Nat) : Nat := (disk.byte p).toNat + 256 * (disk.byte (p + 1)).toNat

/-- Where the entry of a cluster is stored. -/
def FatPrivate.entryPos (fs : FatPrivate) (cluster : Nat) : Nat :=
  fs.header.reservedSectors.toNat * 512 + 2 * cluster

/-- The sector that `fat16_get_fat_entry` seeks to: the product of the table's position and the entry's
    offset, wrapped to an `int`. -/
def FatPrivate.seekSector (fs : FatPrivate) (cluster : Nat) : Int :=
  (s32 (u32 (fs.header.reservedSectors.toNat * 512 * (2 * cluster) : Nat))) / 512

section Entry

variable {disk : Disk} {fs : FatPrivate} {cluster : Nat}

/-- Two bytes at the start of a sector, which may be one in front of the disk. -/
theorem diskstreamerRead_sector {z : Int} (hlo : -2147483648 ≤ 512 * z) (hhi : 512 * z + 2 < 2147483648) :
    diskstreamerRead disk (512 * z) 2
      = some { res := 0, pos := 512 * z + 2, out := [disk.sector z 0, disk.sector z 1], asked := [z] } := by
  have hsector : (512 * z).tdiv bimbleosSectorSize = z := Int.mul_tdiv_cancel_left z (by decide)
  have hoffset : (512 * z).tmod bimbleosSectorSize = 0 := Int.mul_tmod_right 512 z
  have hlast : checked ((0 : Int) + 2) = some 2 := by decide
  have hflag : decide ((bimbleosSectorSize : Int) ≤ 2) = false := by decide
  have hpos : checked (512 * z + 2) = some (512 * z + 2) := checked_of_range (by omega) hhi
  unfold diskstreamerRead diskstreamerReadLoop
  simp only [hsector, hoffset, hlast, Option.bind_some, hflag, diskReadBlock]
  simp [hpos, window, List.range_succ]

/-- The product keeps the factor 512, also where it wraps. -/
theorem seekSector_mul (fs : FatPrivate) (cluster : Nat) : 512 * fs.seekSector cluster
    = s32 (u32 (fs.header.reservedSectors.toNat * 512 * (2 * cluster) : Nat)) := by
  have hassoc : fs.header.reservedSectors.toNat * 512 * (2 * cluster)
      = 512 * (fs.header.reservedSectors.toNat * (2 * cluster)) := by ring
  unfold FatPrivate.seekSector
  rw [hassoc]
  generalize fs.header.reservedSectors.toNat * (2 * cluster) = n
  unfold s32 u32
  omega

theorem seekSector_range (fs : FatPrivate) (cluster : Nat) : -2147483648 ≤ 512 * fs.seekSector cluster
    ∧ 512 * fs.seekSector cluster + 2 < 2147483648 := by
  have hdvd := seekSector_mul fs cluster
  unfold s32 at hdvd
  omega

/-- **What `fat16_get_fat_entry` returns**: the first word of the sector it seeks to. -/
theorem fat16GetFatEntry_sector (h : 2 * cluster < 2147483648) : fat16GetFatEntry disk fs cluster
    = some (((disk.sector (fs.seekSector cluster) 0).toNat
        + 256 * (disk.sector (fs.seekSector cluster) 1).toNat : Nat) : Int) := by
  have hentry : checked (cluster * bimbleosFat16FatEntrySize) = some ((2 * cluster : Nat) : Int) := by
    unfold bimbleosFat16FatEntrySize
    rw [checked_of_range (by omega) (by omega)]
    congr 1
    omega
  have htable : u32 ((fs.header.reservedSectors.toNat * bimbleosSectorSize : Nat) : Int)
      = fs.header.reservedSectors.toNat * 512 := by
    have hlt := fs.header.reservedSectors.isLt
    apply u32_of_lt
    show fs.header.reservedSectors.toNat * 512 < 4294967296
    omega
  have hoffset : u32 ((2 * cluster : Nat) : Int) = 2 * cluster := u32_of_lt (by omega)
  obtain ⟨hlo, hhi⟩ := seekSector_range fs cluster
  unfold fat16GetFatEntry
  rw [hentry, Option.bind_some, htable, hoffset, ← seekSector_mul, diskstreamerRead_sector hlo hhi,
    Option.map_some]
  simp

end Entry

/-- **`fat16_get_fat_entry` returns the entry exactly when the sector it seeks to happens to begin with
    the entry's two bytes.** -/
theorem fat16GetFatEntry_iff {disk : Disk} {fs : FatPrivate} {cluster : Nat}
    (h : fs.entryPos cluster < 2147483648) :
    fat16GetFatEntry disk fs cluster = some (disk.word (fs.entryPos cluster) : Int) ↔
      disk.sector (fs.seekSector cluster) 0 = disk.byte (fs.entryPos cluster)
        ∧ disk.sector (fs.seekSector cluster) 1 = disk.byte (fs.entryPos cluster + 1) := by
  have hsmall : 2 * cluster < 2147483648 := by
    unfold FatPrivate.entryPos at h
    omega
  rw [fat16GetFatEntry_sector hsmall]
  unfold Disk.word
  constructor
  · intro hword
    have hnat := Int.ofNat.inj (Option.some.inj hword)
    constructor
    · apply BitVec.eq_of_toNat_eq
      omega
    · apply BitVec.eq_of_toNat_eq
      omega
  · intro ⟨h0, h1⟩
    rw [h0, h1]

theorem fat16GetFatEntry_iff_split :
    fat16GetFatEntry splitDisk smallFat (2 : Nat) = some (splitDisk.word (smallFat.entryPos 2) : Int) ↔
      splitDisk.sector (smallFat.seekSector 2) 0 = splitDisk.byte (smallFat.entryPos 2)
        ∧ splitDisk.sector (smallFat.seekSector 2) 1 = splitDisk.byte (smallFat.entryPos 2 + 1) :=
  fat16GetFatEntry_iff (by decide)

/-- Cluster 2 of `splitDisk`: its entry is at byte 516 and is 0, the code reads the 5 at byte 2048. -/
theorem fat16GetFatEntry_misses_entry :
    ¬ ∀ (disk : Disk) (fs : FatPrivate) (cluster : Nat), fs.entryPos cluster < 2147483648 →
      fat16GetFatEntry disk fs cluster = some (disk.word (fs.entryPos cluster) : Int) := by
  intro h
  have hread := h splitDisk smallFat 2 (by decide)
  have hreal : fat16GetFatEntry splitDisk smallFat (2 : Nat) = some 5 := by decide +kernel
  rw [hreal] at hread
  exact absurd hread (by decide +kernel)

/-! ## Following a chain -/

/-- The entries that name another data cluster. -/
def UsableEntry (entry : BitVec 16) : Prop := 0x0002 ≤ entry.toNat ∧ entry.toNat ≤ 0xFFEF

/-- The entries at which `fat16_get_cluster_for_offset` stops. -/
def stopMarks : List (BitVec 16) := [0xFF8, 0xFFF, 0xFF7, 0xFF0, 0xFF6, 0x00]

/-- The number of entries that lie between the start of a file and an offset in it. -/
def FatPrivate.clustersAhead (fs : FatPrivate) (offset : Int) : Nat := (offset.tdiv fs.clusterBytes).toNat

/-- What a lookup in the table should return: the cluster reached, if every entry on the way is usable,
    and an error otherwise. -/
structure LookupOk (table : BitVec 16 → BitVec 16) (start : BitVec 16) (n : Nat) (res : Option Int) :
    Prop where
  reached : (∀ i, i < n → UsableEntry (table^[i + 1] start)) → res = some ((table^[n] start).toNat : Int)
  stopped : (∃ i, i < n ∧ ¬ UsableEntry (table^[i + 1] start)) → ∃ e < 0, res = some e

section Chain

variable {disk : Disk} {fs : FatPrivate} {table : BitVec 16 → BitVec 16} {start : BitVec 16} {n : Nat}

/-- One step of the loop, the five tests taken together. -/
theorem fat16ClusterLoop_step {cluster : Int} {entry : BitVec 16}
    (h : fat16GetFatEntry disk fs cluster = some (entry.toNat : Int)) :
    fat16ClusterLoop disk fs (n + 1) cluster
      = if entry ∈ stopMarks then some (- EIO) else fat16ClusterLoop disk fs n entry.toNat := by
  have hmark : ∀ m : Nat, m < 65536 → ((entry.toNat : Int) = m ↔ entry = BitVec.ofNat 16 m) := by
    intro m hm
    rw [Int.ofNat_inj, ← BitVec.toNat_inj, BitVec.toNat_ofNat, Nat.mod_eq_of_lt hm]
  have hFF8 := hmark 0xFF8 (by decide)
  have hFFF := hmark 0xFFF (by decide)
  have hFF7 := hmark 0xFF7 (by decide)
  have hFF0 := hmark 0xFF0 (by decide)
  have hFF6 := hmark 0xFF6 (by decide)
  have h0 := hmark 0x00 (by decide)
  simp only [Nat.cast_ofNat] at hFF8 hFFF hFF7 hFF0 hFF6
  rw [fat16ClusterLoop, h, Option.bind_some]
  simp only [bimbleosFat16BadSector, hFF8, hFFF, hFF7, hFF0, hFF6]
  simp only [stopMarks, List.mem_cons, List.not_mem_nil, or_false]
  split_ifs <;> simp_all

/-- **The walk** ends with an error at the first of the six marks, and goes on over everything else. The
    induction is on the number of entries to follow. -/
theorem fat16ClusterLoop_eq
    (h : ∀ c : BitVec 16, fat16GetFatEntry disk fs c.toNat = some ((table c).toNat : Int)) :
    fat16ClusterLoop disk fs n start.toNat
      = if ∃ i, i < n ∧ table^[i + 1] start ∈ stopMarks then some (- EIO)
        else some ((table^[n] start).toNat : Int) := by
  induction n generalizing start with
  | zero => rfl
  | succ n ih =>
      have hsplit : (∃ i, i < n + 1 ∧ table^[i + 1] start ∈ stopMarks) ↔
          table start ∈ stopMarks ∨ ∃ i, i < n ∧ table^[i + 1] (table start) ∈ stopMarks :=
        Nat.exists_lt_succ_left
      rw [fat16ClusterLoop_step (h start), ih]
      by_cases hstop : table start ∈ stopMarks
      · rw [if_pos hstop, if_pos (hsplit.mpr (Or.inl hstop))]
      · rw [if_neg hstop, Function.iterate_succ_apply]
        refine if_congr ?_ rfl rfl
        rw [hsplit]
        exact (or_iff_right hstop).symm

end Chain

/-- **`fat16_get_cluster_for_offset` is right exactly when the chain reaches an unusable entry if and only
    if it reaches one of the six marks.** -/
theorem fat16GetClusterForOffset_iff {disk : Disk} {fs : FatPrivate} {table : BitVec 16 → BitVec 16}
    {start : BitVec 16} {offset : Int} (hB : 0 < fs.clusterBytes)
    (h : ∀ c : BitVec 16, fat16GetFatEntry disk fs c.toNat = some ((table c).toNat : Int)) :
    LookupOk table start (fs.clustersAhead offset)
        (fat16GetClusterForOffset disk fs start.toNat offset) ↔
      ((∃ i, i < fs.clustersAhead offset ∧ ¬ UsableEntry (table^[i + 1] start)) ↔
        ∃ i, i < fs.clustersAhead offset ∧ table^[i + 1] start ∈ stopMarks) := by
  have hloop : fat16GetClusterForOffset disk fs start.toNat offset
      = fat16ClusterLoop disk fs (fs.clustersAhead offset) start.toNat := by
    unfold fat16GetClusterForOffset
    rw [if_neg (Nat.ne_of_gt hB)]
    rfl
  rw [hloop, fat16ClusterLoop_eq h]
  by_cases hstop : ∃ i, i < fs.clustersAhead offset ∧ table^[i + 1] start ∈ stopMarks
  · rw [if_pos hstop, iff_true_right hstop]
    constructor
    · intro hok
      by_contra hall
      have hreached := hok.reached fun i hi => by
        by_contra hbad
        exact hall ⟨i, hi, hbad⟩
      -- a cluster number is no error code
      have hneg := Option.some.inj hreached
      unfold EIO at hneg
      omega
    · intro hbad
      refine ⟨fun hall => ?_, fun _ => ⟨- EIO, by decide, rfl⟩⟩
      obtain ⟨i, hi, hunusable⟩ := hbad
      exact absurd (hall i hi) hunusable
  · rw [if_neg hstop, iff_false_right hstop]
    constructor
    · intro hok hbad
      obtain ⟨e, he, hres⟩ := hok.stopped hbad
      have hneg := Option.some.inj hres
      omega
    · intro hall
      exact ⟨fun _ => rfl, fun hbad => absurd hbad hall⟩

/-- A table whose chain from cluster 2 ends there; every other entry is free. -/
def endedTable (c : BitVec 16) : BitVec 16 := if c = 2 then 0xFFFF else 0

/-- A disk that holds that table where the code looks the entries up. -/
def endedDisk : Disk where
  sector := fun lba i => if lba = 4 ∧ i < 2 then 0xFF else 0

theorem endedDisk_entry (c : BitVec 16) :
    fat16GetFatEntry endedDisk smallFat c.toNat = some ((endedTable c).toNat : Int) := by
  have hlt := c.isLt
  have hseek : smallFat.seekSector c.toNat = 2 * c.toNat := by
    have hprod : smallFat.header.reservedSectors.toNat * 512 * (2 * c.toNat) = 512 * (2 * c.toNat) := rfl
    unfold FatPrivate.seekSector
    rw [hprod]
    unfold s32 u32
    omega
  rw [fat16GetFatEntry_sector (by omega), hseek]
  unfold endedDisk endedTable
  by_cases hc : c = 2
  · subst hc
    rfl
  · have hne : ¬ (2 * (c.toNat : Int) = 4) := by
      intro h4
      apply hc
      apply BitVec.eq_of_toNat_eq
      show c.toNat = 2
      omega
    rw [if_neg hc]
    simp [hne]

theorem fat16GetClusterForOffset_iff_ended :
    LookupOk endedTable 2 (smallFat.clustersAhead 512)
        (fat16GetClusterForOffset endedDisk smallFat (2 : BitVec 16).toNat 512) ↔
      ((∃ i, i < smallFat.clustersAhead 512 ∧ ¬ UsableEntry (endedTable^[i + 1] 2)) ↔
        ∃ i, i < smallFat.clustersAhead 512 ∧ endedTable^[i + 1] 2 ∈ stopMarks) :=
  fat16GetClusterForOffset_iff (by decide) endedDisk_entry

/-- Offset 512 of a file of one cluster: the end mark 0xFFFF is returned as the next cluster. -/
theorem fat16GetClusterForOffset_passes_end :
    ¬ ∀ (disk : Disk) (fs : FatPrivate) (table : BitVec 16 → BitVec 16) (start : BitVec 16) (offset : Int),
      0 < fs.clusterBytes →
      (∀ c : BitVec 16, fat16GetFatEntry disk fs c.toNat = some ((table c).toNat : Int)) →
      LookupOk table start (fs.clustersAhead offset)
        (fat16GetClusterForOffset disk fs start.toNat offset) := by
  intro h
  have hok := h endedDisk smallFat endedTable 2 512 (by decide) endedDisk_entry
  obtain ⟨e, he, hres⟩ := hok.stopped ⟨0, by decide, fun husable => absurd husable.2 (by decide)⟩
  have hreal : fat16GetClusterForOffset endedDisk smallFat (2 : BitVec 16).toNat 512 = some 65535 := by
    decide +kernel
  rw [hreal] at hres
  have := Option.some.inj hres
  omega

end BimbleOS
