import BimbleOS.Fs.DirectoryEntry
import BimbleOS.Fs.Faults
import BimbleOS.Fs.FileHeap

/-!
# `Fs.DirectoryCount` — counting the items of a directory

`fat16_get_total_items_for_directory` walks the disk from a sector on until it comes to a slot without a name.
Nothing else bounds it: not the number of entries that the header gives for the root directory
(`fat16GetRootDirectory_safe_iff`), and not the clusters of a subdirectory.
-/

namespace BimbleOS

open Bytes CWord Exec Window

/-- The count from byte `p` on ends at slot `t`. In front of the disk only the first slot can be read. -/
inductive CountEnds (disk : Disk) (p : Int) (t : Nat) : Prop where
  | onDisk : 0 ≤ p → Terminated disk p.toNat t → p + 32 * (t + 1) < 2147483648 → CountEnds disk p t
  | before : p < 0 → t = 0 → disk.sector (p.tdiv bimbleosSectorSize) 0 = 0x00 → CountEnds disk p t

/-- The position of a sector, as the count computes it in an `int`. -/
def countPos (sector : Nat) : Int := s32 (u32 (sector * bimbleosSectorSize : Nat))

/-- The slots end once. -/
theorem Terminated.unique {disk : Disk} {start t t' : Nat} (h : Terminated disk start t)
    (h' : Terminated disk start t') : t = t' := by
  rcases Nat.lt_trichotomy t t' with hlt | heq | hgt
  · exact absurd h.last (h'.before t hlt)
  · exact heq
  · exact absurd h'.last (h.before t' hgt)

section Count

variable {disk : Disk} {start j c t fuel : Nat} {p total : Int}

/-- A count that returns has come to a slot without a name. The induction follows the loop. -/
theorem fat16TotalItemsLoop_some
    (h : fat16TotalItemsLoop disk fuel ((start + 32 * j : Nat) : Int) c = some total) :
    ∃ t, j ≤ t ∧ start + 32 * (t + 1) < 2147483648 ∧ disk.byte (start + 32 * t) = 0x00 ∧
      ∀ i, j ≤ i → i < t → disk.byte (start + 32 * i) ≠ 0x00 := by
  induction fuel generalizing j c with
  | zero => cases h
  | succ fuel ih =>
      have hread := @diskstreamerRead_spec disk (start + 32 * j) 32 (by decide)
      have hsize : (sizeofFatDirectoryItem : Int) = ((32 : Nat) : Int) := rfl
      rw [fat16TotalItemsLoop, hsize, hread] at h
      by_cases hpos : start + 32 * j + 32 < 2147483648
      · have hok : ¬ (rangeRead disk (start + 32 * j) 32).res ≠ bimbleosAllOk := not_not_intro rfl
        have hfirst : (rangeRead disk (start + 32 * j) 32).out.headD 0 = disk.byte (start + 32 * j) := rfl
        have hnext : (rangeRead disk (start + 32 * j) 32).pos = ((start + 32 * (j + 1) : Nat) : Int) := by
          show ((start + 32 * j : Nat) : Int) + (32 : Nat) = _
          omega
        rw [if_pos hpos, Option.bind_some, if_neg hok, hfirst, hnext] at h
        by_cases hend : disk.byte (start + 32 * j) = 0x00
        · -- a slot without a name: the count ends here
          exact ⟨j, Nat.le_refl j, by omega, hend, fun i hlo hhi => by omega⟩
        · rw [if_neg hend] at h
          -- a deleted slot and one in use go on in the same way
          have hrest : ∃ c', fat16TotalItemsLoop disk fuel ((start + 32 * (j + 1) : Nat) : Int) c' = some total := by
            split at h
            · exact ⟨c, h⟩
            · exact ⟨c + 1, h⟩
          obtain ⟨c', hrest⟩ := hrest
          obtain ⟨t, hle, hlt, hlast, hbefore⟩ := ih hrest
          refine ⟨t, by omega, hlt, hlast, ?_⟩
          intro i hlo hhi
          rcases Nat.eq_or_lt_of_le hlo with rfl | hlt
          · exact hend
          · exact hbefore i hlt hhi
      · -- the read would end behind the last position of an `int`
        rw [if_neg hpos, Option.bind_none] at h
        cases h

/-- In front of the disk the streamer reads the first slot of a sector. -/
theorem diskstreamerRead_first (hp : p < 0) (hlo : -2147483648 ≤ p) (haligned : p % 512 = 0) :
    ∃ r, diskstreamerRead disk p 32 = some r ∧ r.res = bimbleosAllOk ∧
      r.out.headD 0 = disk.sector (p.tdiv bimbleosSectorSize) 0 ∧ r.pos = p + 32 := by
  have hsize : (bimbleosSectorSize : Int) = 512 := rfl
  have hoffset : p.tmod 512 = 0 := by
    rw [Int.tmod_eq_emod, if_pos (Or.inr (Int.dvd_of_emod_eq_zero haligned)), haligned]
    rfl
  have hlast : checked ((0 : Int) + 32) = some 32 := rfl
  have hnext : checked (p + 32) = some (p + 32) := checked_of_range (by omega) (by omega)
  unfold diskstreamerRead diskstreamerReadLoop
  simp only [hsize, hoffset, hlast, Option.bind_some, diskReadBlock]
  norm_num [hnext]
  exact ⟨rfl, rfl⟩

/-- It reads no other slot there. -/
theorem diskstreamerRead_later (hp : p < 0) (haligned : p % 512 = 0) :
    diskstreamerRead disk (p + 32) 32 = none := by
  have hsize : (bimbleosSectorSize : Int) = 512 := rfl
  -- the remainder is that of C, so the index into the sector is negative
  have hoffset : (p + 32).tmod 512 = -480 := by
    have habs : ((512 : Int).natAbs : Int) = 512 := rfl
    rw [Int.tmod_eq_emod, if_neg (by omega), habs]
    omega
  have hlast : checked ((-480 : Int) + 32) = some (-448) := rfl
  unfold diskstreamerRead diskstreamerReadLoop
  simp only [hsize, hoffset, hlast, Option.bind_some, diskReadBlock]
  norm_num

theorem countPos_of_lt {sector : Nat} (h : sector * 512 < 2147483648) : countPos sector = (sector * 512 : Nat) := by
  unfold countPos bimbleosSectorSize
  rw [u32_of_lt (by omega), s32_natCast_of_lt h]

/-- A position is that of a sector, in front of the disk or on it. -/
theorem countPos_range (sector : Nat) :
    -2147483648 ≤ countPos sector ∧ countPos sector < 2147483648 ∧ countPos sector % 512 = 0 := by
  unfold countPos bimbleosSectorSize s32 u32
  omega

/-- In front of the disk the count is zero, or undefined. -/
theorem fat16TotalItemsLoop_before (hp : p < 0) (hlo : -2147483648 ≤ p) (haligned : p % 512 = 0) :
    fat16TotalItemsLoop disk (fuel + 2) p 0 = some total ↔
      disk.sector (p.tdiv bimbleosSectorSize) 0 = 0x00 ∧ total = 0 := by
  have hsize : (sizeofFatDirectoryItem : Int) = 32 := rfl
  obtain ⟨r, hread, hres, hfirst, hpos⟩ := @diskstreamerRead_first disk p hp hlo haligned
  have hlater : ∀ c, fat16TotalItemsLoop disk (fuel + 1) (p + 32) c = none := by
    intro c
    rw [fat16TotalItemsLoop, hsize, diskstreamerRead_later hp haligned, Option.bind_none]
  rw [fat16TotalItemsLoop, hsize, hread, Option.bind_some, if_neg (not_not_intro hres), hfirst, hpos, hlater, hlater]
  by_cases hend : disk.sector (p.tdiv bimbleosSectorSize) 0 = 0x00
  · rw [if_pos hend]
    constructor
    · intro h
      cases h
      exact ⟨hend, rfl⟩
    · rintro ⟨_, rfl⟩
      rfl
  · rw [if_neg hend, ite_self]
    constructor
    · intro h
      cases h
    · intro h
      exact absurd h.1 hend

/-- **The count**: it returns exactly when it comes to an end, and then it counts the slots in use before it. -/
theorem fat16GetTotalItemsForDirectory_iff {sector : Nat} :
    fat16GetTotalItemsForDirectory disk sector = some total ↔
      ∃ t, CountEnds disk (countPos sector) t ∧
        total = (Nat.count (InUse disk (countPos sector).toNat) t : Nat) := by
  obtain ⟨hlo, hhi, haligned⟩ := countPos_range sector
  have hloop : fat16GetTotalItemsForDirectory disk sector
      = fat16TotalItemsLoop disk 67108865 (countPos sector) 0 := rfl
  rw [hloop]
  generalize countPos sector = p at hlo hhi haligned ⊢
  -- on the disk the loop goes slot by slot; in front of it the second read is undefined
  by_cases hp : 0 ≤ p
  · obtain ⟨n, rfl⟩ := Int.eq_ofNat_of_zero_le hp
    have hstart : ((n : Nat) : Int) = ((n + 32 * 0 : Nat) : Int) := by omega
    rw [Int.toNat_natCast]
    have heq : ∀ t, Terminated disk n t → n + 32 * (t + 1) < 2147483648 →
        fat16TotalItemsLoop disk 67108865 (n : Int) 0 = some ((Nat.count (InUse disk n) t : Nat) : Int) := by
      intro t ht hlt
      have hloop := @fat16TotalItemsLoop_eq disk n t 0 0 67108865 ht (Nat.zero_le t) (by omega)
      rw [hstart, hloop, if_pos hlt, Nat.count_zero, Nat.sub_zero, Nat.zero_add]
    constructor
    · intro h
      rw [hstart] at h
      obtain ⟨t, _, hlt, hlast, hbefore⟩ := fat16TotalItemsLoop_some h
      have ht : Terminated disk n t := ⟨hlast, fun i hi => hbefore i (Nat.zero_le i) hi⟩
      rw [← hstart, heq t ht hlt] at h
      exact ⟨t, .onDisk hp ht (by omega), (Option.some.inj h).symm⟩
    · rintro ⟨t, hends, rfl⟩
      cases hends with
      | onDisk _ ht hlt => exact heq t ht (by omega)
      | before hneg => exact absurd hneg (by omega)
  · have hbefore := @fat16TotalItemsLoop_before disk 67108863 p total (by omega) hlo haligned
    rw [hbefore]
    constructor
    · rintro ⟨hend, rfl⟩
      exact ⟨0, .before (by omega) rfl hend, rfl⟩
    · rintro ⟨t, hends, rfl⟩
      cases hends with
      | onDisk hpos => exact absurd hpos hp
      | before _ ht hend =>
          subst ht
          exact ⟨hend, rfl⟩

end Count

/-! ## The root directory -/

/-- `fat16_get_root_directory` returns, and what it fills in can be searched: the count is at most
    `root_dir_entries`, every item below it is inside the buffer, and no search reads past the buffer. -/
def RootDirectorySafe (disk : Disk) (header : FatHeader) (k : Kernel) : Prop :=
  ∃ r k', fat16GetRootDirectory disk header k = .ok (r, k') ∧ ∀ root, r = .ok root →
    root.directory.total ≤ header.rootDirEntries.toNat ∧
    (∀ i : Nat, i < root.directory.total → sizeofFatDirectoryItem * (i + 1) ≤ header.rootDirSize ∧
      ∃ item, root.directory.item[i]? = some item) ∧
    ∀ fs name, Avoids (fun k => k.heap.Ready) .outOfBounds (fat16FindItemInDirectory disk fs root.directory name)

/-- The condition: the slots from the root directory's position on come to an end; and if there is room for the
    buffer, the region ends at a possible position, and no more slots are in use than it has. -/
def RootDirectoryOk (disk : Disk) (header : FatHeader) (k : Kernel) : Prop :=
  ∃ t, CountEnds disk (countPos header.rootDirSectorPos) t ∧
    ((heapMalloc k.heap header.rootDirSize).1 ≠ 0 →
      header.rootDirSectorPos * 512 + header.rootDirSize < 2147483648 ∧
        Nat.count (InUse disk (header.rootDirSectorPos * 512)) t ≤ header.rootDirEntries.toNat)

section Search

variable {disk : Disk} {fs : FatPrivate} {entry : FatDirectoryItem} {directory : FatDirectory} {size : Nat}

theorem readyClient : ClientRule (fun k => k.heap.Ready) (fun _ => True) where
  kzalloc := by
    intro size hsize k ptr k' hready hrun
    obtain ⟨_, memory, rfl⟩ := kzalloc_run hrun
    exact ⟨trivial, (heapMalloc_ready hready).1⟩
  kfree := fun _ => Triple.modify fun _ hready => hready.free

theorem kzalloc_avoids (hsize : size ≤ 0xF0000000) :
    Avoids (fun k => k.heap.Ready) .outOfBounds (kzalloc size) := by
  intro k hready h
  obtain ⟨memory, hrun⟩ := kzalloc_returns hready hsize
  rw [hrun] at h
  cases h

/-- Loading a subdirectory makes requests of a possible size only. -/
theorem fat16LoadFatDirectory_inside :
    Avoids (fun k => k.heap.Ready) .outOfBounds (fat16LoadFatDirectory disk fs entry) := by
  unfold fat16LoadFatDirectory
  apply Avoids.ite
  · exact fun _ => Avoids.pure
  intro _
  refine Avoids.bind (kzalloc_avoids (by decide)) (readyClient.kzalloc (by decide)) fun addr => Avoids.const fun _ => ?_
  apply Avoids.ite
  · exact fun _ => Avoids.pure
  intro _
  refine Avoids.bind (.of_never (defined_never (by decide))) defined_keeps fun sector => Avoids.const fun _ => ?_
  refine Avoids.bind (.of_never (defined_never (by decide))) defined_keeps fun total => Avoids.const fun htotal => ?_
  have hsize : u32 (s32 (u32 (total * sizeofFatDirectoryItem))) ≤ 0xF0000000 := by
    obtain ⟨hlo, hhi⟩ := fat16GetTotalItemsForDirectory_bound htotal
    unfold sizeofFatDirectoryItem u32 s32
    omega
  refine Avoids.bind (kzalloc_avoids hsize) (readyClient.kzalloc (u32_lt _)) fun items => Avoids.const fun _ => ?_
  apply Avoids.ite
  · intro _
    exact .of_never (Never.bind (fat16FreeDirectory_never (by decide)) fun _ => Never.pure)
  intro _
  refine .of_never (Never.bind (readInternal_never (by decide) (by decide)) fun r => ?_)
  apply Never.ite
  · exact Never.bind (fat16FreeDirectory_never (by decide)) fun _ => Never.pure
  · exact Never.pure

theorem fat16NewFatItemForDirectoryItem_inside :
    Avoids (fun k => k.heap.Ready) .outOfBounds (fat16NewFatItemForDirectoryItem disk fs entry) := by
  unfold fat16NewFatItemForDirectoryItem
  refine Avoids.bind (kzalloc_avoids (by decide)) (readyClient.kzalloc (by decide)) fun addr => Avoids.const fun _ => ?_
  apply Avoids.ite
  · exact fun _ => Avoids.pure
  intro _
  apply Avoids.ite
  · intro _
    exact Avoids.bind fat16LoadFatDirectory_inside (fat16LoadFatDirectory_keeps readyClient) fun _ => Avoids.pure
  · intro _
    exact Avoids.bind (kzalloc_avoids (by decide)) (readyClient.kzalloc (by decide)) fun _ => Avoids.pure

/-- **A search stays inside the array** when all the items that are counted are there. The induction is on the
    items left. -/
theorem fat16FindLoop_avoids {name : List (BitVec 8)} {left i : Nat} {fItem : Option FatItem}
    (hitems : ∀ m, m < i + left → ∃ item, directory.item[m]? = some item) :
    Avoids (fun k => k.heap.Ready) .outOfBounds (fat16FindLoop disk fs directory name left i fItem) := by
  induction left generalizing i fItem with
  | zero => exact Avoids.pure
  | succ left ih =>
      obtain ⟨item, hitem⟩ := hitems i (by omega)
      have hrest : ∀ found, Avoids (fun k => k.heap.Ready) .outOfBounds
          (fat16FindLoop disk fs directory name left (i + 1) found) := by
        intro found
        apply ih
        intro m hm
        exact hitems m (by omega)
      rw [fat16FindLoop, hitem]
      apply Avoids.ite
      · intro _
        refine Avoids.bind fat16NewFatItemForDirectoryItem_inside
          (fat16NewFatItemForDirectoryItem_keeps readyClient) fun found => Avoids.const fun _ => hrest found
      · intro _
        exact hrest fItem

end Search

section Root

variable {disk : Disk} {header : FatHeader} {k k' : Kernel} {r : Except Int RootDirectory}

/-- The array as it is read. -/
def rootDirectoryAt (disk : Disk) (header : FatHeader) (total : Int) : RootDirectory where
  directory := {
    item := directoryItems (window disk.byte (header.rootDirSectorPos * 512) header.rootDirSize)
      header.rootDirEntries.toNat
    total := total }
  sectorPos := header.rootDirSectorPos
  endingSectorPos := header.rootDirSectorPos + header.rootDirSize / bimbleosSectorSize

theorem rootDirSize_le (header : FatHeader) : header.rootDirSize ≤ 2097120 := by
  have hentries := header.rootDirEntries.isLt
  unfold FatHeader.rootDirSize sizeofFatDirectoryItem
  omega

/-- **What a run of `fat16_get_root_directory` does**: it counts, and then it reads the region into a buffer if it
    gets one. -/
theorem fat16GetRootDirectory_run (hrun : fat16GetRootDirectory disk header k = .ok (r, k')) :
    ∃ total, fat16GetTotalItemsForDirectory disk header.rootDirSectorPos = some total ∧
      ∃ dir, kzalloc header.rootDirSize k = .ok (dir, k') ∧ (dir = 0 ∧ r = .error (-ENOMEM) ∨
        dir ≠ 0 ∧ header.rootDirSectorPos * 512 + header.rootDirSize < 2147483648 ∧
          r = .ok (rootDirectoryAt disk header total)) := by
  have hsize := rootDirSize_le header
  unfold fat16GetRootDirectory at hrun
  obtain ⟨total, k₁, hcount, hrun₁⟩ := bind_eq_ok.mp hrun
  obtain ⟨htotal, rfl⟩ := defined_run hcount
  obtain ⟨dir, k₂, halloc, hrun₂⟩ := bind_eq_ok.mp hrun₁
  refine ⟨total, htotal, dir, ?_⟩
  -- without a buffer nothing is read
  by_cases hdir : dir = 0
  · rw [if_pos hdir] at hrun₂
    cases hrun₂
    exact ⟨halloc, Or.inl ⟨hdir, rfl⟩⟩
  rw [if_neg hdir] at hrun₂
  obtain ⟨pos, k₃, hpos, hrun₃⟩ := bind_eq_ok.mp hrun₂
  obtain ⟨hchecked, rfl⟩ := defined_run hpos
  obtain ⟨read, k₄, hread, hrun₄⟩ := bind_eq_ok.mp hrun₃
  obtain ⟨hstream, rfl⟩ := defined_run hread
  obtain ⟨_, rfl⟩ := checked_natCast hchecked
  rw [diskstreamerRead_spec (by omega)] at hstream
  split at hstream
  · rename_i hend
    cases hstream
    have hok : ¬ (rangeRead disk (header.rootDirSectorPos * bimbleosSectorSize) header.rootDirSize).res
        ≠ bimbleosAllOk := not_not_intro rfl
    rw [if_neg hok] at hrun₄
    cases hrun₄
    exact ⟨halloc, Or.inr ⟨hdir, hend, rfl⟩⟩
  · cases hstream

/-- It returns when the count does and the region is at possible positions. -/
theorem fat16GetRootDirectory_returns {total : Int} (hready : k.heap.Ready)
    (hcount : fat16GetTotalItemsForDirectory disk header.rootDirSectorPos = some total)
    (hend : (heapMalloc k.heap header.rootDirSize).1 ≠ 0 →
      header.rootDirSectorPos * 512 + header.rootDirSize < 2147483648) :
    ∃ r k', fat16GetRootDirectory disk header k = .ok (r, k') := by
  have hsize := rootDirSize_le header
  obtain ⟨memory, halloc⟩ := @kzalloc_returns header.rootDirSize k hready (by omega)
  unfold fat16GetRootDirectory
  rw [hcount, bind_of_ok defined_some, bind_of_ok halloc]
  by_cases hdir : (heapMalloc k.heap header.rootDirSize).1 = 0
  · rw [if_pos hdir]
    exact ⟨_, _, rfl⟩
  · have hlt := hend hdir
    have hpos : checked ((header.rootDirSectorPos * bimbleosSectorSize : Nat) : Int)
        = some ((header.rootDirSectorPos * 512 : Nat) : Int) := checked_of_range (by omega) (by
      unfold bimbleosSectorSize
      omega)
    have hread := @diskstreamerRead_spec disk (header.rootDirSectorPos * 512) header.rootDirSize (by omega)
    rw [if_pos hlt] at hread
    rw [if_neg hdir, hpos, bind_of_ok defined_some, hread, bind_of_ok defined_some]
    exact ⟨_, _, rfl⟩

/-- A root directory that is safe to search ends in time. -/
theorem RootDirectorySafe.ends (hsafe : RootDirectorySafe disk header k) : RootDirectoryOk disk header k := by
  obtain ⟨r, k', hrun, hroot⟩ := hsafe
  obtain ⟨total, hcount, dir, halloc, hcases⟩ := fat16GetRootDirectory_run hrun
  obtain ⟨t, hends, rfl⟩ := fat16GetTotalItemsForDirectory_iff.mp hcount
  refine ⟨t, hends, ?_⟩
  rw [← (kzalloc_run halloc).1]
  intro hdir
  rcases hcases with ⟨hzero, _⟩ | ⟨_, hend, rfl⟩
  · exact absurd hzero hdir
  · have hpos := Nat.lt_of_le_of_lt (Nat.le_add_right _ _) hend
    have hle := (hroot _ rfl).1
    rw [countPos_of_lt hpos, Int.toNat_natCast] at hle
    exact ⟨hend, Int.ofNat_le.mp hle⟩

/-- The items of the array. -/
theorem rootDirectoryAt_item {total : Int} {i : Nat} (hi : i < header.rootDirEntries.toNat) :
    sizeofFatDirectoryItem * (i + 1) ≤ header.rootDirSize ∧
      ∃ item, (rootDirectoryAt disk header total).directory.item[i]? = some item := by
  have hinside : 32 * i + 32 ≤ header.rootDirSize := by
    unfold FatHeader.rootDirSize sizeofFatDirectoryItem
    omega
  refine ⟨?_, _, directoryItems_get hi hinside⟩
  unfold sizeofFatDirectoryItem
  omega

/-- One that ends in time is safe to search. -/
theorem RootDirectoryOk.safe (hready : k.heap.Ready) (hok : RootDirectoryOk disk header k) :
    RootDirectorySafe disk header k := by
  obtain ⟨t, hends, hroom⟩ := hok
  have hcount := fat16GetTotalItemsForDirectory_iff.mpr ⟨t, hends, rfl⟩
  obtain ⟨r, k', hrun⟩ := fat16GetRootDirectory_returns hready hcount fun hne => (hroom hne).1
  refine ⟨r, k', hrun, ?_⟩
  rintro root rfl
  obtain ⟨total, hcount', dir, halloc, hcases⟩ := fat16GetRootDirectory_run hrun
  rcases hcases with ⟨_, hroot⟩ | ⟨hdir, hend, hroot⟩
  · cases hroot
  cases hroot
  rw [(kzalloc_run halloc).1] at hdir
  have hle := (hroom hdir).2
  -- the region is on the disk, so its position is that of the count
  have hpos := Nat.lt_of_le_of_lt (Nat.le_add_right _ _) (hroom hdir).1
  rw [hcount, countPos_of_lt hpos, Int.toNat_natCast] at hcount'
  cases hcount'
  refine ⟨Int.ofNat_le.mpr hle, ?_, ?_⟩
  · -- what is counted is inside the buffer
    intro i hi
    have hlt : i < Nat.count (InUse disk (header.rootDirSectorPos * 512)) t := Int.ofNat_lt.mp hi
    exact rootDirectoryAt_item (Nat.lt_of_lt_of_le hlt hle)
  · intro fs name
    apply fat16FindLoop_avoids
    intro m hm
    have hlt : m < Nat.count (InUse disk (header.rootDirSectorPos * 512)) t := by
      rw [Nat.zero_add] at hm
      exact hm
    exact (rootDirectoryAt_item (Nat.lt_of_lt_of_le hlt hle)).2

end Root

/-- **The root directory is safe to search exactly when its slots end in time**: they come to an end, and no more of
    them are in use than the header says, unless there is no room for the buffer at all. -/
theorem fat16GetRootDirectory_safe_iff {disk : Disk} {header : FatHeader} {k : Kernel} (hready : k.heap.Ready) :
    RootDirectorySafe disk header k ↔ RootDirectoryOk disk header k :=
  ⟨RootDirectorySafe.ends, RootDirectoryOk.safe hready⟩

/-! ### A full root directory -/

/-- One table of one sector, and a root directory of one sector, sector 2. -/
def fullHeader : FatHeader where
  reservedSectors := 1
  sectorsPerCluster := 1
  fatCopies := 1
  rootDirEntries := 16
  sectorsPerFat := 1

/-- All slots of the root directory are in use, and the data behind it starts with a byte that is not zero. -/
def fullDisk : Disk where
  sector := fun lba i => if lba = 2 ∨ lba = 3 ∧ i = 0 then 0x41 else 0

theorem fullDisk_safe_iff :
    RootDirectorySafe fullDisk fullHeader bootKernel ↔ RootDirectoryOk fullDisk fullHeader bootKernel :=
  fat16GetRootDirectory_safe_iff bootKernel_ready

/-- The first small request is answered. -/
theorem bootKernel_malloc {size : Nat} (hlo : 1 ≤ size) (hhi : size ≤ 4096) :
    (heapMalloc bootKernel.heap size).1 ≠ 0 := by
  rcases kzalloc_one size bootKernel_ready hlo hhi with ⟨_, hfull⟩ | ⟨ptr, k', hrun, hne, _⟩
  · rw [bootKernel_freeBlocks] at hfull
    cases hfull
  · rw [← (kzalloc_run hrun).1]
    exact hne

/-- One slot too many is counted. -/
theorem fat16GetRootDirectory_overruns :
    ¬ ∀ (disk : Disk) (header : FatHeader) (k : Kernel), k.heap.Ready → RootDirectorySafe disk header k := by
  intro h
  obtain ⟨t, hends, hroom⟩ := (h fullDisk fullHeader bootKernel bootKernel_ready).ends
  have hsector : fullHeader.rootDirSectorPos = 2 := rfl
  have hpos : countPos 2 = 1024 := by decide
  have hend : Terminated fullDisk 1024 17 := ⟨by decide, by decide⟩
  rw [hsector, hpos] at hends
  -- sixteen slots of the region, and the first one behind it
  have ht : t = 17 := by
    cases hends with
    | onDisk _ ht => exact ht.unique hend
    | before hneg => exact absurd hneg (by decide)
  have hcount := (hroom (bootKernel_malloc (by decide) (by decide))).2
  rw [ht, hsector] at hcount
  exact absurd hcount (by decide)

/-! ## Subdirectories -/

/-- The subdirectory `item` is stored in the chain `c` of `m + 1` clusters, and has `t` entries, none of them
    deleted. Looking up a cluster and reading from the first one on deliver the chain. -/
structure ChainDirectory (disk : Disk) (fs : FatPrivate) (item : FatDirectoryItem) (c : Nat → Nat) (m t : Nat) :
    Prop where
  subdirectory : item.isSubdirectory = true
  first : c 0 = fat16GetFirstCluster item
  cluster : ∀ k, k ≤ m → 2 ≤ c k
  lookup : ∀ o, o < (m + 1) * fs.clusterBytes →
    fat16GetClusterForOffset disk fs (c 0) o = some (c (o / fs.clusterBytes) : Int)
  read : ∀ total : Nat, total ≤ (m + 1) * fs.clusterBytes → total < 2147483648 →
    fat16ReadInternal disk fs (c 0) 0 total = some (0, window (chainByte disk fs c) 0 total)
  size : 32 * t ≤ (m + 1) * fs.clusterBytes
  entries : ∀ i, i < t → chainByte disk fs c (32 * i) ≠ 0x00 ∧ chainByte disk fs c (32 * i) ≠ 0xE5
  last : 32 * t < (m + 1) * fs.clusterBytes → chainByte disk fs c (32 * t) = 0x00

/-- The pass that counts finds the entries of the chain, and so does every load. -/
structure SameDirectory (disk : Disk) (fs : FatPrivate) (item : FatDirectoryItem) (c : Nat → Nat) (t : Nat) :
    Prop where
  counted : subdirectoryTotal disk fs item = some (t : Int)
  loaded : ∀ {dir items : Nat} {content : FatDirectory} {k k' : Kernel},
    fat16LoadFatDirectory disk fs item k = .ok (.live dir items content, k') →
      content = { item := directoryItems (window (chainByte disk fs c) 0 (32 * t)) t, total := t }

/-- The condition: the directory ends in its first cluster, or the slots that are stored on the disk behind that
    cluster come to an end after as many slots in use as the rest of the chain has. -/
def CountsOn (disk : Disk) (fs : FatPrivate) (cluster t : Nat) : Prop :=
  32 * t < fs.clusterBytes ∨ ∃ u, Terminated disk (fs.clusterPos cluster fs.clusterBytes) u ∧
    fs.clusterPos cluster fs.clusterBytes + 32 * (u + 1) < 2147483648 ∧
    Nat.count (InUse disk (fs.clusterPos cluster fs.clusterBytes)) u = t - fs.clusterBytes / 32

section Chain

variable {disk : Disk} {fs : FatPrivate} {item : FatDirectoryItem} {c : Nat → Nat} {m t u start : Nat} {total : Int}

theorem clusterBytes_slots (fs : FatPrivate) : 32 * (fs.clusterBytes / 32) = fs.clusterBytes := by
  unfold FatPrivate.clusterBytes bimbleosSectorSize
  omega

theorem clusterPos_add (cluster o : Nat) : fs.clusterPos cluster o = fs.clusterPos cluster 0 + o := by
  unfold FatPrivate.clusterPos
  rw [Nat.add_zero]

/-- The first sector of a cluster at a possible position. -/
theorem fat16ClusterToSector_eq {cluster : Nat} (hcluster : 2 ≤ cluster) (hB : 0 < fs.clusterBytes)
    (hpos : fs.clusterPos cluster 0 < 2147483648) : ∃ sector : Nat,
      fat16ClusterToSector fs cluster = some (sector : Int) ∧ sector * 512 = fs.clusterPos cluster 0 := by
  have hspc : 0 < fs.header.sectorsPerCluster.toNat := Nat.pos_of_mul_pos_right hB
  obtain ⟨a, rfl⟩ : ∃ a, cluster = a + 2 := ⟨cluster - 2, by omega⟩
  have hle : a ≤ a * fs.header.sectorsPerCluster.toNat := Nat.le_mul_of_pos_right a hspc
  have hstart : fs.clusterPos (a + 2) 0 = (fs.endingSectorPos + a * fs.header.sectorsPerCluster.toNat) * 512 := by
    unfold FatPrivate.clusterPos
    rw [Nat.add_sub_cancel, Nat.add_zero]
  rw [hstart] at hpos ⊢
  refine ⟨_, ?_, rfl⟩
  generalize hb : a * fs.header.sectorsPerCluster.toNat = b at hle hpos ⊢
  have hahead : ((a + 2 : Nat) : Int) - 2 = (a : Nat) := by omega
  unfold fat16ClusterToSector
  rw [hahead, checked_of_range (by omega) (by omega), Option.bind_some, ← Int.natCast_mul, hb,
    checked_of_range (by omega) (by omega), Option.bind_some, ← Int.natCast_add, checked_of_range (by omega) (by omega)]

/-- The slots behind the first `n` ones. -/
theorem count_behind {n : Nat} (hused : ∀ i, i < n → InUse disk start i) :
    Nat.count (InUse disk start) (n + u) = n + Nat.count (InUse disk (start + 32 * n)) u := by
  have hshift : (fun i => InUse disk start (n + i)) = InUse disk (start + 32 * n) := by
    funext i
    unfold InUse
    rw [Nat.mul_add, Nat.add_assoc]
  rw [Nat.count_add, Nat.count_iff_forall.mpr hused]
  congr 1
  simp only [hshift]

theorem ChainDirectory.pos (h : ChainDirectory disk fs item c m t) : 0 < fs.clusterBytes :=
  Nat.pos_of_ne_zero (fat16ReadInternal_clusterBytes (h.read 0 (Nat.zero_le _) (by decide)))

/-- The first cluster is at possible positions. -/
theorem ChainDirectory.end_lt (h : ChainDirectory disk fs item c m t) :
    fs.clusterPos (c 0) fs.clusterBytes < 2147483648 := by
  have hpos := h.pos
  have hlen := clusterBytes_le fs
  have hle : fs.clusterBytes ≤ (m + 1) * fs.clusterBytes := Nat.le_mul_of_pos_left _ (Nat.succ_pos m)
  have hread := h.read fs.clusterBytes hle (by omega)
  have hlast := @fat16ReadLoop_last disk fs 0 fs.clusterBytes (c 0) (c 0) fs.clusterBytes (h.cluster 0 (Nat.zero_le m))
    (fat16GetClusterForOffset_first hpos) hpos (Nat.le_refl _)
  have hloop : fat16ReadInternal disk fs (c 0) 0 (fs.clusterBytes : Int)
      = fat16ReadLoop disk fs (c 0) (fs.clusterBytes + 1) ((0 : Nat) : Int) (fs.clusterBytes : Int) := rfl
  rw [hloop, hlast, Nat.zero_mod] at hread
  split at hread
  · rename_i hend
    rwa [← clusterPos_add] at hend
  · cases hread

/-- The slots of the first cluster are where its bytes are stored. -/
theorem chainByte_first {o : Nat} (ho : o < fs.clusterBytes) :
    chainByte disk fs c o = disk.byte (fs.clusterPos (c 0) 0 + o) := by
  unfold chainByte FatPrivate.chainPos
  rw [Nat.div_eq_of_lt ho, Nat.mod_eq_of_lt ho, clusterPos_add]

/-- What is counted for a subdirectory. -/
theorem ChainDirectory.total_iff (h : ChainDirectory disk fs item c m t) : subdirectoryTotal disk fs item = some total ↔
    ∃ u, Terminated disk (fs.clusterPos (c 0) 0) u ∧ fs.clusterPos (c 0) 0 + 32 * (u + 1) < 2147483648 ∧
      total = (Nat.count (InUse disk (fs.clusterPos (c 0) 0)) u : Nat) := by
  have hend := h.end_lt
  rw [clusterPos_add] at hend
  have hlt := Nat.lt_of_le_of_lt (Nat.le_add_right _ _) hend
  obtain ⟨sector, hsector, hstart⟩ := fat16ClusterToSector_eq (h.cluster 0 (Nat.zero_le m)) h.pos hlt
  have hpos : countPos sector = (fs.clusterPos (c 0) 0 : Nat) := by rw [countPos_of_lt (by omega), hstart]
  unfold subdirectoryTotal
  rw [← h.first, hsector, Option.bind_some, u32_of_lt (by omega), fat16GetTotalItemsForDirectory_iff, hpos,
    Int.toNat_natCast]
  constructor
  · rintro ⟨u, hends, htotal⟩
    cases hends with
    | onDisk _ hterminated hlt => exact ⟨u, hterminated, by omega, htotal⟩
    | before hneg => exact absurd hneg (by omega)
  · rintro ⟨u, hterminated, hlt, htotal⟩
    exact ⟨u, .onDisk (by omega) hterminated (by omega), htotal⟩

/-- The slots of the first cluster are entries, as far as there are any. -/
theorem ChainDirectory.entry {i : Nat} (h : ChainDirectory disk fs item c m t) (hi : 32 * i < fs.clusterBytes)
    (ht : i < t) :
    disk.byte (fs.clusterPos (c 0) 0 + 32 * i) ≠ 0x00 ∧ InUse disk (fs.clusterPos (c 0) 0) i := by
  have hentry := h.entries i ht
  rw [chainByte_first hi] at hentry
  exact hentry

/-- Slots that end behind the first `n` ones, which are no ends. -/
theorem terminated_behind {n : Nat} (hused : ∀ i, i < n → disk.byte (start + 32 * i) ≠ 0x00) :
    Terminated disk start (n + u) ↔ Terminated disk (start + 32 * n) u := by
  have hshift : ∀ i, start + 32 * (n + i) = start + 32 * n + 32 * i := fun i => by omega
  constructor
  · intro h
    refine ⟨by rw [← hshift]; exact h.last, ?_⟩
    intro i hi
    rw [← hshift]
    exact h.before (n + i) (by omega)
  · intro h
    refine ⟨by rw [hshift]; exact h.last, ?_⟩
    intro i hi
    by_cases hn : i < n
    · exact hused i hn
    · obtain ⟨d, rfl⟩ := Nat.exists_eq_add_of_le (Nat.not_lt.mp hn)
      rw [hshift]
      exact h.before d (by omega)

/-- A directory that ends in its first cluster is counted. -/
theorem ChainDirectory.counted_first (h : ChainDirectory disk fs item c m t) (ht : 32 * t < fs.clusterBytes) :
    subdirectoryTotal disk fs item = some (t : Int) := by
  have hend := h.end_lt
  have hslots := clusterBytes_slots fs
  have hle : fs.clusterBytes ≤ (m + 1) * fs.clusterBytes := Nat.le_mul_of_pos_left _ (Nat.succ_pos m)
  have hlast := h.last (by omega)
  rw [chainByte_first ht] at hlast
  rw [clusterPos_add] at hend
  refine h.total_iff.mpr ⟨t, ⟨hlast, ?_⟩, by omega, ?_⟩
  · intro i hi
    exact (h.entry (by omega) hi).1
  · rw [Nat.count_iff_forall.mpr]
    intro i hi
    exact (h.entry (by omega) hi).2

/-- **The count is the chain's** exactly when the slots behind the first cluster are as many as the rest of the
    chain has. -/
theorem ChainDirectory.counted_iff (h : ChainDirectory disk fs item c m t) :
    subdirectoryTotal disk fs item = some (t : Int) ↔ CountsOn disk fs (c 0) t := by
  unfold CountsOn
  rcases Nat.lt_or_ge (32 * t) fs.clusterBytes with hlt | hge
  · exact iff_of_true (h.counted_first hlt) (Or.inl hlt)
  have hslots := clusterBytes_slots fs
  -- all the slots of the first cluster are entries
  have hused : ∀ i, i < fs.clusterBytes / 32 → disk.byte (fs.clusterPos (c 0) 0 + 32 * i) ≠ 0x00 ∧
      InUse disk (fs.clusterPos (c 0) 0) i := fun i hi => h.entry (by omega) (by omega)
  have hnonzero := fun i hi => (hused i hi).1
  have hinUse := fun i hi => (hused i hi).2
  rw [h.total_iff, clusterPos_add (c 0) fs.clusterBytes]
  generalize fs.clusterPos (c 0) 0 = start at hused hnonzero hinUse ⊢
  generalize hn : fs.clusterBytes / 32 = n at hslots hused hnonzero hinUse ⊢
  rw [← hslots]
  constructor
  · rintro ⟨u, hterminated, hend, htotal⟩
    -- the end is behind the first cluster
    have hle : n ≤ u := by
      by_contra hlt
      exact hnonzero u (by omega) hterminated.last
    obtain ⟨d, rfl⟩ := Nat.exists_eq_add_of_le hle
    rw [count_behind hinUse] at htotal
    exact Or.inr ⟨d, (terminated_behind hnonzero).mp hterminated, by omega, by omega⟩
  · rintro (hfirst | ⟨d, hterminated, hend, htotal⟩)
    · omega
    · refine ⟨n + d, (terminated_behind hnonzero).mpr hterminated, by omega, ?_⟩
      rw [count_behind hinUse]
      omega

/-- What is loaded after a count that is the chain's. -/
theorem ChainDirectory.load (h : ChainDirectory disk fs item c m t)
    (hcounted : subdirectoryTotal disk fs item = some (t : Int)) : SameDirectory disk fs item c t := by
  refine ⟨hcounted, ?_⟩
  intro dir items content k k' hrun
  obtain ⟨sector, total, bytes, hsector, htotal, hread, rfl⟩ := fat16LoadFatDirectory_live hrun
  have hsame : subdirectoryTotal disk fs item = some total := by
    unfold subdirectoryTotal
    rw [hsector, Option.bind_some, htotal]
  -- the load counts again, and its count is the same
  obtain rfl : total = (t : Int) := Option.some.inj (hsame.symm.trans hcounted)
  -- the count bounds the positions, and so the size
  obtain ⟨u, _, hend, hcount⟩ := h.total_iff.mp hcounted
  have hle : t ≤ u := (Int.ofNat_inj.mp hcount).trans_le (Nat.count_le _)
  have hsize : s32 (u32 ((t : Int) * (sizeofFatDirectoryItem : Int))) = ((32 * t : Nat) : Int) := by
    unfold sizeofFatDirectoryItem
    rw [← Int.natCast_mul, u32_of_lt (by omega), s32_natCast_of_lt (by omega), Nat.mul_comm]
  have hchain := h.read (32 * t) h.size (by omega)
  rw [hsize, ← h.first, hchain] at hread
  cases hread
  rw [Int.toNat_natCast]

end Chain

/-- **The two passes of `fat16_load_fat_directory` see the same directory exactly when** it ends in its first cluster,
    or the slots stored behind that cluster are, up to their end, as many as the rest of the chain has. -/
theorem chainDirectory_same_iff {disk : Disk} {fs : FatPrivate} {item : FatDirectoryItem} {c : Nat → Nat} {m t : Nat}
    (h : ChainDirectory disk fs item c m t) : SameDirectory disk fs item c t ↔ CountsOn disk fs (c 0) t :=
  ⟨fun hsame => h.counted_iff.mp hsame.counted, fun hcond => h.load (h.counted_iff.mpr hcond)⟩

/-! ### A directory in two clusters -/

/-- A read that starts with the chain stays in its clusters. -/
theorem readOk_start {disk : Disk} {fs : FatPrivate} {c : Nat → Nat} {m total : Nat}
    (hend : ∀ k, k ≤ m → fs.clusterPos (c k) fs.clusterBytes < 2147483648)
    (hsize : total ≤ (m + 1) * fs.clusterBytes) (htotal : total < 2147483648) : ReadOk disk fs c 0 total := by
  intro i hi
  have hB : 0 < fs.clusterBytes := by
    rcases Nat.eq_zero_or_pos fs.clusterBytes with h | h
    · rw [h, Nat.mul_zero] at hsize
      omega
    · exact h
  have hle : i ≤ m := by
    have hlt : i * fs.clusterBytes < (m + 1) * fs.clusterBytes := Nat.lt_of_lt_of_le hi hsize
    exact Nat.lt_succ_iff.mp (Nat.lt_of_mul_lt_mul_right hlt)
  have hoffset : (0 + i * fs.clusterBytes) % fs.clusterBytes = 0 := by rw [Nat.zero_add, Nat.mul_mod_left]
  have hcluster : (0 + i * fs.clusterBytes) / fs.clusterBytes = i := by rw [Nat.zero_add, Nat.mul_div_cancel _ hB]
  refine ⟨by omega, ?_, ?_⟩
  · have hpos := hend i hle
    rw [clusterPos_add] at hpos
    unfold FatPrivate.chainPos
    rw [hoffset, hcluster]
    omega
  · intro j hj hacross
    rw [hoffset] at hacross
    omega

/-- Cluster 2 goes on in cluster 5, and the sector between them is empty: 16 entries, and one more in cluster 5. -/
def chainDisk : Disk where
  sector := fun lba i => if lba = 4 ∧ i = 0 then 5 else if lba = 10 ∨ lba = 13 ∧ i = 0 then 0x41 else 0

def chainItem : FatDirectoryItem where
  filename := [0x44]
  ext := []
  attr := fatFileSubdirectory
  high16BitsFirstCluster := 0
  low16BitsFirstCluster := 2
  filesize := 0

theorem chainDisk_read (total : Nat) (hsize : total ≤ (1 + 1) * smallFat.clusterBytes) :
    fat16ReadInternal chainDisk smallFat (splitChain 0) 0 total
      = some (0, window (chainByte chainDisk smallFat splitChain) 0 total) := by
  have hbytes : (1 + 1) * smallFat.clusterBytes = 1024 := rfl
  rcases Nat.eq_zero_or_pos total with rfl | hpos
  · decide +kernel
  · have hlookup := @smallFat_lookup chainDisk (by decide +kernel)
    unfold fat16ReadInternal
    refine (fat16ReadLoop_iff (m := 1) (by decide) hlookup (by decide) hpos (Nat.lt_succ_self _) (by decide)
      (by rwa [Nat.zero_add])).mpr ?_
    refine readOk_start (m := 1) (fun k hk => ?_) hsize (by omega)
    interval_cases k
    · decide
    · decide

theorem chainDisk_directory : ChainDirectory chainDisk smallFat chainItem splitChain 1 17 where
  subdirectory := by decide
  first := by decide
  cluster := by decide
  lookup := smallFat_lookup (by decide +kernel)
  read := fun total hsize _ => chainDisk_read total hsize
  size := by decide
  entries := by decide +kernel
  last := fun _ => by decide +kernel

/-- The count stops in the sector behind cluster 2. -/
theorem chainDisk_counts : ¬ CountsOn chainDisk smallFat 2 17 := by
  rintro (hfirst | ⟨u, hends, _, hcount⟩)
  · exact absurd hfirst (by decide)
  · -- sector 11, the one behind cluster 2, is empty
    have hzero : Terminated chainDisk (smallFat.clusterPos 2 smallFat.clusterBytes) 0 :=
      ⟨by decide, fun i hi => absurd hi (Nat.not_lt_zero i)⟩
    rw [hends.unique hzero, Nat.count_zero] at hcount
    exact absurd hcount (by decide)

theorem chainDisk_same_iff :
    SameDirectory chainDisk smallFat chainItem splitChain 17 ↔ CountsOn chainDisk smallFat (splitChain 0) 17 :=
  chainDirectory_same_iff chainDisk_directory

/-- The entry in the second cluster is not counted. -/
theorem fat16LoadFatDirectory_misses : ¬ ∀ (disk : Disk) (fs : FatPrivate) (item : FatDirectoryItem) (c : Nat → Nat)
    (m t : Nat), ChainDirectory disk fs item c m t → SameDirectory disk fs item c t := by
  intro h
  have hsame := h chainDisk smallFat chainItem splitChain 1 17 chainDisk_directory
  exact chainDisk_counts (chainDisk_directory.counted_iff.mp hsame.counted)

end BimbleOS
