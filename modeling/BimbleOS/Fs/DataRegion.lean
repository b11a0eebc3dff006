import BimbleOS.Fs.DirectoryCount

/-!
# `Fs.DataRegion` — where the data clusters start

`fat16_get_root_directory` notes in `ending_sector_pos` where the root directory ends, and
`fat16_cluster_to_sector` counts the data clusters from there. The size of the root directory is rounded up to whole
sectors for `total_sectors`, which nothing uses, and rounded down for `ending_sector_pos`. So the two functions agree
with the layout of the disk only if the root directory fills its last sector (`fat16ClusterToSector_iff`); otherwise
every cluster is looked for one sector too early, and cluster 2 begins with the last items of the root directory.
-/

namespace BimbleOS

open CWord Exec

/-- The first sector of a data cluster. The clusters are numbered from 2. -/
def FatHeader.clusterSector (header : FatHeader) (cluster : Int) : Int :=
  header.dataStart + (cluster - 2) * header.sectorsPerCluster.toNat

/-- The root directory fills its last sector. -/
def FatHeader.FillsSectors (header : FatHeader) : Prop := header.rootDirSize % bimbleosSectorSize = 0

instance (header : FatHeader) : Decidable header.FillsSectors := inferInstanceAs (Decidable (_ = _))

/-- The part of `struct FAT_Private` that is used for reading, once the root directory is there. -/
def RootDirectory.fatPrivate (root : RootDirectory) (header : FatHeader) : FatPrivate where
  header := header
  endingSectorPos := root.endingSectorPos

section DataRegion

variable {disk : Disk} {header : FatHeader} {fs : FatPrivate} {root : RootDirectory} {k k' : Kernel} {cluster : Int}

/-- A sector that is filled in part is one more. -/
theorem rootDirSectors_eq (header : FatHeader) : header.rootDirSectors
    = header.rootDirSize / bimbleosSectorSize + if header.FillsSectors then 0 else 1 := by
  have hceil : header.rootDirSectors = (header.rootDirSize + 512 - 1) / 512 := Nat.ceilDiv_eq_add_pred_div _ _
  have hsize : bimbleosSectorSize = 512 := rfl
  rw [hceil, hsize]
  by_cases hfills : header.FillsSectors
  · rw [if_pos hfills]
    unfold FatHeader.FillsSectors bimbleosSectorSize at hfills
    omega
  · rw [if_neg hfills]
    unfold FatHeader.FillsSectors bimbleosSectorSize at hfills
    omega

/-- What `fat16_get_root_directory` notes. -/
theorem fat16GetRootDirectory_endingSectorPos (hrun : fat16GetRootDirectory disk header k = .ok (.ok root, k')) :
    root.endingSectorPos = header.rootDirSectorPos + header.rootDirSize / bimbleosSectorSize := by
  obtain ⟨total, _, dir, _, ⟨_, hroot⟩ | ⟨_, _, hroot⟩⟩ := fat16GetRootDirectory_run hrun
  · cases hroot
  · cases hroot
    rfl

/-- From cluster 2 on, only the size of an `int` stands in the way. -/
theorem fat16ClusterToSector_checked (hlo : 2 ≤ cluster) (hhi : cluster < 2147483648) :
    fat16ClusterToSector fs cluster
      = checked (fs.endingSectorPos + (cluster - 2) * fs.header.sectorsPerCluster.toNat) := by
  obtain ⟨a, rfl⟩ : ∃ a : Nat, cluster = a + 2 := ⟨(cluster - 2).toNat, by omega⟩
  have hahead : (a : Int) + 2 - 2 = a := by omega
  unfold fat16ClusterToSector
  rw [hahead]
  refine checked_bind rfl (fun h => by omega) fun _ => ?_
  rw [← Nat.cast_mul]
  generalize a * fs.header.sectorsPerCluster.toNat = sectors
  exact checked_bind rfl (fun h => checked_of_ge (by omega)) fun _ => rfl

/-- A directory that does not fill its last sector puts every cluster one sector too early. -/
theorem fat16ClusterToSector_root (hrun : fat16GetRootDirectory disk header k = .ok (.ok root, k'))
    (hlo : 2 ≤ cluster) (hhi : cluster < 2147483648) : fat16ClusterToSector (root.fatPrivate header) cluster
      = checked (header.clusterSector cluster - if header.FillsSectors then 0 else 1) := by
  have hpos := fat16GetRootDirectory_endingSectorPos hrun
  have hsectors := rootDirSectors_eq header
  have hfs : ((root.fatPrivate header).endingSectorPos : Int)
      = header.dataStart - if header.FillsSectors then 0 else 1 := by
    have hroot : (root.fatPrivate header).endingSectorPos = root.endingSectorPos := rfl
    unfold FatHeader.dataStart
    unfold FatHeader.rootDirSectorPos at hpos
    rw [hroot, hpos, hsectors]
    split
    · omega
    · omega
  rw [fat16ClusterToSector_checked hlo hhi, hfs]
  unfold FatHeader.clusterSector
  exact congrArg checked (sub_add_eq_add_sub ..)

theorem clusterSector_nonneg (hlo : 2 ≤ cluster) : 0 ≤ header.clusterSector cluster := by
  have hahead : 0 ≤ (cluster - 2) * (header.sectorsPerCluster.toNat : Int) :=
    Int.mul_nonneg (by omega) (Int.natCast_nonneg _)
  unfold FatHeader.clusterSector
  omega

/-- Cluster 2 is then looked for in the root directory. -/
theorem fat16ClusterToSector_inside (hrun : fat16GetRootDirectory disk header k = .ok (.ok root, k'))
    (h : ¬ header.FillsSectors) :
    ∃ sector : Nat, fat16ClusterToSector (root.fatPrivate header) 2 = some (sector : Int) ∧
      header.rootDirSectorPos ≤ sector ∧ sector < header.rootDirSectorPos + header.rootDirSectors := by
  have hsize := rootDirSize_le header
  have hcopies := header.fatCopies.isLt
  have htable := header.sectorsPerFat.isLt
  have hreserved := header.reservedSectors.isLt
  have htables : header.fatCopies.toNat * header.sectorsPerFat.toNat ≤ 255 * 65535 :=
    Nat.mul_le_mul (by omega) (by omega)
  have hpos := fat16GetRootDirectory_endingSectorPos hrun
  have hsectors := rootDirSectors_eq header
  rw [if_neg h] at hsectors
  unfold FatHeader.rootDirSectorPos bimbleosSectorSize at hpos
  unfold FatHeader.rootDirSectorPos
  unfold bimbleosSectorSize at hsectors
  refine ⟨root.endingSectorPos, ?_, by omega, by omega⟩
  rw [fat16ClusterToSector_checked (by decide) (by decide)]
  show checked ((root.endingSectorPos : Int) + (2 - 2) * _) = _
  rw [Int.sub_self, Int.zero_mul, Int.add_zero]
  exact checked_of_range (by omega) (by omega)

end DataRegion

/-- **Where the data clusters are looked for**: in their sectors exactly when the root directory fills its last one,
    for every cluster whose sector number is an `int`. -/
theorem fat16ClusterToSector_iff {disk : Disk} {header : FatHeader} {root : RootDirectory} {k k' : Kernel}
    {cluster : Int} (hrun : fat16GetRootDirectory disk header k = .ok (.ok root, k')) (hlo : 2 ≤ cluster)
    (hhi : cluster < 2147483648) :
    fat16ClusterToSector (root.fatPrivate header) cluster = some (header.clusterSector cluster) ↔
      header.FillsSectors ∧ header.clusterSector cluster < 2147483648 := by
  have hnonneg := @clusterSector_nonneg header cluster hlo
  by_cases hfills : header.FillsSectors
  · rw [fat16ClusterToSector_root hrun hlo hhi, if_pos hfills, Int.sub_zero, and_iff_right hfills]
    constructor
    · intro hsome
      by_contra hbig
      rw [checked_of_ge (by omega)] at hsome
      cases hsome
    · intro hsmall
      exact checked_of_range (by omega) hsmall
  · -- one sector too early, or no `int`
    rw [fat16ClusterToSector_root hrun hlo hhi, if_neg hfills]
    constructor
    · intro hsome
      unfold checked at hsome
      split at hsome
      · have heq := Option.some.inj hsome
        omega
      · cases hsome
    · intro h
      exact absurd h.1 hfills

/-! ### A root directory of seventeen items -/

/-- A small root directory that is read, on a disk without any content. -/
theorem emptyDisk_root {header : FatHeader} (hlo : 1 ≤ header.rootDirSize) (hhi : header.rootDirSize ≤ 4096)
    (hpos : header.rootDirSectorPos * 512 + header.rootDirSize < 2147483648) :
    ∃ root k', fat16GetRootDirectory emptyDisk header bootKernel = .ok (.ok root, k') := by
  have hcount : fat16GetTotalItemsForDirectory emptyDisk header.rootDirSectorPos = some 0 := by
    have hstart : header.rootDirSectorPos * 512 < 2147483648 := Nat.lt_of_le_of_lt (Nat.le_add_right _ _) hpos
    refine fat16GetTotalItemsForDirectory_iff.mpr ⟨0, ?_, rfl⟩
    rw [countPos_of_lt hstart]
    refine .onDisk (by omega) ⟨rfl, ?_⟩ (by omega)
    exact fun i hi => absurd hi (Nat.not_lt_zero i)
  obtain ⟨r, k', hrun⟩ := fat16GetRootDirectory_returns bootKernel_ready hcount fun _ => hpos
  obtain ⟨total, _, dir, halloc, ⟨hnull, _⟩ | ⟨_, _, rfl⟩⟩ := fat16GetRootDirectory_run hrun
  · rw [(kzalloc_run halloc).1] at hnull
    exact absurd hnull (bootKernel_malloc hlo hhi)
  · exact ⟨_, k', hrun⟩

theorem fat16ClusterToSector_iff_full : ∃ root k',
    fat16GetRootDirectory emptyDisk fullHeader bootKernel = .ok (.ok root, k') ∧
    (fat16ClusterToSector (root.fatPrivate fullHeader) 2 = some (fullHeader.clusterSector 2) ↔
      fullHeader.FillsSectors ∧ fullHeader.clusterSector 2 < 2147483648) := by
  obtain ⟨root, k', hrun⟩ := @emptyDisk_root fullHeader (by decide) (by decide) (by decide)
  exact ⟨root, k', hrun, fat16ClusterToSector_iff hrun (by decide) (by decide)⟩

/-- One item more than fits the sector. -/
def oddHeader : FatHeader := { fullHeader with rootDirEntries := 17 }

/-- Cluster 2 is looked for in the second sector of the root directory. -/
theorem fat16ClusterToSector_misses : ¬ ∀ (disk : Disk) (header : FatHeader) (root : RootDirectory) (k k' : Kernel)
    (cluster : Int), fat16GetRootDirectory disk header k = .ok (.ok root, k') → 2 ≤ cluster →
    cluster < 2147483648 → header.clusterSector cluster < 2147483648 →
    fat16ClusterToSector (root.fatPrivate header) cluster = some (header.clusterSector cluster) := by
  intro h
  obtain ⟨root, k', hrun⟩ := @emptyDisk_root oddHeader (by decide) (by decide) (by decide)
  have hsector := h emptyDisk oddHeader root bootKernel k' 2 hrun (by decide) (by decide) (by decide)
  have hfills : ¬ oddHeader.FillsSectors := by decide
  rw [fat16ClusterToSector_root hrun (by decide) (by decide), if_neg hfills] at hsector
  exact absurd hsector (by decide)

end BimbleOS
