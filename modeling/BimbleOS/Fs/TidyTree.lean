import BimbleOS.Fs.DirectoryCount

/-!
# `Fs.TidyTree` — walking a tree in which nothing was deleted in front of an entry

A directory is tidy if it lies in its first cluster and its deleted slots are behind its entries. What the kernel
loads of it are then its entries, and a walk through tidy directories is right unless a component between the first
and the last one is missing (`TidyTree.entryOk_iff`).
-/

namespace BimbleOS

open CWord Exec Window

/-! ## Tidy directories -/

/-- A subdirectory that lies in its first cluster, which the kernel can address, and whose deleted slots are behind
    its entries. -/
structure TidyDirectory (disk : Disk) (fs : FatPrivate) (entry : FatDirectoryItem) : Prop where
  high : entry.high16BitsFirstCluster = 0
  lo : 2 ≤ entry.low16BitsFirstCluster.toNat
  hi : entry.low16BitsFirstCluster.toNat ≤ 0xFFEF
  inside : fs.header.clusterByte entry.low16BitsFirstCluster.toNat + fs.clusterBytes < 2147483648
  slots : ∃ u t, 32 * t < fs.clusterBytes ∧
    Terminated disk (fs.header.clusterByte entry.low16BitsFirstCluster.toNat) t ∧
    Undeleted disk (fs.header.clusterByte entry.low16BitsFirstCluster.toNat) u t

section Tidy

variable {disk : Disk} {fs : FatPrivate} {entry : FatDirectoryItem} {cluster : Nat}

theorem TidyDirectory.first (h : TidyDirectory disk fs entry) :
    fat16GetFirstCluster entry = entry.low16BitsFirstCluster.toNat := by
  unfold fat16GetFirstCluster
  rw [h.high]
  exact congrArg BitVec.toNat BitVec.zero_or

/-- The data clusters are looked for where they are. -/
theorem clusterPos_clusterByte (hdata : fs.endingSectorPos = fs.header.dataStart) :
    fs.clusterPos cluster 0 = fs.header.clusterByte cluster := by
  unfold FatPrivate.clusterPos FatHeader.clusterByte
  rw [hdata, Nat.add_zero]

/-- **A tidy subdirectory** can be read, and is read as it is on the disk. -/
theorem TidyDirectory.read (h : TidyDirectory disk fs entry) (hdata : fs.endingSectorPos = fs.header.dataStart) :
    ∃ content, readDirectory disk fs entry = some (bimbleosAllOk, content) ∧
      content.Lists (directoryEntries disk fs.header entry.low16BitsFirstCluster.toNat) := by
  have hfirst := h.first
  obtain ⟨_, hlo, hhi, hinside, u, t, ht, hend, hslots⟩ := h
  have hcluster : fs.clusterBytes = 32 * (16 * fs.header.sectorsPerCluster.toNat) := by
    unfold FatPrivate.clusterBytes bimbleosSectorSize
    omega
  rw [directoryEntries_cluster hlo hhi (by omega) hend hslots]
  unfold readDirectory subdirectoryTotal
  rw [hfirst]
  generalize entry.low16BitsFirstCluster.toNat = cluster at *
  rw [← clusterPos_clusterByte hdata] at hinside hend hslots ⊢
  have hle := hslots.le
  obtain ⟨sector, hsector, hstart⟩ := @fat16ClusterToSector_eq fs cluster hlo (by omega) (by omega)
  have hlt : sector * 512 < 2147483648 := by
    rw [hstart]
    omega
  have hsector' : sector < 4294967296 := by omega
  -- the slots in use are counted, and that many are read
  have hsmall : t < 67108865 := by
    have hlen := clusterBytes_le fs
    omega
  have hcount := fat16GetTotalItemsForDirectory_eq (hstart ▸ hend) hlt hsmall
  rw [hstart, if_pos (by omega), hslots.count] at hcount
  have hlast := @fat16ReadLoop_last disk fs 0 (u * 32) cluster cluster (u * 32) hlo
    (fat16GetClusterForOffset_first (by omega)) (by omega) (by omega)
  rw [Nat.zero_mod, if_pos (by omega)] at hlast
  have hread : fat16ReadInternal disk fs cluster 0 ((u * 32 : Nat) : Int)
      = some (0, window disk.byte (fs.clusterPos cluster 0) (u * 32)) := hlast
  have hsize : directorySize u = ((u * 32 : Nat) : Int) := by
    unfold directorySize sizeofFatDirectoryItem
    rw [← Int.natCast_mul, u32_of_lt (by omega), s32_natCast_of_lt (by omega)]
  rw [hsector, Option.bind_some, u32_of_lt hsector', hcount, Option.bind_some, hsize, hread]
  exact ⟨_, rfl, .of_items rfl fun i hi => directoryItems_get hi (by omega)⟩

end Tidy

/-! ## Paths through tidy directories -/

/-- Every subdirectory along a path is tidy: those that have the first name in the directory of a cluster, and from
    each of them on those along the rest. -/
def TidyAlong (disk : Disk) (fs : FatPrivate) : Nat → List (List (BitVec 8)) → Prop
  | _, [] => True
  | cluster, name :: rest => ∀ entry ∈ directoryEntries disk fs.header cluster, HasName entry name →
      entry.isSubdirectory = true →
        TidyDirectory disk fs entry ∧ TidyAlong disk fs entry.low16BitsFirstCluster.toNat rest

/-- A mounted volume whose root directory and all directories along a path are tidy, the data clusters behind the
    root directory's last sector. -/
structure TidyTree (disk : Disk) (volume : FatVolume) (names : List (List (BitVec 8))) : Prop where
  mounted : Mounted disk volume
  dataStart : volume.fs.endingSectorPos = volume.fs.header.dataStart
  root : ∃ u t, t ≤ volume.fs.header.rootDirEntries.toNat ∧
    Terminated disk (volume.fs.header.rootDirSectorPos * 512) t ∧
    Undeleted disk (volume.fs.header.rootDirSectorPos * 512) u t
  along : TidyAlong disk volume.fs 0 names

/-- From an entry on, no component of the rest of a path but the last one is missing. -/
def UnbrokenFrom (disk : Disk) (header : FatHeader) : FatDirectoryItem → List (List (BitVec 8)) → Prop
  | _, [] => True
  | entry, name :: rest => entry.isSubdirectory = true →
      (lookupEntry disk header entry.low16BitsFirstCluster.toNat name = none → rest = []) ∧
        ∀ next, lookupEntry disk header entry.low16BitsFirstCluster.toNat name = some next →
          UnbrokenFrom disk header next rest

/-- No component of a path between the first and the last one is missing. -/
def Unbroken (disk : Disk) (header : FatHeader) : List (List (BitVec 8)) → Prop
  | [] => False
  | name :: rest => ∀ entry, lookupEntry disk header 0 name = some entry → UnbrokenFrom disk header entry rest

/-- What is known of an entry that a path leads on from. -/
def TidyEntry (disk : Disk) (fs : FatPrivate) (entry : FatDirectoryItem) (names : List (List (BitVec 8))) : Prop :=
  entry.isSubdirectory = true →
    TidyDirectory disk fs entry ∧ TidyAlong disk fs entry.low16BitsFirstCluster.toNat names

section Paths

variable {disk : Disk} {fs : FatPrivate} {volume : FatVolume} {entry last : FatDirectoryItem}
  {directory : FatDirectory} {cluster : Nat} {name : List (BitVec 8)} {names : List (List (BitVec 8))}
  {path : List PathPart}

theorem TidyDirectory.content (h : TidyDirectory disk fs entry) (hdata : fs.endingSectorPos = fs.header.dataStart)
    (hsub : entry.isSubdirectory = true) : ∃ content, subdirectory disk fs entry = some content ∧
      content.Lists (directoryEntries disk fs.header entry.low16BitsFirstCluster.toNat) := by
  obtain ⟨content, hread, hlists⟩ := h.read hdata
  refine ⟨content, ?_, hlists⟩
  unfold subdirectory
  rw [if_pos hsub, hread]
  rfl

theorem lookupEntry_mem {header : FatHeader} (h : lookupEntry disk header cluster name = some entry) :
    entry ∈ directoryEntries disk header cluster ∧ HasName entry name := by
  obtain ⟨hmem, hname⟩ := List.mem_filter.mp (List.mem_of_getLast? h)
  exact ⟨hmem, of_decide_eq_true hname⟩

theorem TidyAlong.found (h : TidyAlong disk fs cluster (name :: names))
    (hentry : lookupEntry disk fs.header cluster name = some entry) : TidyEntry disk fs entry names :=
  h entry (lookupEntry_mem hentry).1 (lookupEntry_mem hentry).2

/-- A directory along the path can be searched. -/
theorem TidyAlong.searchOk (h : TidyAlong disk fs cluster (name :: names))
    (hdata : fs.endingSectorPos = fs.header.dataStart)
    (hlists : directory.Lists (directoryEntries disk fs.header cluster)) : SearchOk disk fs directory name := by
  refine ⟨hlists.total_le, fun item hitem hsub => ?_⟩
  rw [hlists.matching] at hitem
  obtain ⟨hmem, hname⟩ := List.mem_filter.mp hitem
  obtain ⟨content, hread, _⟩ := (h item hmem (of_decide_eq_true hname) hsub).1.read hdata
  rw [hread]
  exact Option.some_ne_none _

/-- A walk from an entry returns exactly when nothing is missing on the way. -/
theorem TidyEntry.walkOk_iff (h : TidyEntry disk fs entry (pathNames path))
    (hdata : fs.endingSectorPos = fs.header.dataStart) :
    WalkOk disk fs entry path ↔ UnbrokenFrom disk fs.header entry (pathNames path) := by
  induction path generalizing entry with
  | nil => exact Iff.rfl
  | cons part rest ih =>
      by_cases hsub : entry.isSubdirectory = true
      · obtain ⟨htidy, halong⟩ := h hsub
        obtain ⟨content, hcontent, hlists⟩ := htidy.content hdata hsub
        have hlookup := @FatDirectory.Lists.lookup disk fs.header content _ part.part hlists
        have hnext : ∀ next, content.lookup part.part = some next →
            (WalkOk disk fs next rest ↔ UnbrokenFrom disk fs.header next (pathNames rest)) :=
          fun next hnext => ih (halong.found (hlookup.symm.trans hnext))
        have hend : rest = [] ↔ pathNames rest = [] := List.map_eq_nil_iff.symm
        constructor
        · rintro (hfile | ⟨directory, hdirectory, _, hmissing, hwalk⟩) _
          · exact absurd (hsub.symm.trans hfile) Bool.false_ne_true.symm
          · cases hcontent.symm.trans hdirectory
            rw [← hlookup]
            exact ⟨fun hnone => hend.mp (hmissing hnone),
              fun next hsome => (hnext next hsome).mp (hwalk next hsome)⟩
        · intro hunbroken
          obtain ⟨hmissing, hwalk⟩ := hunbroken hsub
          rw [← hlookup] at hmissing hwalk
          exact Or.inr ⟨content, hcontent, halong.searchOk hdata hlists, fun hnone => hend.mpr (hmissing hnone),
            fun next hsome => (hnext next hsome).mpr (hwalk next hsome)⟩
      · exact iff_of_true (Or.inl (Bool.eq_false_iff.mpr hsub)) fun hdirectory => absurd hdirectory hsub

/-- The items that are loaded lead where the entries lead. -/
theorem TidyEntry.resolveFrom_eq (h : TidyEntry disk fs entry names)
    (hdata : fs.endingSectorPos = fs.header.dataStart) :
    resolveFrom disk fs entry names = resolveEntriesFrom disk fs.header entry names := by
  induction names generalizing entry with
  | nil => rfl
  | cons name rest ih =>
      rw [resolveFrom, resolveEntriesFrom]
      by_cases hsub : entry.isSubdirectory = true
      · obtain ⟨htidy, halong⟩ := h hsub
        obtain ⟨content, hcontent, hlists⟩ := htidy.content hdata hsub
        rw [if_pos hsub, hcontent, Option.bind_some, hlists.lookup]
        exact Option.bind_congr fun next hnext => ih (halong.found hnext)
      · rw [if_neg hsub, subdirectory, if_neg hsub, Option.bind_none]

/-- The entry that is reached is tidy. -/
theorem TidyEntry.reached (h : TidyEntry disk fs entry names)
    (hlast : resolveEntriesFrom disk fs.header entry names = some last) : TidyEntry disk fs last [] := by
  induction names generalizing entry with
  | nil =>
      cases hlast
      exact h
  | cons name rest ih =>
      rw [resolveEntriesFrom] at hlast
      split at hlast
      · rename_i hsub
        obtain ⟨next, hnext, hrest⟩ := Option.bind_eq_some_iff.mp hlast
        exact ih ((h hsub).2.found hnext) hrest
      · cases hlast

/-- An entry that can be read is the one that is wanted. -/
theorem TidyEntry.same (h : TidyEntry disk fs entry []) (hdata : fs.endingSectorPos = fs.header.dataStart) :
    SameEntry disk fs entry entry := by
  by_cases hsub : entry.isSubdirectory = true
  · obtain ⟨content, hcontent, _⟩ := (h hsub).1.content hdata hsub
    exact Or.inr ⟨content, hcontent, hcontent⟩
  · exact Or.inl ⟨Bool.eq_false_iff.mpr hsub, rfl⟩

/-- The root directory is searched as it is on the disk. -/
theorem TidyTree.root_lists (h : TidyTree disk volume names) :
    volume.rootDirectory.Lists (directoryEntries disk volume.fs.header 0) := by
  obtain ⟨u, t, ht, hend, hslots⟩ := h.root
  exact rootDirectory_lists h.mounted hend ht hslots

/-- A walk returns exactly when nothing is missing on the way. -/
theorem TidyTree.returns_iff (h : TidyTree disk volume (pathNames path)) :
    Returns disk volume path ↔ Unbroken disk volume.fs.header (pathNames path) := by
  have hroot := h.root_lists
  obtain ⟨_, hdata, _, halong⟩ := h
  cases path with
  | nil => exact Iff.rfl
  | cons part rest =>
      have hlookup := @FatDirectory.Lists.lookup disk volume.fs.header _ _ part.part hroot
      have hwalkOk : ∀ entry, lookupEntry disk volume.fs.header 0 part.part = some entry →
          (WalkOk disk volume.fs entry rest ↔ UnbrokenFrom disk volume.fs.header entry (pathNames rest)) :=
        fun entry hentry => (halong.found hentry).walkOk_iff hdata
      constructor
      · rintro ⟨_, hwalk⟩ entry hentry
        exact (hwalkOk entry hentry).mp (hwalk entry (hlookup.trans hentry))
      · intro hunbroken
        refine ⟨halong.searchOk hdata hroot, fun entry hloaded => ?_⟩
        have hentry := hlookup.symm.trans hloaded
        exact (hwalkOk entry hentry).mpr (hunbroken entry hentry)

/-- The slots that are searched lead where the entries lead. -/
theorem TidyTree.resolve_eq (h : TidyTree disk volume names) :
    resolve disk volume names = resolveEntries disk volume.fs.header names := by
  cases names with
  | nil => rfl
  | cons name rest =>
      rw [resolve, resolveEntries, h.root_lists.lookup]
      exact Option.bind_congr fun entry hentry => (h.along.found hentry).resolveFrom_eq h.dataStart

theorem TidyTree.sameEnd (h : TidyTree disk volume names) :
    SameEnd disk volume.fs (resolve disk volume names) (resolveEntries disk volume.fs.header names) := by
  rw [h.resolve_eq]
  cases hlast : resolveEntries disk volume.fs.header names with
  | none => exact True.intro
  | some last =>
      cases names with
      | nil => cases hlast
      | cons name rest =>
          obtain ⟨entry, hentry, hrest⟩ := Option.bind_eq_some_iff.mp hlast
          exact ((h.along.found hentry).reached hrest).same h.dataStart

/-- **A tidy tree** is walked right exactly when no component between the first and the last one is missing. -/
theorem TidyTree.entryOk_iff (h : TidyTree disk volume (pathNames path)) :
    EntryOk disk volume path ↔ Unbroken disk volume.fs.header (pathNames path) :=
  ⟨fun hok => h.returns_iff.mp hok.returns, fun hunbroken => ⟨h.returns_iff.mpr hunbroken, h.sameEnd⟩⟩

end Paths

theorem treeDisk_tidy : TidyTree treeDisk volumeD [[0x44], [0x58]] where
  mounted := volumeD_mounted
  dataStart := by decide +kernel
  root := ⟨1, 1, by decide, treeDisk_terminated, Nat.le_refl 1, by decide, fun i hlo hhi => by omega⟩
  along := by
    have hroot : directoryEntries treeDisk volumeD.fs.header 0 = [itemD] := by decide +kernel
    have hempty : directoryEntries treeDisk volumeD.fs.header itemD.low16BitsFirstCluster.toNat = [] := by
      decide +kernel
    have hstart : volumeD.fs.header.clusterByte itemD.low16BitsFirstCluster.toNat = 3 * 512 := by decide +kernel
    intro entry hentry _ _
    rw [hroot] at hentry
    obtain rfl := List.mem_singleton.mp hentry
    constructor
    · refine ⟨rfl, by decide, by decide, by rw [hstart]; decide, 0, 0, by decide, ?_⟩
      rw [hstart]
      exact ⟨⟨by decide, fun i hi => absurd hi (Nat.not_lt_zero i)⟩, Nat.le_refl 0,
        fun i hi => absurd hi (Nat.not_lt_zero i), fun i _ hi => absurd hi (Nat.not_lt_zero i)⟩
    · intro next hnext
      rw [hempty] at hnext
      cases hnext

example : EntryOk treeDisk volumeD (pathOf [0x44, 0x58]) :=
  (@TidyTree.entryOk_iff _ _ (pathOf [0x44, 0x58]) treeDisk_tidy).mpr
    fun _ _ _ => ⟨fun _ => rfl, fun _ _ => True.intro⟩

end BimbleOS
