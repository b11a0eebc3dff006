import BimbleOS.Fs.Directory
import BimbleOS.Fs.Fat16Table
import Mathlib.Algebra.Order.Floor.Div

/-!
# `Fs.DiskTree` — the directories on a disk

What a FAT16 disk holds, read off its bytes by the layout alone: the slots of the root directory lie behind
the tables, those of a subdirectory in the clusters of its chain, and the entries of a directory are its
slots in front of the first one without a name, less the deleted ones. A path is looked up in these entries
(`resolveEntries`).

The kernel looks a name up in the first slots that it has loaded, as many as there are entries in use.
That is the same in a directory whose deleted slots all lie behind the entries (`rootDirectory_lookup`, and
`Fs.TidyTree` for a subdirectory).
-/

namespace BimbleOS

open CWord Exec Window

/-! ## The layout -/

/-- The sectors that the root directory takes up, the last one perhaps in part. -/
def FatHeader.rootDirSectors (header : FatHeader) : Nat := header.rootDirSize ⌈/⌉ bimbleosSectorSize

/-- The first sector behind the tables and the root directory. -/
def FatHeader.dataStart (header : FatHeader) : Nat :=
  header.reservedSectors.toNat + header.fatCopies.toNat * header.sectorsPerFat.toNat + header.rootDirSectors

/-- The disk position of a data cluster. The clusters are numbered from 2. -/
def FatHeader.clusterByte (header : FatHeader) (cluster : Nat) : Nat :=
  (header.dataStart + (cluster - 2) * header.sectorsPerCluster.toNat) * 512

/-- The entry of a cluster in the table. -/
def FatHeader.tableEntry (header : FatHeader) (disk : Disk) (cluster : Nat) : Nat :=
  disk.word (header.reservedSectors.toNat * 512 + 2 * cluster)

/-- The clusters of a chain, at most `left` of them. -/
def clusterChain (disk : Disk) (header : FatHeader) : Nat → Nat → List Nat
  | 0, _ => []
  | left + 1, cluster =>
      if 2 ≤ cluster ∧ cluster ≤ 0xFFEF then
        cluster :: clusterChain disk header left (header.tableEntry disk cluster)
      else []

/-- Where the slots of the root directory are. -/
def rootSlots (header : FatHeader) : List Nat :=
  (List.range header.rootDirEntries.toNat).map fun i => header.rootDirSectorPos * 512 + 32 * i

/-- Where the slots of a directory are; its first cluster is 0 for the root directory. A chain has no more
    clusters than the table has entries. -/
def directorySlots (disk : Disk) (header : FatHeader) (cluster : Nat) : List Nat :=
  if cluster = 0 then rootSlots header
  else (clusterChain disk header 65536 cluster).flatMap fun c =>
    (List.range (16 * header.sectorsPerCluster.toNat)).map fun i => header.clusterByte c + 32 * i

/-- The entries of a directory. -/
def directoryEntries (disk : Disk) (header : FatHeader) (cluster : Nat) : List FatDirectoryItem :=
  (((directorySlots disk header cluster).takeWhile fun p => disk.byte p ≠ 0x00).filter
    fun p => disk.byte p ≠ 0xE5).map fun p => slotItem disk p 0

/-! ## Paths -/

instance (item : FatDirectoryItem) (name : List (BitVec 8)) : Decidable (HasName item name) :=
  inferInstanceAs (Decidable (_ = _))

/-- The entry of a directory that has the name, the last one where there are several. -/
def lookupEntry (disk : Disk) (header : FatHeader) (cluster : Nat) (name : List (BitVec 8)) :
    Option FatDirectoryItem :=
  ((directoryEntries disk header cluster).filter fun item => HasName item name).getLast?

/-- The entry that the rest of a path leads to from an entry. -/
def resolveEntriesFrom (disk : Disk) (header : FatHeader) :
    FatDirectoryItem → List (List (BitVec 8)) → Option FatDirectoryItem
  | entry, [] => some entry
  | entry, name :: rest =>
      if entry.isSubdirectory then
        (lookupEntry disk header entry.low16BitsFirstCluster.toNat name).bind fun next =>
          resolveEntriesFrom disk header next rest
      else none

/-- The entry that a list of names leads to from the root directory: every one exists, and every one but
    the last is a directory. -/
def resolveEntries (disk : Disk) (header : FatHeader) : List (List (BitVec 8)) → Option FatDirectoryItem
  | [] => none
  | name :: rest => (lookupEntry disk header 0 name).bind fun entry => resolveEntriesFrom disk header entry rest

/-! ## Directories as they are loaded -/

/-- The items of a directory that have the name. -/
def FatDirectory.matching (directory : FatDirectory) (name : List (BitVec 8)) : List FatDirectoryItem :=
  (directory.item.take directory.total.toNat).filter fun item => sameName item name

/-- The item with the name, the last one where there are several. -/
def FatDirectory.lookup (directory : FatDirectory) (name : List (BitVec 8)) : Option FatDirectoryItem :=
  (directory.matching name).getLast?

/-- The root directory of a volume was read from the disk. -/
def Mounted (disk : Disk) (volume : FatVolume) : Prop :=
  ∃ root k k', fat16GetRootDirectory disk volume.fs.header k = .ok (.ok root, k') ∧
    volume.rootDirectory = root.directory

/-- The first `u` slots of a directory are in use, and those behind them up to its end are deleted. -/
structure Undeleted (disk : Disk) (start u t : Nat) : Prop where
  le : u ≤ t
  used : ∀ i, i < u → InUse disk start i
  deleted : ∀ i, u ≤ i → i < t → ¬ InUse disk start i

/-- A loaded directory that is searched as it is on the disk: its entries are its first items. -/
structure FatDirectory.Lists (directory : FatDirectory) (entries : List FatDirectoryItem) : Prop where
  total : directory.total = (entries.length : Int)
  items : directory.item.take entries.length = entries

/-- A slot by its position. -/
theorem slotItem_shift (disk : Disk) (start i : Nat) : slotItem disk start i = slotItem disk (start + 32 * i) 0 := by
  unfold slotItem
  rw [Nat.mul_zero, Nat.add_zero]

section Slots

variable {disk : Disk} {header : FatHeader} {directory : FatDirectory} {cluster start n t u : Nat} {rest : List Nat}
  {name : List (BitVec 8)}

theorem range_split (h : u ≤ t) : List.range t = List.range u ++ List.range' u (t - u) := by
  have hall := @List.range'_append_1 0 u (t - u)
  rw [Nat.zero_add, Nat.add_sub_cancel' h] at hall
  rw [List.range_eq_range', List.range_eq_range', hall]

theorem Undeleted.count (h : Undeleted disk start u t) : Nat.count (InUse disk start) t = u := by
  have hfirst : Nat.count (InUse disk start) u = u := Nat.count_iff_forall.mpr h.used
  obtain ⟨d, rfl⟩ := Nat.exists_eq_add_of_le h.le
  have hrest : Nat.count (fun i => InUse disk start (u + i)) d = 0 :=
    Nat.count_iff_forall_not.mpr fun i hi => h.deleted (u + i) (by omega) (by omega)
  rw [Nat.count_add, hfirst, hrest, Nat.add_zero]

theorem Undeleted.filter (h : Undeleted disk start u t) :
    (List.range t).filter (fun i => InUse disk start i) = List.range u := by
  have hfirst : (List.range u).filter (fun i => InUse disk start i) = List.range u :=
    List.filter_eq_self.mpr fun i hi => decide_eq_true (h.used i (List.mem_range.mp hi))
  have hrest : (List.range' u (t - u)).filter (fun i => InUse disk start i) = [] := by
    refine List.filter_eq_nil_iff.mpr fun i hi => ?_
    obtain ⟨hlo, hhi⟩ := List.mem_range'_1.mp hi
    have hle := h.le
    rw [decide_eq_true_eq]
    exact h.deleted i hlo (by omega)
  rw [range_split h.le, List.filter_append, hfirst, hrest, List.append_nil]

/-- The entries of a directory whose deleted slots lie behind them. -/
theorem directoryEntries_of_slots
    (hslots : directorySlots disk header cluster = (List.range t).map (fun i => start + 32 * i) ++ rest)
    (hrest : ∀ p, rest.head? = some p → disk.byte p = 0x00) (hend : Terminated disk start t)
    (h : Undeleted disk start u t) :
    directoryEntries disk header cluster = (List.range u).map (slotItem disk start) := by
  have hbefore : ∀ p ∈ (List.range t).map (fun i => start + 32 * i), decide (disk.byte p ≠ 0x00) = true := by
    intro p hp
    obtain ⟨i, hi, rfl⟩ := List.mem_map.mp hp
    exact decide_eq_true (hend.before i (List.mem_range.mp hi))
  have hnone : rest.takeWhile (fun p => disk.byte p ≠ 0x00) = [] := by
    cases rest with
    | nil => rfl
    | cons p rest =>
        have hp : disk.byte p = 0x00 := hrest p rfl
        rw [List.takeWhile_cons, decide_eq_false (not_not_intro hp)]
        rfl
  have hused : ((List.range t).map fun i => start + 32 * i).filter (fun p => disk.byte p ≠ 0xE5)
      = (List.range u).map fun i => start + 32 * i := by
    rw [List.filter_map]
    exact congrArg _ h.filter
  unfold directoryEntries
  rw [hslots, List.takeWhile_append_of_pos hbefore, hnone, List.append_nil, hused, List.map_map]
  exact List.map_congr_left fun i _ => (slotItem_shift disk _ i).symm

/-- The first slots of a range of them, and what comes next. -/
theorem slots_split (ht : t ≤ n) : ∃ rest, (List.range n).map (fun i => start + 32 * i)
      = (List.range t).map (fun i => start + 32 * i) ++ rest ∧
    rest.head? = if t < n then some (start + 32 * t) else none := by
  refine ⟨(List.range' t (n - t)).map fun i => start + 32 * i, by rw [range_split ht, List.map_append], ?_⟩
  by_cases hlt : t < n
  · obtain ⟨d, hd⟩ : ∃ d, n - t = d + 1 := ⟨n - t - 1, by omega⟩
    rw [if_pos hlt, hd, List.range'_succ]
    rfl
  · rw [if_neg hlt, Nat.sub_eq_zero_of_le (Nat.not_lt.mp hlt)]
    rfl

/-- The entries of a root directory. -/
theorem directoryEntries_root (hend : Terminated disk (header.rootDirSectorPos * 512) t)
    (ht : t ≤ header.rootDirEntries.toNat) (h : Undeleted disk (header.rootDirSectorPos * 512) u t) :
    directoryEntries disk header 0 = (List.range u).map (slotItem disk (header.rootDirSectorPos * 512)) := by
  obtain ⟨rest, hslots, hnext⟩ := slots_split ht
  refine directoryEntries_of_slots ((if_pos rfl).trans hslots) (fun p hp => ?_) hend h
  rw [hnext] at hp
  split at hp
  · cases hp
    exact hend.last
  · cases hp

/-- The entries of a subdirectory in its first cluster. -/
theorem directoryEntries_cluster (hlo : 2 ≤ cluster) (hhi : cluster ≤ 0xFFEF)
    (ht : t < 16 * header.sectorsPerCluster.toNat) (hend : Terminated disk (header.clusterByte cluster) t)
    (h : Undeleted disk (header.clusterByte cluster) u t) :
    directoryEntries disk header cluster = (List.range u).map (slotItem disk (header.clusterByte cluster)) := by
  obtain ⟨rest, hsplit, hnext⟩ := @slots_split (header.clusterByte cluster) _ t (Nat.le_of_lt ht)
  have hchain : clusterChain disk header 65536 cluster
      = cluster :: clusterChain disk header 65535 (header.tableEntry disk cluster) := if_pos ⟨hlo, hhi⟩
  have hslots : ∃ more, directorySlots disk header cluster
      = (List.range t).map (fun i => header.clusterByte cluster + 32 * i) ++ (rest ++ more) := by
    unfold directorySlots
    rw [if_neg (by omega), hchain, List.flatMap_cons, hsplit, List.append_assoc]
    exact ⟨_, rfl⟩
  obtain ⟨more, hslots⟩ := hslots
  refine directoryEntries_of_slots hslots (fun p hp => ?_) hend h
  rw [List.head?_append, hnext, if_pos ht] at hp
  cases hp
  exact hend.last

/-- The first items that were loaded are the first slots. -/
theorem FatDirectory.Lists.of_items (htotal : directory.total = (u : Int))
    (hitems : ∀ i, i < u → directory.item[i]? = some (slotItem disk start i)) :
    directory.Lists ((List.range u).map (slotItem disk start)) := by
  have hlen : ((List.range u).map (slotItem disk start)).length = u := by rw [List.length_map, List.length_range]
  refine ⟨by rw [htotal, hlen], ?_⟩
  rw [hlen]
  refine List.ext_getElem? fun i => ?_
  rw [List.getElem?_take, List.getElem?_map]
  by_cases hi : i < u
  · rw [if_pos hi, hitems i hi, List.getElem?_range hi, Option.map_some]
  · rw [if_neg hi, List.getElem?_eq_none (by rw [List.length_range]; omega), Option.map_none]

theorem FatDirectory.Lists.total_le {entries : List FatDirectoryItem} (h : directory.Lists entries) :
    directory.total.toNat ≤ directory.item.length := by
  have hlen := congrArg List.length h.items
  rw [List.length_take] at hlen
  rw [h.total, Int.toNat_natCast]
  omega

theorem FatDirectory.Lists.matching (h : directory.Lists (directoryEntries disk header cluster)) :
    directory.matching name = (directoryEntries disk header cluster).filter fun item => HasName item name := by
  unfold FatDirectory.matching
  rw [h.total, Int.toNat_natCast, h.items]
  refine List.filter_congr fun item hitem => ?_
  obtain ⟨p, _, rfl⟩ := List.mem_map.mp hitem
  exact Bool.eq_iff_iff.mpr (sameName_iff.trans decide_eq_true_iff.symm)

/-- A name is looked up as it is on the disk. -/
theorem FatDirectory.Lists.lookup (h : directory.Lists (directoryEntries disk header cluster)) :
    directory.lookup name = lookupEntry disk header cluster name := congrArg List.getLast? h.matching

theorem rootDirectory_lists {volume : FatVolume} (hmounted : Mounted disk volume)
    (hend : Terminated disk (volume.fs.header.rootDirSectorPos * 512) t)
    (ht : t ≤ volume.fs.header.rootDirEntries.toNat)
    (h : Undeleted disk (volume.fs.header.rootDirSectorPos * 512) u t) :
    volume.rootDirectory.Lists (directoryEntries disk volume.fs.header 0) := by
  obtain ⟨root, k, k', hrun, hroot⟩ := hmounted
  obtain ⟨htotal, hitems⟩ := rootDirectory_items hend ht hrun
  have hle := h.le
  rw [h.count] at htotal
  rw [directoryEntries_root hend ht h, hroot]
  exact .of_items htotal fun i hi => hitems i (by omega)

/-- **A root directory** whose deleted slots lie behind the entries is searched as it is on the disk. -/
theorem rootDirectory_lookup {volume : FatVolume} (hmounted : Mounted disk volume)
    (hend : Terminated disk (volume.fs.header.rootDirSectorPos * 512) t)
    (ht : t ≤ volume.fs.header.rootDirEntries.toNat)
    (h : Undeleted disk (volume.fs.header.rootDirSectorPos * 512) u t) (name : List (BitVec 8)) :
    volume.rootDirectory.lookup name = lookupEntry disk volume.fs.header 0 name :=
  (rootDirectory_lists hmounted hend ht h).lookup

end Slots

end BimbleOS
