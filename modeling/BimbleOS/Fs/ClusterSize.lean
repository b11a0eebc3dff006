import BimbleOS.Fs.FileTag
import BimbleOS.Fs.Resolve

/-!
# `Fs.ClusterSize` — the divisor that comes from the boot sector

`fat16_get_cluster_for_offset` divides by the number of bytes in a cluster, which is `sectors_per_cluster` times the
size of a sector. `fat16_resolve` looks at the signature only, so a boot sector without sectors in its clusters is
accepted, and the first read of a file divides by zero. Nothing else divides (`fat16Resolve_mountedSafe_iff`).
-/

namespace BimbleOS

open Bytes CWord Exec Transition Window

/-- `struct FAT_Private` as the other functions see it. -/
def FatPrivateStruct.volume (fatPrivate : FatPrivateStruct) : FatVolume where
  fs := { header := fatPrivate.header, endingSectorPos := fatPrivate.rootDirectory.endingSectorPos }
  rootDirectory := fatPrivate.rootDirectory.directory

/-- The disk with what its structure points to. -/
def DiskStruct.drive (device : DiskStruct) (disk : Disk) : Drive where
  disk := disk
  filesystem := if device.filesystem = .fat16Fs then device.fsPrivate.map FatPrivateStruct.volume else none

/-- In this state no path that is opened, no call on a descriptor and no search in a directory divides by zero. -/
structure DividesNowhere (drive : Drive) (volume : FatVolume) (k : Kernel) : Prop where
  opens : ∀ filename modeStr, fopen drive filename modeStr k ≠ .error .divisionByZero
  calls : ∀ fd (op : FileOp), op.call drive fd k ≠ .error .divisionByZero
  lookups : ∀ directory name, fat16FindItemInDirectory drive.disk volume.fs directory name k ≠ .error .divisionByZero

/-- The disk is mounted, the size of its clusters is not zero, and whatever is opened, closed and moved in
    afterwards, nothing divides by zero. -/
def MountedSafe (disk : Disk) (device : DiskStruct) (k : Kernel) : Prop :=
  ∃ volume, (device.drive disk).filesystem = some volume ∧ volume.fs.clusterBytes ≠ 0 ∧
    ∀ tr w, Trace (FilesStep (device.drive disk)) { kernel := k } tr w →
      DividesNowhere (device.drive disk) volume w.kernel

/-! ## Clusters of some size -/

section Sized

variable {disk : Disk} {fs : FatPrivate} {entry : FatDirectoryItem} {directory : FatDirectory} {drive : Drive}
  {volume : FatVolume}

theorem readInternal_divides (hB : fs.clusterBytes ≠ 0) {cluster offset total : Int} :
    Never .divisionByZero (readInternal disk fs cluster offset total) := by
  unfold readInternal
  rw [if_neg hB]
  exact defined_never (by decide)

/-- Loading a subdirectory divides only where it reads the cluster chain. -/
theorem fat16LoadFatDirectory_divides (hB : fs.clusterBytes ≠ 0) :
    Never .divisionByZero (fat16LoadFatDirectory disk fs entry) := by
  unfold fat16LoadFatDirectory
  apply Never.ite Never.pure
  apply Never.bind (kzalloc_never (by decide))
  intro addr
  apply Never.ite Never.pure
  apply Never.bind (defined_never (by decide))
  intro sector
  apply Never.bind (defined_never (by decide))
  intro total
  apply Never.bind (kzalloc_never (by decide))
  intro items
  apply Never.ite
  · exact Never.bind (fat16FreeDirectory_never (by decide)) fun _ => Never.pure
  -- the array is read through the chain
  apply Never.bind (readInternal_divides hB)
  intro r
  apply Never.ite
  · exact Never.bind (fat16FreeDirectory_never (by decide)) fun _ => Never.pure
  · exact Never.pure

theorem fat16NewFatItemForDirectoryItem_divides (hB : fs.clusterBytes ≠ 0) :
    Never .divisionByZero (fat16NewFatItemForDirectoryItem disk fs entry) := by
  unfold fat16NewFatItemForDirectoryItem
  apply Never.bind (kzalloc_never (by decide))
  intro addr
  apply Never.ite Never.pure
  apply Never.ite
  · exact Never.bind (fat16LoadFatDirectory_divides hB) fun _ => Never.pure
  · exact Never.bind (kzalloc_never (by decide)) fun _ => Never.pure

/-- A search divides only where it loads what it finds. The induction is on the items left. -/
theorem fat16FindLoop_divides (hB : fs.clusterBytes ≠ 0) {name : List (BitVec 8)} {left i : Nat}
    {fItem : Option FatItem} : Never .divisionByZero (fat16FindLoop disk fs directory name left i fItem) := by
  induction left generalizing i fItem with
  | zero => exact Never.pure
  | succ left ih =>
      rw [fat16FindLoop]
      -- behind the array it stops with another fault
      cases directory.item[i]? with
      | none => exact Never.throw (by decide)
      | some item =>
          apply Never.ite
          · exact Never.bind (fat16NewFatItemForDirectoryItem_divides hB) fun _ => ih
          · exact ih

theorem fat16EntryLoop_divides (hB : fs.clusterBytes ≠ 0) {current : FatItem} {path : List PathPart} :
    Never .divisionByZero (fat16EntryLoop disk fs current path) := by
  induction path generalizing current with
  | nil => exact Never.pure
  | cons part rest ih =>
      rw [fat16EntryLoop]
      cases current.body with
      | file => exact Never.pure
      | directory ptr =>
          cases ptr with
          | null => exact Never.throw (by decide)
          | freed => exact Never.throw (by decide)
          | live addr items content =>
              apply Never.bind (fat16FindLoop_divides hB)
              intro found
              apply Never.bind (fat16FatItemFree_never (by decide))
              intro _
              cases found with
              | some item => exact ih
              | none => exact Never.ite Never.pure (Never.throw (by decide))

theorem fat16Open_divides (hB : volume.fs.clusterBytes ≠ 0) {path : List PathPart} {mode : FileMode} :
    Never .divisionByZero (fat16Open disk volume path mode) := by
  have hentry : Never .divisionByZero (fat16GetDirectoryEntry disk volume path) := by
    cases path with
    | nil => exact Never.throw (by decide)
    | cons part rest =>
        apply Never.bind (fat16FindLoop_divides hB)
        intro found
        cases found with
        | none => exact Never.pure
        | some item => exact fat16EntryLoop_divides hB
  unfold fat16Open
  apply Never.ite Never.pure
  apply Never.bind (kzalloc_never (by decide))
  intro descriptor
  apply Never.ite Never.pure
  apply Never.bind hentry
  intro found
  cases found with
  | none => exact Never.bind Never.modify fun _ => Never.pure
  | some item => exact Never.pure

/-- Opening a path on a disk that is mounted. -/
theorem fopen_divides {filename modeStr : List (BitVec 8)} (hfs : drive.filesystem = some volume)
    (hB : volume.fs.clusterBytes ≠ 0) : Never .divisionByZero (fopen drive filename modeStr) := by
  have hresult : Never .divisionByZero (fopenResult drive filename modeStr) := by
    apply Never.bind (pathparserParse_never (by decide) (by decide))
    intro rootPath
    cases rootPath with
    | none => exact Never.pure
    | some rootPath =>
        apply Never.ite Never.pure
        unfold diskGet
        by_cases hdrive : rootPath.driveNo = 0
        · simp only [if_pos hdrive, hfs]
          apply Never.ite Never.pure
          apply Never.bind (fat16Open_divides hB)
          intro opened
          cases opened with
          | error code => exact Never.pure
          | ok data =>
              apply Never.bind (fileNewDescriptor_never (by decide) (by decide))
              intro desc
              cases desc with
              | error code => exact Never.pure
              | ok desc => exact Never.bind Never.modify fun _ => Never.pure
        · simp only [if_neg hdrive]
          exact Never.pure
  exact Never.bind hresult fun res => Never.ite Never.pure Never.pure

theorem fat16Read_divides {data : FatFileDescriptor} {size n ptr : Nat} (hB : volume.fs.clusterBytes ≠ 0) :
    Never .divisionByZero (fat16Read disk volume data size n ptr) := by
  unfold fat16Read
  cases data.item.body with
  | directory => exact Never.throw (by decide)
  | file copy item =>
      apply Never.bind (deref_never (by decide))
      intro _
      apply Never.bind (fat16ReadElements_never (by decide) fun _ _ _ => readInternal_divides hB)
      intro res
      exact Never.ite Never.pure Never.pure

/-- A call on any number, when the table holds files of the mounted disk only. -/
theorem FilesInv.call_divides {w : FilesWorld} {fd : Int} {op : FileOp} (h : FilesInv drive w)
    (hfs : drive.filesystem = some volume) (hB : volume.fs.clusterBytes ≠ 0) :
    op.call drive fd w.kernel ≠ .error .divisionByZero := by
  -- an unknown number is turned down; a slot in use is held
  rcases fileGetDescriptor_cases fd w.kernel with hget | ⟨i, desc, hi, rfl, hslot, _⟩
  · obtain ⟨res, hrun, _⟩ := @FileOp.call_unknown drive w.kernel op fd hget
    rw [hrun]
    exact fun hfault => by cases hfault
  · have hused : w.kernel.fileDescriptors i ≠ none := by
      rw [hslot]
      exact Option.some_ne_none _
    obtain ⟨file, hmem⟩ := mem_numbers.mp (h.used (Nat.lt_succ_of_lt hi) hused)
    obtain ⟨j, _, hj, hheld⟩ := h.holds _ hmem
    have hij : i = j := by
      have heq : ((i + 1 : Nat) : Int) = ((j + 1 : Nat) : Int) := hj
      omega
    subst hij
    refine hheld.call_never hi (by decide) fun volume' pos size n ptr hfs' => ?_
    obtain rfl := Option.some.inj (hfs.symm.trans hfs')
    exact fat16Read_divides hB

/-- **With clusters of some size nothing divides by zero**, in a state whose table holds files of the mounted disk
    only. -/
theorem FilesInv.dividesNowhere {w : FilesWorld} (h : FilesInv drive w) (hfs : drive.filesystem = some volume)
    (hB : volume.fs.clusterBytes ≠ 0) : DividesNowhere drive volume w.kernel where
  opens := fun _ _ => fopen_divides hfs hB w.kernel
  calls := fun _ _ => h.call_divides hfs hB
  lookups := fun _ _ => fat16FindLoop_divides hB w.kernel

end Sized

/-! ## The boot sector -/

theorem fatHeader_sectorsPerCluster (disk : Disk) :
    (FatHeader.ofBytes disk.bootBytes).sectorsPerCluster = disk.sector 0 13 :=
  @getD_window _ disk.byte 0 sizeofFatH 13 0 (by decide)

/-- **A disk that `fat16_resolve` accepts is safe to use** exactly when byte 13 of its boot sector is not zero. At
    the time of the call no file is open. -/
theorem fat16Resolve_mountedSafe_iff {disk : Disk} {device device' : DiskStruct} {k k' : Kernel}
    (hrun : fat16Resolve disk device k = .ok ((0, device'), k')) (hnone : ∀ i, k.fileDescriptors i = none) :
    MountedSafe disk device' k' ↔ disk.sector 0 13 ≠ 0 := by
  obtain ⟨_, fatPrivate, total, rfl, hheader, _⟩ := fat16Resolve_mounts hrun
  have hfs : (DiskStruct.drive { device with filesystem := .fat16Fs, fsPrivate := some fatPrivate } disk).filesystem
      = some fatPrivate.volume := rfl
  have hbytes : fatPrivate.volume.fs.clusterBytes = (disk.sector 0 13).toNat * bimbleosSectorSize := by
    rw [← fatHeader_sectorsPerCluster, ← hheader]
    rfl
  have hzero : fatPrivate.volume.fs.clusterBytes ≠ 0 ↔ disk.sector 0 13 ≠ 0 := by
    rw [hbytes, ne_eq, ne_eq, Nat.mul_eq_zero, BitVec.toNat_eq]
    exact not_congr (or_iff_left (by decide))
  constructor
  · rintro ⟨volume, hvolume, hB, _⟩
    obtain rfl := Option.some.inj (hfs.symm.trans hvolume)
    exact hzero.mp hB
  · intro hbyte
    have hB := hzero.mpr hbyte
    refine ⟨fatPrivate.volume, hfs, hB, fun tr w htr => ?_⟩
    generalize DiskStruct.drive _ disk = drive at htr hfs
    -- no file is open, so every slot is empty
    have hstart : FilesInv drive { kernel := k' } := by
      refine ⟨List.nodup_nil, fun _ hq => absurd hq List.not_mem_nil, fun i _ _ => ?_⟩
      show k'.fileDescriptors i = none
      rw [fat16Resolve_table hrun]
      exact hnone i
    -- each event keeps the table in order
    have hpres : ∀ w e w', FilesInv drive w → True → FilesStep drive w e w' → FilesInv drive w' :=
      fun _ _ _ hinv _ hstep => hinv.step hstep
    exact (Trace.invariant hpres hstart htr fun _ _ => True.intro).2.dividesNowhere hfs hB

/-! ## A disk without sectors in its clusters -/

/-- Without sectors in a cluster the first read of an open file divides by zero. -/
theorem OpenFile.fread_divides {drive : Drive} {volume : FatVolume} {data : FatFileDescriptor} {copy : Nat}
    {item : FatDirectoryItem} {k : Kernel} {fd : Int} {call : FreadCall} (h : OpenFile k fd volume data copy item)
    (hzero : volume.fs.clusterBytes = 0) (hsize : 0 < call.size) (hnmemb : 0 < call.nmemb) :
    fread drive call.ptr call.size call.nmemb fd k = .error .divisionByZero := by
  obtain ⟨n, hn⟩ : ∃ n, call.nmemb = n + 1 := ⟨call.nmemb - 1, by omega⟩
  -- the lookup of the first cluster divides by the size of a cluster
  have hread : readInternal drive.disk volume.fs (fat16GetFirstCluster item) (s32 data.pos) (s32 call.size) k
      = .error .divisionByZero := by
    unfold readInternal
    rw [if_pos hzero]
    rfl
  rw [fread_eq h hsize hnmemb, hn, fat16ReadElements]
  exact bind_of_error (bind_of_error hread)

/-- The signature, one reserved sector, a root directory of one item, and nothing else in the boot sector; the item is
    a file `A`. -/
def flatDisk : Disk where
  sector := fun lba i =>
    if lba = 0 then if i = 14 ∨ i = 17 then 1 else if i = 38 then bimbleosFat16Signature else 0
    else if lba = 1 ∧ i = 0 then 0x41 else 0

def flatHeader : FatHeader where
  reservedSectors := 1
  sectorsPerCluster := 0
  rootDirEntries := 1

/-- The item of the root directory. -/
def flatFile : FatDirectoryItem where
  filename := [0x41, 0, 0, 0, 0, 0, 0, 0]
  ext := [0, 0, 0]
  attr := 0
  high16BitsFirstCluster := 0
  low16BitsFirstCluster := 0
  filesize := 0

theorem flatDisk_header : FatHeader.ofBytes flatDisk.bootBytes = flatHeader := by decide

theorem flatDisk_count : fat16GetTotalItemsForDirectory flatDisk flatHeader.rootDirSectorPos = some 1 := by
  have hend : Terminated flatDisk 512 1 := by
    refine ⟨by decide, fun i hi => ?_⟩
    obtain rfl : i = 0 := by omega
    decide
  have hpos : countPos flatHeader.rootDirSectorPos = (512 : Nat) := by decide
  refine fat16GetTotalItemsForDirectory_iff.mpr ⟨1, ?_, ?_⟩
  · rw [hpos]
    exact .onDisk (by decide) hend (by decide)
  · rw [hpos]
    decide

theorem flatDisk_root : (rootDirectoryAt flatDisk flatHeader 1).directory.item = [flatFile] := by
  have hpos : flatHeader.rootDirSectorPos * 512 = 512 := by decide
  have hsize : flatHeader.rootDirSize = 32 := by decide
  unfold rootDirectoryAt
  rw [hpos, hsize]
  decide +kernel

/-- The disk is mounted, with that file in its root directory. -/
theorem flatDisk_mounted : ∃ device volume k', fat16Resolve flatDisk bootDevice bootKernel = .ok ((0, device), k') ∧
    volume.fs.clusterBytes = 0 ∧ RootFile (device.drive flatDisk) splitPath volume flatFile ∧ k'.Room [] 8 := by
  have hheader := flatDisk_header
  obtain ⟨device, k', hrun, hroom⟩ := @fat16Resolve_accepts 8 flatDisk bootDevice bootKernel 1 rfl
    (Kernel.room_nil (bootKernel_tailRoom (by decide))) (by decide) (by rw [hheader]; exact flatDisk_count)
    (by rw [hheader]; decide) (by rw [hheader]; decide) (by rw [hheader]; decide)
  obtain ⟨_, fatPrivate, total, rfl, hprivate, hroot, htotal⟩ := fat16Resolve_mounts hrun
  rw [hheader] at hprivate hroot htotal
  obtain rfl := Option.some.inj (flatDisk_count.symm.trans htotal)
  refine ⟨_, fatPrivate.volume, k', hrun, ?_, ?_, hroom⟩
  · unfold FatPrivateStruct.volume FatPrivate.clusterBytes
    rw [hprivate]
    exact Nat.zero_mul _
  · refine ⟨rfl, ⟨[0x41], rfl, ⟨by decide, by decide⟩, by decide⟩, by decide, ?_, ?_, by decide⟩
    · unfold FatPrivateStruct.volume
      rw [hroot]
      exact flatDisk_root
    · unfold FatPrivateStruct.volume
      rw [hroot]
      rfl

theorem fat16Resolve_mountedSafe_iff_flat : ∃ device k',
    fat16Resolve flatDisk bootDevice bootKernel = .ok ((0, device), k') ∧
    (MountedSafe flatDisk device k' ↔ flatDisk.sector 0 13 ≠ 0) := by
  obtain ⟨device, volume, k', hrun, _⟩ := flatDisk_mounted
  exact ⟨device, k', hrun, fat16Resolve_mountedSafe_iff hrun fun _ => rfl⟩

/-- A disk that is accepted, a file that is opened on it, and a read that divides by zero. -/
theorem fat16Resolve_divides : ¬ ∀ (disk : Disk) (device device' : DiskStruct) (k k' : Kernel) (volume : FatVolume)
    (tr : List (FilesWorld × FilesEvent)) (w : FilesWorld), (∀ i, k.fileDescriptors i = none) →
    fat16Resolve disk device k = .ok ((0, device'), k') → (device'.drive disk).filesystem = some volume →
    Trace (FilesStep (device'.drive disk)) { kernel := k' } tr w →
    DividesNowhere (device'.drive disk) volume w.kernel := by
  intro h
  obtain ⟨device, volume, k', hrun, hzero, hfile, hroom⟩ := flatDisk_mounted
  have hnone : ∀ i, k'.fileDescriptors i = none := by
    intro i
    rw [fat16Resolve_table hrun]
    rfl
  have hfirst : FirstFree k' 0 := ⟨by decide, hnone 0, fun j hj => absurd hj (Nat.not_lt_zero j)⟩
  obtain ⟨data, copy, addr, k₁, k₂, hopens, hopen, _, hbody, hcopy, _, htable⟩ := hfile.opens (n := 0) hroom hfirst
  have htr : Trace (FilesStep (device.drive flatDisk)) { kernel := k' } _ _ :=
    Trace.nil.snoc (.opens hopen (by decide) hopens)
  have hsafe := h flatDisk bootDevice device bootKernel k' volume _ _ (fun _ => rfl) hrun hfile.filesystem htr
  have hdescriptor : OpenFile k₂ ((0 : Nat) + 1 : Int) volume data copy flatFile :=
    OpenFile.of_table (by decide) htable hbody hcopy
  apply hsafe.calls ((0 : Nat) + 1 : Int) (.read 0x1005000 1 1)
  exact @OpenFile.fread_divides _ _ _ _ _ _ _ ⟨0x1005000, 1, 1⟩ hdescriptor hzero (by decide) (by decide)

end BimbleOS
