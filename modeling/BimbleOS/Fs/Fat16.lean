import BimbleOS.Fs.PathParser

/-!
# `Fs.Fat16` — opening and reading files in `fs/fat/fat16.c`

Directories are read into heap blocks, directory items are copied into heap blocks, and a descriptor
points at such a copy. The items themselves are kept as values under the address of their block.
-/

namespace BimbleOS

open Bytes CWord

def sizeofFatDirectory : Nat := 16
def sizeofFatItem : Nat := 8
def sizeofFatFileDescriptor : Nat := 8

/-- `fat16_clone_directory_item` for the size of an item. -/
def fat16CloneDirectoryItem : KM Nat := kzalloc sizeofFatDirectoryItem

/-- `fat16_free_directory`. -/
def fat16FreeDirectory : FatDirectoryPtr → KM Unit
  | .null => return ()
  | .freed => throw .useAfterFree
  | .live directory item _ => do
      if item ≠ 0 then kfree item
      kfree directory

/-- `fat16_fat_item_free`. -/
def fat16FatItemFree (item : FatItem) : KM Unit := do
  match item.body with
  | .directory ptr => fat16FreeDirectory ptr
  | .file copy _ => kfree copy
  kfree item.addr

/-- The items of a directory of `total` items that was read into `bytes`. -/
def directoryItems (bytes : List (BitVec 8)) (total : Nat) : List FatDirectoryItem :=
  (List.range total).map fun i => FatDirectoryItem.ofBytes bytes (sizeofFatDirectoryItem * i)

/-- What `fat16_get_root_directory` fills in. -/
structure RootDirectory where
  directory : FatDirectory
  sectorPos : Nat
  endingSectorPos : Nat

/-- `root_dir_sector_pos`. -/
def FatHeader.rootDirSectorPos (header : FatHeader) : Nat :=
  header.fatCopies.toNat * header.sectorsPerFat.toNat + header.reservedSectors.toNat

/-- `root_dir_size`. -/
def FatHeader.rootDirSize (header : FatHeader) : Nat := header.rootDirEntries.toNat * sizeofFatDirectoryItem

/-- `fat16_get_root_directory`: the directory, or an error code. The position in bytes is an `int`. -/
def fat16GetRootDirectory (disk : Disk) (header : FatHeader) : KM (Except Int RootDirectory) := do
  let totalItems ← defined (fat16GetTotalItemsForDirectory disk header.rootDirSectorPos)
  -- the size comes from the header, whatever was counted
  let dir ← kzalloc header.rootDirSize
  if dir = 0 then return .error (-ENOMEM)
  else
    let pos ← defined (checked (header.rootDirSectorPos * bimbleosSectorSize : Nat))
    let read ← defined (diskstreamerRead disk pos header.rootDirSize)
    if read.res ≠ bimbleosAllOk then
      kfree dir
      return .error (- EIO)
    else return .ok {
      directory := { item := directoryItems read.out header.rootDirEntries.toNat, total := totalItems }
      sectorPos := header.rootDirSectorPos
      endingSectorPos := header.rootDirSectorPos + header.rootDirSize / bimbleosSectorSize }

/-- `fat16_read_internal` in the kernel: the first thing it does is to divide by the cluster size. -/
def readInternal (disk : Disk) (fs : FatPrivate) (startingCluster offset total : Int) :
    KM (Int × List (BitVec 8)) :=
  if fs.clusterBytes = 0 then throw .divisionByZero
  else defined (fat16ReadInternal disk fs startingCluster offset total)

/-- `fat16_load_fat_directory`. After a failure the caller gets the pointer that was just freed. -/
def fat16LoadFatDirectory (disk : Disk) (fs : FatPrivate) (item : FatDirectoryItem) :
    KM FatDirectoryPtr := do
  if !item.isSubdirectory then return .null
  else
    let directory ← kzalloc sizeofFatDirectory
    if directory = 0 then return .null
    else
      let cluster : Int := fat16GetFirstCluster item
      let clusterSector ← defined (fat16ClusterToSector fs cluster)
      let totalItems ← defined (fat16GetTotalItemsForDirectory disk (u32 clusterSector))
      let directorySize := s32 (u32 (totalItems * sizeofFatDirectoryItem))
      let items ← kzalloc (u32 directorySize)
      if items = 0 then
        fat16FreeDirectory (.live directory 0 { item := [], total := totalItems })
        return .freed
      else
        let (res, bytes) ← readInternal disk fs cluster 0 directorySize
        let content : FatDirectory :=
          { item := directoryItems bytes totalItems.toNat, total := totalItems }
        if res ≠ bimbleosAllOk then
          fat16FreeDirectory (.live directory items content)
          return .freed
        else return .live directory items content

/-- `fat16_new_fat_item_for_directory_item`. -/
def fat16NewFatItemForDirectoryItem (disk : Disk) (fs : FatPrivate) (item : FatDirectoryItem) :
    KM (Option FatItem) := do
  let fItem ← kzalloc sizeofFatItem
  if fItem = 0 then return none
  else if item.isSubdirectory then
    let directory ← fat16LoadFatDirectory disk fs item
    return some { addr := fItem, body := .directory directory }
  else
    let copy ← fat16CloneDirectoryItem
    return some { addr := fItem, body := .file copy item }

/-- The file name of an item is `name`. -/
def sameName (item : FatDirectoryItem) (name : List (BitVec 8)) : Bool :=
  istrncmp bimbleosMaxPath (fat16GetFullRelativeFilename item) name = 0

/-- The loop of `fat16_find_item_in_directory` from item `i` on, `left` items to go. It goes on after a
    match, and forgets the item found before. -/
def fat16FindLoop (disk : Disk) (fs : FatPrivate) (directory : FatDirectory) (name : List (BitVec 8)) :
    Nat → Nat → Option FatItem → KM (Option FatItem)
  | 0, _, fItem => return fItem
  | left + 1, i, fItem => do
      match directory.item[i]? with
      -- `total` is not compared with the size of the array
      | none => throw .outOfBounds
      | some item =>
          if sameName item name then
            let found ← fat16NewFatItemForDirectoryItem disk fs item
            fat16FindLoop disk fs directory name left (i + 1) found
          else fat16FindLoop disk fs directory name left (i + 1) fItem

/-- `fat16_find_item_in_directory`. -/
def fat16FindItemInDirectory (disk : Disk) (fs : FatPrivate) (directory : FatDirectory)
    (name : List (BitVec 8)) : KM (Option FatItem) :=
  fat16FindLoop disk fs directory name directory.total.toNat 0 none

/-- The loop of `fat16_get_directory_entry` over the parts behind `currentItem`. -/
def fat16EntryLoop (disk : Disk) (fs : FatPrivate) : FatItem → List PathPart → KM (Option FatItem)
  | currentItem, [] => return some currentItem
  | currentItem, part :: rest => do
      match currentItem.body with
      -- the path goes on behind a file
      | .file _ _ => return none
      | .directory .null => throw .nullPointer
      | .directory .freed => throw .useAfterFree
      | .directory (.live _ _ directory) =>
          let tmpItem ← fat16FindItemInDirectory disk fs directory part.part
          fat16FatItemFree currentItem
          match tmpItem with
          | some item => fat16EntryLoop disk fs item rest
          -- the next round looks at the type of what was not found
          | none => if rest = [] then return none else throw .nullPointer

/-- `fat16_get_directory_entry`. -/
def fat16GetDirectoryEntry (disk : Disk) (volume : FatVolume) (path : List PathPart) :
    KM (Option FatItem) := do
  match path with
  | [] => throw .nullPointer
  | part :: rest =>
      let rootItem ← fat16FindItemInDirectory disk volume.fs volume.rootDirectory part.part
      match rootItem with
      | none => return none
      | some item => fat16EntryLoop disk volume.fs item rest

/-- With no sectors in a cluster nothing is read. -/
theorem fat16ReadInternal_clusterBytes {disk : Disk} {fs : FatPrivate} {startingCluster offset total : Int}
    {r : Int × List (BitVec 8)} (h : fat16ReadInternal disk fs startingCluster offset total = some r) :
    fs.clusterBytes ≠ 0 := by
  intro hzero
  unfold fat16ReadInternal fat16ReadLoop fat16GetClusterForOffset at h
  rw [if_pos hzero, Option.bind_none] at h
  cases h

theorem readInternal_run {disk : Disk} {fs : FatPrivate} {startingCluster offset total : Int}
    {r : Int × List (BitVec 8)} {k k' : Kernel}
    (hrun : readInternal disk fs startingCluster offset total k = .ok (r, k')) :
    fat16ReadInternal disk fs startingCluster offset total = some r ∧ k' = k := by
  unfold readInternal at hrun
  split at hrun
  · cases hrun
  · exact defined_run hrun

theorem readInternal_of_some {disk : Disk} {fs : FatPrivate} {startingCluster offset total : Int}
    {r : Int × List (BitVec 8)} {k : Kernel} (h : fat16ReadInternal disk fs startingCluster offset total = some r) :
    readInternal disk fs startingCluster offset total k = .ok (r, k) := by
  unfold readInternal
  rw [if_neg (fat16ReadInternal_clusterBytes h), h]
  rfl

theorem readInternal_of_none {disk : Disk} {fs : FatPrivate} {startingCluster offset total : Int} {k : Kernel}
    (h : fat16ReadInternal disk fs startingCluster offset total = none) :
    ∃ e, readInternal disk fs startingCluster offset total k = .error e := by
  unfold readInternal
  rw [h]
  split
  · exact ⟨_, rfl⟩
  · exact ⟨_, rfl⟩

/-- `FILE_MODE`. -/
inductive FileMode where
  | read
  | write
  | append
  | invalid
  deriving DecidableEq, Repr

/-- `fat16_open`: the descriptor, or an error code. -/
def fat16Open (disk : Disk) (volume : FatVolume) (path : List PathPart) (filemode : FileMode) :
    KM (Except Int FatFileDescriptor) := do
  if filemode ≠ .read then return .error (-ERDONLY)
  else
    let descriptor ← kzalloc sizeofFatFileDescriptor
    if descriptor = 0 then return .error (-ENOMEM)
    else
      let item ← fat16GetDirectoryEntry disk volume path
      match item with
      | none => do
          kfree descriptor
          return .error (- EIO)
      | some item => return .ok { addr := descriptor, item := item }

/-- `fat16_close`, which frees the descriptor. -/
def fat16Close (desc : FatFileDescriptor) : KM Int := do
  fat16FatItemFree desc.item
  kfree desc.addr
  return 0

/-- `struct FileStat`. -/
structure FileStat where
  flags : Nat := 0
  filesize : Nat := 0
  deriving DecidableEq, Repr

def fileStatReadOnly : Nat := 0b00000001

/-- `fat16_stat`; a null copy of the item is followed. -/
def fat16Stat (desc : FatFileDescriptor) : KM (Int × FileStat) := do
  match desc.item.body with
  | .directory _ => return (-EINVARG, {})
  | .file copy item => do
      deref copy
      let flags := if item.attr &&& fatFileReadOnly ≠ 0 then fileStatReadOnly else 0
      return (0, { flags := flags, filesize := item.filesize.toNat })

/-- `FILE_SEEK_MODE`, an unsigned int: a mode that is none of the three is `other`. -/
inductive SeekMode where
  | seekSet
  | seekCur
  | seekEnd
  | other
  deriving DecidableEq, Repr

/-- `fat16_seek`: the result and the descriptor with its new position. -/
def fat16Seek (desc : FatFileDescriptor) (offset : Nat) (seekMode : SeekMode) :
    KM (Int × FatFileDescriptor) := do
  match desc.item.body with
  | .directory _ => return (-EINVARG, desc)
  | .file copy item => do
      deref copy
      if item.filesize.toNat ≤ offset then return (- EIO, desc)
      else
        match seekMode with
        | .seekSet => return (0, { desc with pos := offset })
        | .seekEnd => return (-EUNIMP, desc)
        -- the sum wraps, and is not compared with the size again
        | .seekCur => return (0, { desc with pos := u32 (desc.pos + offset : Nat) })
        | .other => return (-EINVARG, desc)

/-- The bytes a read delivers are stored at `out_ptr`. -/
def storeOut (outPtr : Nat) (bytes : List (BitVec 8)) : KM Unit :=
  if bytes ≠ [] ∧ outPtr = 0 then throw .nullPointer
  else modify fun k => { k with memory := storeBytes k.memory outPtr bytes }

theorem storeOut_run {outPtr : Nat} {bytes : List (BitVec 8)} {k k' : Kernel}
    (hrun : storeOut outPtr bytes k = .ok ((), k')) :
    k' = { k with memory := storeBytes k.memory outPtr bytes } := by
  unfold storeOut at hrun
  split at hrun
  · cases hrun
  · cases hrun
    rfl

/-- The loop of `fat16_read` for the last `nmemb` elements. -/
def fat16ReadElements (disk : Disk) (fs : FatPrivate) (item : FatDirectoryItem) (size : Nat) :
    Nat → Int → Nat → KM Int
  | 0, _, _ => return 0
  | nmemb + 1, offset, outPtr => do
      let read ← readInternal disk fs (fat16GetFirstCluster item) offset (s32 size)
      storeOut outPtr read.2
      if read.1 < 0 then return read.1
      else
        -- the offset is added to as an unsigned number and kept in an `int`
        fat16ReadElements disk fs item size nmemb (s32 (u32 (offset + size))) (u32 (outPtr + size : Nat))

/-- `fat16_read`: the number of elements, as an `int`. It follows the `item` member whatever the tag says. -/
def fat16Read (disk : Disk) (volume : FatVolume) (desc : FatFileDescriptor) (size nmemb outPtr : Nat) :
    KM Int := do
  match desc.item.body with
  | .directory _ => throw .wrongMember
  | .file copy item => do
      deref copy
      let res ← fat16ReadElements disk volume.fs item size nmemb (s32 desc.pos) outPtr
      -- the number that was asked for, not a number of what was read
      if res < 0 then return res else return s32 nmemb

end BimbleOS
