import BimbleOS.Fs.DirectoryCount
import BimbleOS.Memory.HeapLoans

/-!
# `Fs.Resolve` — `fat16_resolve`

Mounting reads the boot sector and the root directory. Before it has looked at either of them, `fat16_resolve` has
set both pointers of the disk structure and created three streams; a failure takes back one pointer and the block
behind it, and nothing else. So a failed attempt never leaves the disk and the heap as they were
(`fat16Resolve_unchanged_iff`), except on a disk that has no streams.
-/

namespace BimbleOS

open Bytes CWord Exec Window

def sizeofFatH : Nat := 62
def sizeofFatPrivate : Nat := 92
def sizeofPointer : Nat := 4
def bimbleosFat16Signature : BitVec 8 := 0x29

/-- The packed `struct FAT_Header` at the start of the boot sector. -/
def FatHeader.ofBytes (bytes : List (BitVec 8)) : FatHeader :=
  let m : Mem := fun a => bytes.getD a 0
  { reservedSectors := load16 m 14
    sectorsPerCluster := m 13
    fatCopies := m 16
    rootDirEntries := load16 m 17
    sectorsPerFat := load16 m 22 }

/-- `header.shared.extended_header.signature`. -/
def fatSignature (bytes : List (BitVec 8)) : BitVec 8 := bytes.getD 38 0

/-- `struct FAT_Private` at `addr`. -/
structure FatPrivateStruct where
  addr : Nat
  header : FatHeader
  rootDirectory : RootDirectory
  clusterReadStream : Nat
  fatReadStream : Nat
  directoryStream : Nat

/-- What `disk->filesystem` points to. -/
inductive FilesystemPtr where
  | null
  | fat16Fs
  | other (index : Nat)
  deriving DecidableEq, Repr

/-- `struct Disk`, without its type and its sector size. -/
structure DiskStruct where
  id : Int
  filesystem : FilesystemPtr
  fsPrivate : Option FatPrivateStruct

/-- `diskstreamer_new`: only disk 0 is there, and the new stream is written to. -/
def diskstreamerNew (diskId : Int) : KM Nat :=
  if diskId ≠ 0 then return 0
  else do
    let diskStreamer ← kzalloc sizeofPointer
    deref diskStreamer
    return diskStreamer

/-- `fat16_init_private`. -/
def fat16InitPrivate (diskId : Int) (addr : Nat) : KM FatPrivateStruct := do
  deref addr
  let clusterReadStream ← diskstreamerNew diskId
  let fatReadStream ← diskstreamerNew diskId
  let directoryStream ← diskstreamerNew diskId
  return {
    addr := addr
    header := FatHeader.ofBytes []
    rootDirectory := { directory := { item := [], total := 0 }, sectorPos := 0, endingSectorPos := 0 }
    clusterReadStream := clusterReadStream
    fatReadStream := fatReadStream
    directoryStream := directoryStream }

/-- `fat16_resolve` from the check of the stream to the label `out`. -/
def fat16ResolvePrivate (disk : Disk) (stream : Nat) (fatPrivate : FatPrivateStruct) :
    KM (Int × FatPrivateStruct) := do
  if stream = 0 then return (-ENOMEM, fatPrivate)
  else
    let read ← defined (diskstreamerRead disk 0 sizeofFatH)
    if read.res ≠ bimbleosAllOk then return (- EIO, fatPrivate)
    else if fatSignature read.out ≠ bimbleosFat16Signature then
      return (-EFSNOTUS, { fatPrivate with header := FatHeader.ofBytes read.out })
    else
      let root ← fat16GetRootDirectory disk (FatHeader.ofBytes read.out)
      match root with
      | .error _ => return (- EIO, { fatPrivate with header := FatHeader.ofBytes read.out })
      | .ok root =>
          return (0, { fatPrivate with header := FatHeader.ofBytes read.out, rootDirectory := root })

/-- `fat16_resolve`: the result, and the disk structure it leaves. -/
def fat16Resolve (disk : Disk) (device : DiskStruct) : KM (Int × DiskStruct) := do
  let addr ← kzalloc sizeofFatPrivate
  let fatPrivate ← fat16InitPrivate device.id addr
  let stream ← diskstreamerNew device.id
  let (res, fatPrivate) ← fat16ResolvePrivate disk stream fatPrivate
  let _ ← (if stream ≠ 0 then kfree stream else pure ())
  if res < 0 then
    kfree addr
    return (res, { device with filesystem := .fat16Fs, fsPrivate := none })
  else return (res, { device with filesystem := .fat16Fs, fsPrivate := some fatPrivate })

section Streams

variable {disk : Disk} {diskId : Int} {k k' : Kernel} {T : Set Nat} {ptrs : List Nat} {addr ptr : Nat}

/-- There are no streams on another disk. -/
theorem diskstreamerNew_other (hid : diskId ≠ 0) : diskstreamerNew diskId k = .ok (0, k) := by
  unfold diskstreamerNew
  rw [if_pos hid]
  rfl

/-- A stream is a small structure. -/
theorem Heap.Lends.newStream (h : k.heap.Lends T ptrs) (hid : diskId = 0)
    (hrun : diskstreamerNew diskId k = .ok (ptr, k')) : ptr ≠ 0 ∧ k'.heap.Lends T (ptr :: ptrs) := by
  unfold diskstreamerNew at hrun
  rw [if_neg (not_not_intro hid)] at hrun
  obtain ⟨ptr', k₁, halloc, hderef⟩ := bind_eq_ok.mp hrun
  obtain ⟨_, k₂, hfollow, hdone⟩ := bind_eq_ok.mp hderef
  obtain ⟨hne, rfl⟩ := deref_run hfollow
  cases hdone
  rcases h.kzalloc (by decide) (by decide) halloc with ⟨hnull, _⟩ | hlends
  · exact absurd hnull hne
  · exact hlends

theorem fat16InitPrivate_addr {fatPrivate : FatPrivateStruct}
    (hrun : fat16InitPrivate diskId addr k = .ok (fatPrivate, k')) : addr ≠ 0 ∧ fatPrivate.addr = addr := by
  unfold fat16InitPrivate at hrun
  obtain ⟨_, k₁, hderef, hrest⟩ := bind_eq_ok.mp hrun
  obtain ⟨_, k₂, _, hrest₂⟩ := bind_eq_ok.mp hrest
  obtain ⟨_, k₃, _, hrest₃⟩ := bind_eq_ok.mp hrest₂
  obtain ⟨_, k₄, _, hdone⟩ := bind_eq_ok.mp hrest₃
  cases hdone
  exact ⟨(deref_run hderef).1, rfl⟩

/-- On another disk no stream is created. -/
theorem fat16InitPrivate_other {fatPrivate : FatPrivateStruct} (hid : diskId ≠ 0)
    (hrun : fat16InitPrivate diskId addr k = .ok (fatPrivate, k')) : k' = k := by
  unfold fat16InitPrivate at hrun
  obtain ⟨_, k₁, hderef, hrest⟩ := bind_eq_ok.mp hrun
  obtain ⟨_, rfl⟩ := deref_run hderef
  rw [bind_of_ok (diskstreamerNew_other hid), bind_of_ok (diskstreamerNew_other hid),
    bind_of_ok (diskstreamerNew_other hid)] at hrest
  cases hrest
  rfl

/-- On disk 0 three streams are. -/
theorem Heap.Lends.initPrivate {fatPrivate : FatPrivateStruct} (h : k.heap.Lends T ptrs) (hid : diskId = 0)
    (hrun : fat16InitPrivate diskId addr k = .ok (fatPrivate, k')) :
    k'.heap.Lends T
      (fatPrivate.directoryStream :: fatPrivate.fatReadStream :: fatPrivate.clusterReadStream :: ptrs) := by
  unfold fat16InitPrivate at hrun
  obtain ⟨_, k₁, hderef, hrest⟩ := bind_eq_ok.mp hrun
  obtain ⟨_, rfl⟩ := deref_run hderef
  obtain ⟨cluster, k₂, hcluster, hrest₂⟩ := bind_eq_ok.mp hrest
  obtain ⟨table, k₃, htable, hrest₃⟩ := bind_eq_ok.mp hrest₂
  obtain ⟨directory, k₄, hdirectory, hdone⟩ := bind_eq_ok.mp hrest₃
  cases hdone
  exact (((h.newStream hid hcluster).2.newStream hid htable).2.newStream hid hdirectory).2

/-- The boot sector as it is read. -/
def Disk.bootBytes (disk : Disk) : List (BitVec 8) := window disk.byte 0 sizeofFatH

theorem diskstreamerRead_boot : diskstreamerRead disk 0 sizeofFatH = some (rangeRead disk 0 sizeofFatH) := by
  have hread := @diskstreamerRead_spec disk 0 sizeofFatH (by decide)
  rwa [if_pos (by decide)] at hread

/-- **The ways out in front of the label.** The read always succeeds, and the root directory fails only without a
    buffer. -/
theorem fat16ResolvePrivate_run {fatPrivate fatPrivate' : FatPrivateStruct} {res : Int}
    (hrun : fat16ResolvePrivate disk ptr fatPrivate k = .ok ((res, fatPrivate'), k')) :
    (res < 0 ∧ (k' = k ∨
        k' = { k with heap := (heapMalloc k.heap (FatHeader.ofBytes disk.bootBytes).rootDirSize).2 } ∧
          (heapMalloc k.heap (FatHeader.ofBytes disk.bootBytes).rootDirSize).1 = 0)) ∨
      res = 0 ∧ ptr ≠ 0 ∧ fatSignature disk.bootBytes = bimbleosFat16Signature ∧ ∃ root,
        fat16GetRootDirectory disk (FatHeader.ofBytes disk.bootBytes) k = .ok (.ok root, k') ∧
        fatPrivate' = { fatPrivate with header := FatHeader.ofBytes disk.bootBytes, rootDirectory := root } := by
  unfold fat16ResolvePrivate at hrun
  -- there is no stream
  by_cases hptr : ptr = 0
  · rw [if_pos hptr] at hrun
    cases hrun
    exact Or.inl ⟨by decide, Or.inl rfl⟩
  rw [if_neg hptr, diskstreamerRead_boot] at hrun
  have hread : defined (some (rangeRead disk 0 sizeofFatH)) k = .ok (rangeRead disk 0 sizeofFatH, k) := rfl
  have hok : ¬ (rangeRead disk 0 sizeofFatH).res ≠ bimbleosAllOk := not_not_intro rfl
  have hout : (rangeRead disk 0 sizeofFatH).out = disk.bootBytes := rfl
  rw [bind_of_ok hread, if_neg hok, hout] at hrun
  -- it is no FAT16 disk
  by_cases hsignature : fatSignature disk.bootBytes ≠ bimbleosFat16Signature
  · rw [if_pos hsignature] at hrun
    cases hrun
    exact Or.inl ⟨by decide, Or.inl rfl⟩
  rw [if_neg hsignature] at hrun
  obtain ⟨root, k₁, hroot, hdone⟩ := bind_eq_ok.mp hrun
  obtain ⟨total, _, dir, halloc, ⟨hnull, rfl⟩ | ⟨_, _, rfl⟩⟩ := fat16GetRootDirectory_run hroot
  · -- the buffer of the root directory was refused
    cases hdone
    rw [kzalloc_eq] at halloc
    by_cases hdir : (heapMalloc k.heap (FatHeader.ofBytes disk.bootBytes).rootDirSize).1 = 0
    · rw [if_pos hdir] at halloc
      cases halloc
      exact Or.inl ⟨by decide, Or.inr ⟨rfl, hdir⟩⟩
    · rw [if_neg hdir] at halloc
      split at halloc
      · cases halloc
      · cases halloc
        exact absurd hnull hdir
  · cases hdone
    exact Or.inr ⟨rfl, hptr, not_not.mp hsignature, _, hroot, rfl⟩

/-- None of the ways that fail allocates. -/
theorem Heap.Lends.resolvePrivate {fatPrivate fatPrivate' : FatPrivateStruct} {res : Int} (h : k.heap.Lends T ptrs)
    (hrun : fat16ResolvePrivate disk ptr fatPrivate k = .ok ((res, fatPrivate'), k')) (hneg : res < 0) :
    k'.heap.Lends T ptrs := by
  rcases fat16ResolvePrivate_run hrun with ⟨_, rfl | ⟨rfl, hnull⟩⟩ | ⟨rfl, _⟩
  · exact h
  · exact h.refused hnull
  · exact absurd hneg (Int.lt_irrefl 0)

/-- A disk with the signature and a root directory is. -/
theorem fat16ResolvePrivate_accepts {fatPrivate : FatPrivateStruct} {root : RootDirectory} (hptr : ptr ≠ 0)
    (hsignature : fatSignature disk.bootBytes = bimbleosFat16Signature)
    (hroot : fat16GetRootDirectory disk (FatHeader.ofBytes disk.bootBytes) k = .ok (.ok root, k')) :
    fat16ResolvePrivate disk ptr fatPrivate k = .ok ((0, { fatPrivate with
      header := FatHeader.ofBytes disk.bootBytes
      rootDirectory := root }), k') := by
  have hread : defined (some (rangeRead disk 0 sizeofFatH)) k = .ok (rangeRead disk 0 sizeofFatH, k) := rfl
  have hok : ¬ (rangeRead disk 0 sizeofFatH).res ≠ bimbleosAllOk := not_not_intro rfl
  have hout : (rangeRead disk 0 sizeofFatH).out = disk.bootBytes := rfl
  unfold fat16ResolvePrivate
  rw [if_neg hptr, diskstreamerRead_boot, bind_of_ok hread, if_neg hok, hout, if_neg (not_not_intro hsignature),
    bind_of_ok hroot]
  rfl

/-- A disk with another signature is not taken. -/
theorem fat16ResolvePrivate_rejects {fatPrivate : FatPrivateStruct} (hptr : ptr ≠ 0)
    (hsignature : fatSignature disk.bootBytes ≠ bimbleosFat16Signature) : ∃ fatPrivate',
      fat16ResolvePrivate disk ptr fatPrivate k = .ok ((-EFSNOTUS, fatPrivate'), k) := by
  have hread : defined (some (rangeRead disk 0 sizeofFatH)) k = .ok (rangeRead disk 0 sizeofFatH, k) := rfl
  have hok : ¬ (rangeRead disk 0 sizeofFatH).res ≠ bimbleosAllOk := not_not_intro rfl
  have hout : (rangeRead disk 0 sizeofFatH).out = disk.bootBytes := rfl
  unfold fat16ResolvePrivate
  rw [if_neg hptr, diskstreamerRead_boot, bind_of_ok hread, if_neg hok, hout, if_pos hsignature]
  exact ⟨_, rfl⟩

end Streams

section Resolve

variable {disk : Disk} {device device' : DiskStruct} {k k' : Kernel} {res : Int}

/-- **A failed attempt** on disk 0 leaves the three streams behind, on another disk nothing; the file system of the
    disk is FAT16 then, and there is no private data. -/
theorem fat16Resolve_fails (hready : k.heap.Ready) (hrun : fat16Resolve disk device k = .ok ((res, device'), k'))
    (hneg : res < 0) : device' = { device with filesystem := .fat16Fs, fsPrivate := none } ∧
      (device.id = 0 → ∃ directoryStream fatReadStream clusterReadStream,
        k'.heap.Lends k.heap.taken [directoryStream, fatReadStream, clusterReadStream]) ∧
      (device.id ≠ 0 → k'.heap.Lends k.heap.taken []) := by
  unfold fat16Resolve at hrun
  obtain ⟨addr, k₁, halloc, hrun₁⟩ := bind_eq_ok.mp hrun
  obtain ⟨fatPrivate, k₂, hinit, hrun₂⟩ := bind_eq_ok.mp hrun₁
  obtain ⟨stream, k₃, hstream, hrun₃⟩ := bind_eq_ok.mp hrun₂
  obtain ⟨⟨res', fatPrivate'⟩, k₄, hresolve, hrun₄⟩ := bind_eq_ok.mp hrun₃
  obtain ⟨_, k₅, hclose, hout⟩ := bind_eq_ok.mp hrun₄
  -- a good result is returned as it is
  have hneg' : res' < 0 := by
    by_contra hgood
    simp only [if_neg hgood] at hout
    cases hout
    exact hgood hneg
  simp only [if_pos hneg'] at hout
  obtain ⟨_, k₆, hfree, hdone⟩ := bind_eq_ok.mp hout
  cases hfree
  cases hdone
  -- the structure was written to, so it is not null
  have haddr := (fat16InitPrivate_addr hinit).1
  have hlends : k₁.heap.Lends k.heap.taken [addr] := by
    rcases hready.lends.kzalloc (by decide) (by decide) halloc with ⟨hnull, _⟩ | ⟨_, hlends⟩
    · exact absurd hnull haddr
    · exact hlends
  refine ⟨rfl, fun hid => ?_, fun hid => ?_⟩
  · obtain ⟨hne, hlends₃⟩ := (hlends.initPrivate hid hinit).newStream hid hstream
    have hlends₄ := hlends₃.resolvePrivate hresolve hneg'
    rw [if_pos hne] at hclose
    cases hclose
    refine ⟨fatPrivate.directoryStream, fatPrivate.fatReadStream, fatPrivate.clusterReadStream, ?_⟩
    -- the structure is freed, and the stream of the boot sector; the three others are not
    have hperm : [fatPrivate.directoryStream, fatPrivate.fatReadStream, fatPrivate.clusterReadStream, addr].Perm
        [addr, fatPrivate.directoryStream, fatPrivate.fatReadStream, fatPrivate.clusterReadStream] :=
      @List.perm_append_comm _ [_, _, _] [addr]
    exact (hlends₄.free.perm hperm).free
  · obtain rfl := fat16InitPrivate_other hid hinit
    cases (diskstreamerNew_other hid).symm.trans hstream
    have hlends₄ := hlends.resolvePrivate hresolve hneg'
    rw [if_neg (not_not_intro rfl)] at hclose
    cases hclose
    exact hlends₄.free

/-- The disk structure and the taken blocks are as they were. -/
def ResolveUnchanged (device device' : DiskStruct) (k k' : Kernel) : Prop :=
  device'.fsPrivate = device.fsPrivate ∧ device'.filesystem = device.filesystem ∧ k'.heap.taken = k.heap.taken

/-- **A failed attempt leaves everything as it was** only on a disk other than 0 whose file system is FAT16 already,
    without private data. -/
theorem fat16Resolve_unchanged_iff (hready : k.heap.Ready)
    (hrun : fat16Resolve disk device k = .ok ((res, device'), k')) (hneg : res < 0) :
    ResolveUnchanged device device' k k' ↔
      device.id ≠ 0 ∧ device.filesystem = .fat16Fs ∧ device.fsPrivate = none := by
  obtain ⟨rfl, hleaks, hsettled⟩ := fat16Resolve_fails hready hrun hneg
  constructor
  · rintro ⟨hprivate, hfilesystem, htaken⟩
    -- on disk 0 three blocks are missing
    refine ⟨fun hid => ?_, hfilesystem.symm, hprivate.symm⟩
    obtain ⟨_, _, _, hlends⟩ := hleaks hid
    exact hlends.unsettled htaken
  · rintro ⟨hid, hfilesystem, hprivate⟩
    exact ⟨hprivate.symm, hfilesystem.symm, (hsettled hid).settled⟩

end Resolve

/-! ## What else an attempt does -/

section Keeps

variable {I : Kernel → Prop} {Ok : Nat → Prop} {disk : Disk} {device device' : DiskStruct} {k k' : Kernel}

theorem diskstreamerNew_keeps (hr : ClientRule I Ok) {diskId : Int} :
    Triple I (diskstreamerNew diskId) fun ptr k => (ptr ≠ 0 → Ok ptr) ∧ I k := by
  refine Triple.ite (fun _ => Triple.pure fun _ hk => ⟨fun hne => absurd rfl hne, hk⟩) fun _ => ?_
  refine Triple.bind (hr.kzalloc (by decide)) fun ptr => Triple.const fun hok => ?_
  exact Triple.bind deref_keeps fun _ => Triple.const fun _ => Triple.pure fun _ hk => ⟨fun _ => hok, hk⟩

/-- What the heap's clients keep, an attempt keeps. -/
theorem fat16Resolve_keeps (hr : ClientRule I Ok) : Triple I (fat16Resolve disk device) fun _ => I := by
  refine Triple.bind (hr.kzalloc (by decide)) fun addr => Triple.const fun haddr => ?_
  have hinit : Triple I (fat16InitPrivate device.id addr) fun _ => I := by
    refine Triple.bind deref_keeps fun _ => Triple.const fun _ => ?_
    refine Triple.bind (diskstreamerNew_keeps hr) fun _ => Triple.const fun _ => ?_
    refine Triple.bind (diskstreamerNew_keeps hr) fun _ => Triple.const fun _ => ?_
    exact Triple.bind (diskstreamerNew_keeps hr) fun _ => Triple.const fun _ => Triple.pure fun _ hk => hk
  refine Triple.bind hinit fun fatPrivate => ?_
  refine Triple.bind (diskstreamerNew_keeps hr) fun stream => Triple.const fun hstream => ?_
  have hprivate : Triple I (fat16ResolvePrivate disk stream fatPrivate) fun _ => I := by
    intro k r k' hk hrun
    rcases fat16ResolvePrivate_run hrun with ⟨_, rfl | ⟨rfl, hnull⟩⟩ | ⟨_, _, _, root, hroot, _⟩
    · exact hk
    · have halloc : kzalloc (FatHeader.ofBytes disk.bootBytes).rootDirSize k = .ok (0, { k with heap :=
          (heapMalloc k.heap (FatHeader.ofBytes disk.bootBytes).rootDirSize).2 }) := by
        rw [kzalloc_eq, if_pos hnull]
      exact (hr.kzalloc (Nat.lt_of_le_of_lt (rootDirSize_le _) (by decide)) _ _ _ hk halloc).2
    · obtain ⟨_, _, dir, halloc, _⟩ := fat16GetRootDirectory_run hroot
      exact (hr.kzalloc (Nat.lt_of_le_of_lt (rootDirSize_le _) (by decide)) _ _ _ hk halloc).2
  refine Triple.bind hprivate fun r => ?_
  have hclose : Triple I (if stream ≠ 0 then kfree stream else pure () : KM Unit) fun _ => I :=
    Triple.ite (fun hne => hr.kfree (hstream hne)) fun _ => Triple.pure fun _ hk => hk
  refine Triple.bind hclose fun _ => ?_
  refine Triple.ite (fun _ => ?_) fun _ => Triple.pure fun _ hk => hk
  exact Triple.bind (hr.kfree haddr) fun _ => Triple.pure fun _ hk => hk

/-- The table of open files is none of its business. -/
theorem fat16Resolve_table {r : Int × DiskStruct} (hrun : fat16Resolve disk device k = .ok (r, k')) :
    k'.fileDescriptors = k.fileDescriptors := by
  have htable : ClientRule (fun k' => k'.fileDescriptors = k.fileDescriptors) (fun _ => True) := by
    refine ⟨fun _ k₁ ptr k₂ hk halloc => ?_, fun _ => Triple.modify fun _ hk => hk⟩
    obtain ⟨_, memory, rfl⟩ := kzalloc_run halloc
    exact ⟨trivial, hk⟩
  exact fat16Resolve_keeps htable k r k' rfl hrun

/-- **A mounted disk** has the header and the root directory that its boot sector describes. -/
theorem fat16Resolve_mounts (hrun : fat16Resolve disk device k = .ok ((0, device'), k')) :
    fatSignature disk.bootBytes = bimbleosFat16Signature ∧ ∃ fatPrivate total,
      device' = { device with filesystem := .fat16Fs, fsPrivate := some fatPrivate } ∧
      fatPrivate.header = FatHeader.ofBytes disk.bootBytes ∧
      fatPrivate.rootDirectory = rootDirectoryAt disk (FatHeader.ofBytes disk.bootBytes) total ∧
      fat16GetTotalItemsForDirectory disk (FatHeader.ofBytes disk.bootBytes).rootDirSectorPos = some total := by
  unfold fat16Resolve at hrun
  obtain ⟨addr, k₁, halloc, hrun₁⟩ := bind_eq_ok.mp hrun
  obtain ⟨fatPrivate, k₂, hinit, hrun₂⟩ := bind_eq_ok.mp hrun₁
  obtain ⟨stream, k₃, hstream, hrun₃⟩ := bind_eq_ok.mp hrun₂
  obtain ⟨⟨res', fatPrivate'⟩, k₄, hresolve, hrun₄⟩ := bind_eq_ok.mp hrun₃
  obtain ⟨_, k₅, hclose, hout⟩ := bind_eq_ok.mp hrun₄
  rcases fat16ResolvePrivate_run hresolve with ⟨hneg, _⟩ | ⟨rfl, _, hsignature, root, hroot, rfl⟩
  · simp only [if_pos hneg] at hout
    obtain ⟨_, k₆, _, hdone⟩ := bind_eq_ok.mp hout
    obtain ⟨hres, _⟩ := Prod.mk.inj (Prod.mk.inj (Except.ok.inj hdone)).1
    omega
  · have hzero : ¬ (0 : Int) < 0 := Int.lt_irrefl 0
    simp only [if_neg hzero] at hout
    obtain ⟨_, hdevice⟩ := Prod.mk.inj (Prod.mk.inj (Except.ok.inj hout)).1
    obtain ⟨total, htotal, dir, _, ⟨_, hfail⟩ | ⟨_, _, hread⟩⟩ := fat16GetRootDirectory_run hroot
    · cases hfail
    · exact ⟨hsignature, _, total, hdevice.symm, rfl, Except.ok.inj hread, htotal⟩

end Keeps

/-! ## A disk without a file system -/

section Room

variable {ptrs : List Nat} {n addr : Nat}

theorem diskstreamerNew_room : Total (Kernel.Room ptrs (n + 1)) (diskstreamerNew 0)
    fun stream k => stream ≠ 0 ∧ k.Room (stream :: ptrs) n := by
  unfold diskstreamerNew
  rw [if_neg (not_not_intro rfl)]
  refine Total.bind (kzalloc_room (by decide) (by decide)) fun stream => Total.const fun hne => ?_
  intro k h
  exact ⟨stream, k, (bind_of_ok (deref_of_ne hne)).trans rfl, hne, h⟩

theorem fat16InitPrivate_room (haddr : addr ≠ 0) : Total (Kernel.Room ptrs (n + 3)) (fat16InitPrivate 0 addr)
    fun fatPrivate k => k.Room (fatPrivate.directoryStream :: fatPrivate.fatReadStream ::
      fatPrivate.clusterReadStream :: ptrs) n := by
  unfold fat16InitPrivate
  apply Total.bind (R := fun _ => Kernel.Room ptrs (n + 3))
  · exact fun k h => ⟨(), k, deref_of_ne haddr, h⟩
  intro _
  refine Total.bind (@diskstreamerNew_room ptrs (n + 2)) fun cluster => Total.const fun _ => ?_
  refine Total.bind (@diskstreamerNew_room (cluster :: ptrs) (n + 1)) fun table => Total.const fun _ => ?_
  refine Total.bind (@diskstreamerNew_room (table :: cluster :: ptrs) n) fun directory => Total.const fun _ => ?_
  exact Total.pure fun k h => h

/-- With room for five blocks a disk without a signature is refused. -/
theorem fat16Resolve_refuses {disk : Disk} {device : DiskStruct} {k : Kernel} (hid : device.id = 0)
    (hroom : k.Room [] 5) (hsignature : fatSignature disk.bootBytes ≠ bimbleosFat16Signature) :
    ∃ device' k', fat16Resolve disk device k = .ok ((-EFSNOTUS, device'), k') := by
  have hneg : -EFSNOTUS < 0 := by decide
  obtain ⟨addr, k₁, halloc, haddr, hroom₁⟩ := @kzalloc_room [] 4 sizeofFatPrivate (by decide) (by decide) k hroom
  obtain ⟨fatPrivate, k₂, hinit, hroom₂⟩ := @fat16InitPrivate_room [addr] 1 addr haddr k₁ hroom₁
  obtain ⟨stream, k₃, hstream, hne, _⟩ := @diskstreamerNew_room _ 0 k₂ hroom₂
  obtain ⟨fatPrivate', hrejects⟩ := @fat16ResolvePrivate_rejects disk k₃ stream fatPrivate hne hsignature
  have hclose : (if stream ≠ 0 then kfree stream else pure () : KM Unit) k₃
      = .ok ((), { k₃ with heap := heapFree k₃.heap stream }) := by
    rw [if_pos hne]
    rfl
  refine ⟨{ device with filesystem := .fat16Fs, fsPrivate := none },
    { k₃ with heap := heapFree (heapFree k₃.heap stream) addr }, ?_⟩
  unfold fat16Resolve
  rw [bind_of_ok halloc, hid, bind_of_ok hinit, bind_of_ok hstream, bind_of_ok hrejects]
  simp only []
  rw [bind_of_ok hclose, if_pos hneg]
  rfl

/-- With room for six blocks a disk with a small root directory is mounted. -/
theorem fat16Resolve_accepts {disk : Disk} {device : DiskStruct} {k : Kernel} {total : Int} (hid : device.id = 0)
    (hroom : k.Room [] (n + 6)) (hsignature : fatSignature disk.bootBytes = bimbleosFat16Signature)
    (hcount : fat16GetTotalItemsForDirectory disk (FatHeader.ofBytes disk.bootBytes).rootDirSectorPos = some total)
    (h₁ : 1 ≤ (FatHeader.ofBytes disk.bootBytes).rootDirSize)
    (h₂ : (FatHeader.ofBytes disk.bootBytes).rootDirSize ≤ 4096)
    (hend : (FatHeader.ofBytes disk.bootBytes).rootDirSectorPos * 512
      + (FatHeader.ofBytes disk.bootBytes).rootDirSize < 2147483648) :
    ∃ device' k', fat16Resolve disk device k = .ok ((0, device'), k') ∧ k'.Room [] n := by
  have hzero : ¬ (0 : Int) < 0 := Int.lt_irrefl 0
  obtain ⟨addr, k₁, halloc, haddr, hroom₁⟩ := @kzalloc_room [] (n + 5) sizeofFatPrivate (by decide) (by decide) k hroom
  obtain ⟨fatPrivate, k₂, hinit, hroom₂⟩ := @fat16InitPrivate_room [addr] (n + 2) addr haddr k₁ hroom₁
  obtain ⟨stream, k₃, hstream, hne, hroom₃⟩ := @diskstreamerNew_room _ (n + 1) k₂ hroom₂
  obtain ⟨dir, k₄, hdir, hdirne, hroom₄⟩ := @kzalloc_room _ n _ h₁ h₂ k₃ hroom₃
  obtain ⟨r, k₅, hroot⟩ := fat16GetRootDirectory_returns hroom₃.room.ready hcount fun _ => hend
  obtain ⟨total', htotal', dir', hdir', hcases⟩ := fat16GetRootDirectory_run hroot
  obtain rfl := Option.some.inj (hcount.symm.trans htotal')
  cases hdir.symm.trans hdir'
  rcases hcases with ⟨hnull, _⟩ | ⟨_, _, rfl⟩
  · exact absurd hnull hdirne
  have haccepts := @fat16ResolvePrivate_accepts disk k₃ k₄ stream fatPrivate _ hne hsignature hroot
  have hclose : (if stream ≠ 0 then kfree stream else pure () : KM Unit) k₄
      = .ok ((), { k₄ with heap := heapFree k₄.heap stream }) := by
    rw [if_pos hne]
    rfl
  refine ⟨{ device with filesystem := .fat16Fs, fsPrivate := some { fatPrivate with
    header := FatHeader.ofBytes disk.bootBytes
    rootDirectory := rootDirectoryAt disk (FatHeader.ofBytes disk.bootBytes) total } },
    { k₄ with heap := heapFree k₄.heap stream }, ?_, Kernel.room_nil hroom₄.room.kfree⟩
  unfold fat16Resolve
  rw [bind_of_ok halloc, hid, bind_of_ok hinit, bind_of_ok hstream, bind_of_ok haccepts]
  simp only []
  rw [bind_of_ok hclose, if_neg hzero]
  rfl

end Room

/-- The structure of the one disk, before a file system is looked for. -/
def bootDevice : DiskStruct where
  id := 0
  filesystem := .null
  fsPrivate := none

theorem emptyDisk_refused :
    ∃ device' k', fat16Resolve emptyDisk bootDevice bootKernel = .ok ((-EFSNOTUS, device'), k') :=
  fat16Resolve_refuses rfl (Kernel.room_nil (bootKernel_tailRoom (by decide))) (by decide)

theorem fat16Resolve_unchanged_iff_empty : ∃ device' k',
    fat16Resolve emptyDisk bootDevice bootKernel = .ok ((-EFSNOTUS, device'), k') ∧
    (ResolveUnchanged bootDevice device' bootKernel k' ↔
      bootDevice.id ≠ 0 ∧ bootDevice.filesystem = .fat16Fs ∧ bootDevice.fsPrivate = none) := by
  obtain ⟨device', k', hrun⟩ := emptyDisk_refused
  exact ⟨device', k', hrun, fat16Resolve_unchanged_iff bootKernel_ready hrun (by decide)⟩

/-- A disk that is not a FAT16 disk gets FAT16 as its file system, and three blocks are lost. -/
theorem fat16Resolve_changes : ¬ ∀ (disk : Disk) (device device' : DiskStruct) (k k' : Kernel) (res : Int),
    k.heap.Ready → fat16Resolve disk device k = .ok ((res, device'), k') → res < 0 →
    ResolveUnchanged device device' k k' := by
  intro h
  obtain ⟨device', k', hrun⟩ := emptyDisk_refused
  obtain ⟨_, _, htaken⟩ := h emptyDisk bootDevice device' bootKernel k' _ bootKernel_ready hrun (by decide)
  obtain ⟨_, hleaks, _⟩ := fat16Resolve_fails bootKernel_ready hrun (by decide)
  obtain ⟨_, _, _, hlends⟩ := hleaks rfl
  exact hlends.unsettled htaken

end BimbleOS
