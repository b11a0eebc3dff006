import BimbleOS.Fs.Fat16

/-!
# `Fs.File` — `fs/file.c` and `disk_get`

The table of open files over the one file system there is.
-/

namespace BimbleOS

open CWord

def sizeofFileDescriptor : Nat := 16

/-- `disk_get`: there is one disk. -/
def diskGet (drive : Drive) (index : Int) : Option Drive := if index = 0 then some drive else none

/-- `file_descriptors[i] = desc`. -/
def setDescriptor (i : Nat) (desc : Option FileDescriptor) : KM Unit :=
  modify fun k => { k with fileDescriptors := Function.update k.fileDescriptors i desc }

/-- The loop of `file_new_descriptor` from entry `i` on. The new descriptor is written to without a
    check. -/
def fileNewDescriptorLoop : Nat → Nat → KM (Except Int FileDescriptor)
  | 0, _ => return .error (-ENOMEM)
  | left + 1, i => do
      let k ← get
      if (k.fileDescriptors i).isSome then fileNewDescriptorLoop left (i + 1)
      else
        let addr ← kzalloc sizeofFileDescriptor
        deref addr
        let desc : FileDescriptor := { addr := addr, index := i + 1 }
        setDescriptor i (some desc)
        return .ok desc

/-- `file_new_descriptor`. -/
def fileNewDescriptor : KM (Except Int FileDescriptor) :=
  fileNewDescriptorLoop bimbleosMaxFileDescriptors 0

/-- `file_get_descriptor`. -/
def fileGetDescriptor (fd : Int) : KM (Option FileDescriptor) := do
  let k ← get
  -- the number 512 that `file_new_descriptor` can hand out is turned down
  if fd ≤ 0 ∨ (bimbleosMaxFileDescriptors : Int) ≤ fd then return none
  else return k.fileDescriptors (fd - 1).toNat

theorem fileGetDescriptor_eq (fd : Int) (k : Kernel) : fileGetDescriptor fd k
    = .ok (if fd ≤ 0 ∨ (bimbleosMaxFileDescriptors : Int) ≤ fd then none
        else k.fileDescriptors (fd - 1).toNat, k) := by
  unfold fileGetDescriptor
  show (if fd ≤ 0 ∨ (bimbleosMaxFileDescriptors : Int) ≤ fd then _ else _ : KM _) k = _
  split
  · rfl
  · rfl

/-- `file_get_mode_by_string`. -/
def fileGetModeByString (str : List (BitVec 8)) : FileMode :=
  if strncmp 1 str [0x72] = 0 then .read
  else if strncmp 1 str [0x77] = 0 then .write
  else if strncmp 1 str [0x61] = 0 then .append
  else .invalid

/-- The mode string `"r"`. -/
def readMode : List (BitVec 8) := [0x72]

/-- What `fopen` does until it has a result; it reports every error as 0. -/
def fopenResult (drive : Drive) (filename modeStr : List (BitVec 8)) : KM Int := do
  let rootPath ← pathparserParse filename
  match rootPath with
  | none => return -EINVARG
  | some rootPath =>
      if rootPath.first = [] then return -EINVARG
      else
        match diskGet drive rootPath.driveNo with
        | none => return - EIO
        | some drive =>
            match drive.filesystem with
            | none => return - EIO
            | some volume =>
                let mode := fileGetModeByString modeStr
                if mode = .invalid then return -EINVARG
                else
                  let opened ← fat16Open drive.disk volume rootPath.first mode
                  match opened with
                  | .error code => return code
                  | .ok privateData =>
                      let desc ← fileNewDescriptor
                      match desc with
                      | .error code => return code
                      | .ok desc =>
                          setDescriptor (desc.index - 1)
                            (some { desc with filesystem := some volume, privateData := some privateData })
                          return desc.index

/-- `fopen`. -/
def fopen (drive : Drive) (filename modeStr : List (BitVec 8)) : KM Int := do
  let res ← fopenResult drive filename modeStr
  if res < 0 then return 0 else return res

/-- The private data of a descriptor. -/
def descriptorData (desc : FileDescriptor) : KM FatFileDescriptor := do
  match desc.privateData with
  | none => throw .nullPointer
  | some data => return data

/-- `fstat`. -/
def fstat (fd : Int) : KM (Int × FileStat) := do
  let desc ← fileGetDescriptor fd
  match desc with
  | none => return (- EIO, {})
  | some desc =>
      let data ← descriptorData desc
      fat16Stat data

/-- `fseek`; the offset is passed on as a `uint32_t`. -/
def fseek (fd offset : Int) (whence : SeekMode) : KM Int := do
  let desc ← fileGetDescriptor fd
  match desc with
  | none => return - EIO
  | some desc =>
      let data ← descriptorData desc
      let (res, data) ← fat16Seek data (u32 offset) whence
      setDescriptor (fd - 1).toNat (some { desc with privateData := some data })
      return res

/-- `fread`. -/
def fread (drive : Drive) (ptr size nmemb : Nat) (fd : Int) : KM Int := do
  if size = 0 ∨ nmemb = 0 ∨ fd < 1 then return -EINVARG
  else
    let desc ← fileGetDescriptor fd
    match desc with
    | none => return -EINVARG
    | some desc =>
        match desc.filesystem with
        | none => throw .nullPointer
        | some volume =>
            let data ← descriptorData desc
            fat16Read drive.disk volume data size nmemb ptr

/-- `fclose`. -/
def fclose (fd : Int) : KM Int := do
  let desc ← fileGetDescriptor fd
  match desc with
  | none => return - EIO
  | some desc =>
      let data ← descriptorData desc
      let res ← fat16Close data
      if res = bimbleosAllOk then
        -- the slot is emptied before the structure is freed
        setDescriptor (desc.index - 1) none
        kfree desc.addr
        return res
      else return res

end BimbleOS
