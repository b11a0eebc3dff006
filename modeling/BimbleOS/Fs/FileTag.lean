import BimbleOS.Fs.Faults
import BimbleOS.Fs.FileUse

/-!
# `Fs.FileTag` — the union in `struct FAT_Item`

An open file or directory is a `FAT_Item`, whose type names the member of its union. `fat16_stat`,
`fat16_seek` and `fat16_fat_item_free` look at the type before they follow a member; `fat16_read` does not.
So a sequence of calls on a descriptor keeps to the tag unless it reads from a directory
(`fopen_keepsToTag_iff`).
-/

namespace BimbleOS

open CWord Exec

/-- A call on an open file. -/
inductive FileOp where
  | stat
  | seek (offset : Int) (whence : SeekMode)
  | read (ptr size nmemb : Nat)

/-- Make the call. -/
def FileOp.call (drive : Drive) (fd : Int) : FileOp → KM Int
  | .stat => do
      let r ← fstat fd
      return r.1
  | .seek offset whence => fseek fd offset whence
  | .read ptr size nmemb => fread drive ptr size nmemb fd

/-- The call asks for bytes. -/
def FileOp.Reads : FileOp → Prop
  | .read _ size nmemb => size ≠ 0 ∧ nmemb ≠ 0
  | _ => False

/-- The calls, and the `fclose` behind them, follow no member of the union that its tag does not name; on a
    directory every call returns an error. -/
def KeepsToTag (drive : Drive) (fd : Int) (directory : Prop) : List FileOp → Kernel → Prop
  | [], k => fclose fd k ≠ .error .wrongMember
  | op :: ops, k => op.call drive fd k ≠ .error .wrongMember ∧
      (directory → ∃ res k', op.call drive fd k = .ok (res, k') ∧ res < 0) ∧
      ∀ res k', op.call drive fd k = .ok (res, k') → KeepsToTag drive fd directory ops k'

/-- The path leads to a file. -/
def Drive.LeadsToFile (drive : Drive) (filename : List (BitVec 8)) : Prop :=
  ∃ entry, drive.entry filename = some entry ∧ entry.isSubdirectory = false

/-- The path leads to a directory. -/
def Drive.LeadsToDirectory (drive : Drive) (filename : List (BitVec 8)) : Prop :=
  ∃ entry, drive.entry filename = some entry ∧ entry.isSubdirectory = true

/-! ## Calls that check the tag -/

section Never

variable {disk : Disk} {volume : FatVolume} {data : FatFileDescriptor} {item : FatDirectoryItem}

/-- Reading from a file follows the right member. -/
theorem fat16Read_never {copy size n ptr : Nat} (hbody : data.item.body = .file copy item) :
    Never .wrongMember (fat16Read disk volume data size n ptr) := by
  unfold fat16Read
  rw [hbody]
  apply Never.bind (deref_never (by decide))
  intro _
  apply Never.bind (fat16ReadElements_never (by decide) fun _ _ _ => readInternal_never (by decide) (by decide))
  intro res
  exact Never.ite Never.pure Never.pure

end Never

/-! ## One call -/

section Call

variable {drive : Drive} {k k' : Kernel} {i : Nat} {file : FatFileDescriptor} {op : FileOp} {res : Int}

/-- The table is all that `HoldsFile` speaks about. -/
theorem HoldsFile.congr (h : HoldsFile drive k i file) (htable : k'.fileDescriptors = k.fileDescriptors) :
    HoldsFile drive k' i file := by
  obtain ⟨volume, addr, pos, hfs, hslot⟩ := h
  exact ⟨volume, addr, pos, hfs, by rw [htable, hslot]⟩

theorem fat16Stat_run {data : FatFileDescriptor} {r : Int × FileStat} (hrun : fat16Stat data k = .ok (r, k')) :
    k' = k := by
  unfold fat16Stat at hrun
  cases hbody : data.item.body with
  | directory ptr =>
      simp only [hbody] at hrun
      cases hrun
      rfl
  | file copy item =>
      simp only [hbody] at hrun
      obtain ⟨_, k₁, hderef, hdone⟩ := bind_eq_ok.mp hrun
      cases hdone
      exact (deref_run hderef).2

theorem fat16Read_table {disk : Disk} {volume : FatVolume} {data : FatFileDescriptor} {size n ptr : Nat}
    (hrun : fat16Read disk volume data size n ptr k = .ok (res, k')) : k'.fileDescriptors = k.fileDescriptors := by
  unfold fat16Read at hrun
  cases hbody : data.item.body with
  | directory ptr =>
      simp only [hbody] at hrun
      cases hrun
  | file copy item =>
      simp only [hbody] at hrun
      obtain ⟨_, k₁, hderef, hrest⟩ := bind_eq_ok.mp hrun
      obtain ⟨_, rfl⟩ := deref_run hderef
      obtain ⟨r, k₂, hloop, hdone⟩ := bind_eq_ok.mp hrest
      have htable := (fat16ReadElements_run hloop).1
      split at hdone
      · rw [← (Prod.mk.inj (Except.ok.inj hdone)).2]
        exact htable
      · rw [← (Prod.mk.inj (Except.ok.inj hdone)).2]
        exact htable

/-- A read of no bytes is refused. -/
theorem FileOp.call_idle {fd : Int} {ptr size nmemb : Nat} (h : ¬ (FileOp.read ptr size nmemb).Reads) :
    (FileOp.read ptr size nmemb).call drive fd k = .ok (-EINVARG, k) := by
  have hzero : size = 0 ∨ nmemb = 0 ∨ fd < 1 := by
    by_cases hsize : size = 0
    · exact Or.inl hsize
    · exact Or.inr (Or.inl (by_contra fun hnmemb => h ⟨hsize, hnmemb⟩))
  show fread drive ptr size nmemb fd k = _
  unfold fread
  rw [if_pos hzero]
  rfl

/-- **A call leaves the file in its slot**, at some position. -/
theorem HoldsFile.call (h : HoldsFile drive k i file) (hi : i < 511)
    (hrun : op.call drive ((i + 1 : Nat) : Int) k = .ok (res, k')) : HoldsFile drive k' i file := by
  obtain ⟨volume, addr, pos, hfs, hserved⟩ := h.serves hi
  cases op with
  | stat =>
      obtain ⟨r, k₁, hstat, hdone⟩ := bind_eq_ok.mp hrun
      cases hdone
      rw [hserved.stat] at hstat
      rw [fat16Stat_run hstat]
      exact h
  | seek offset whence =>
      have hindex : (((i + 1 : Nat) : Int) - 1).toNat = i := by omega
      have hseek := (hserved.seek offset whence).symm.trans hrun
      obtain ⟨⟨code, data⟩, k₁, hmove, hrest⟩ := bind_eq_ok.mp hseek
      obtain ⟨rfl, pos', rfl⟩ := fat16Seek_run hmove
      obtain ⟨_, k₂, hset, hdone⟩ := bind_eq_ok.mp hrest
      cases hset
      cases hdone
      refine ⟨volume, addr, pos', hfs, ?_⟩
      show Function.update k₁.fileDescriptors (((i + 1 : Nat) : Int) - 1).toNat _ i = _
      rw [hindex, Function.update_self]
  | read ptr size nmemb =>
      by_cases hreads : (FileOp.read ptr size nmemb).Reads
      · have hread := (hserved.read ptr size nmemb hreads.1 hreads.2).symm.trans hrun
        exact h.congr (fat16Read_table hread)
      · rw [FileOp.call_idle hreads] at hrun
        cases hrun
        exact h

/-- A call stops with null pointers, and with what reading the file stops with. -/
theorem HoldsFile.call_never {e : Fault} (h : HoldsFile drive k i file) (hi : i < 511) (hnull : .nullPointer ≠ e)
    (hread : ∀ volume pos size n ptr, drive.filesystem = some volume →
      Never e (fat16Read drive.disk volume { file with pos := pos } size n ptr)) :
    op.call drive ((i + 1 : Nat) : Int) k ≠ .error e := by
  obtain ⟨volume, addr, pos, hfs, hserved⟩ := h.serves hi
  cases op with
  | stat =>
      intro hfault
      rcases hrun : fstat ((i + 1 : Nat) : Int) k with e' | r
      · have hstop := bind_of_error (f := fun r : Int × FileStat => (pure r.1 : KM Int)) hrun
        cases hstop.symm.trans hfault
        exact fat16Stat_never hnull k (hserved.stat.symm.trans hrun)
      · have hreturn := bind_of_ok (f := fun r : Int × FileStat => (pure r.1 : KM Int)) hrun
        cases hreturn.symm.trans hfault
  | seek offset whence =>
      intro hfault
      have hseek := (hserved.seek offset whence).symm.trans hfault
      exact Never.bind (fat16Seek_never hnull) (fun r => Never.bind Never.modify fun _ => Never.pure) k hseek
  | read ptr size nmemb =>
      by_cases hreads : (FileOp.read ptr size nmemb).Reads
      · intro hfault
        exact hread volume pos size nmemb ptr hfs k ((hserved.read ptr size nmemb hreads.1 hreads.2).symm.trans hfault)
      · rw [FileOp.call_idle hreads]
        exact fun hfault => by cases hfault

/-- A call on a file follows the right member. -/
theorem HoldsFile.call_file {copy : Nat} {item : FatDirectoryItem} (h : HoldsFile drive k i file) (hi : i < 511)
    (hbody : file.item.body = .file copy item) :
    op.call drive ((i + 1 : Nat) : Int) k ≠ .error .wrongMember := by
  refine h.call_never hi (by decide) fun volume pos size n ptr _ => ?_
  have hbody' : ({ file with pos := pos } : FatFileDescriptor).item.body = .file copy item := hbody
  exact fat16Read_never hbody'

/-- A call on a directory that asks for no bytes returns an error. -/
theorem HoldsFile.call_directory {ptr : FatDirectoryPtr} (h : HoldsFile drive k i file) (hi : i < 511)
    (hbody : file.item.body = .directory ptr) (hidle : ¬ op.Reads) :
    ∃ k', op.call drive ((i + 1 : Nat) : Int) k = .ok (-EINVARG, k') := by
  obtain ⟨volume, addr, pos, hfs, hserved⟩ := h.serves hi
  cases op with
  | stat =>
      refine ⟨k, ?_⟩
      have hstat : fstat ((i + 1 : Nat) : Int) k = .ok ((-EINVARG, {}), k) := by
        rw [hserved.stat]
        unfold fat16Stat
        simp only [hbody]
        rfl
      exact bind_of_ok hstat
  | seek offset whence =>
      have hmove : fat16Seek { file with pos := pos } (u32 offset) whence k
          = .ok ((-EINVARG, { file with pos := pos }), k) := by
        unfold fat16Seek
        simp only [hbody]
        rfl
      exact ⟨_, (hserved.seek offset whence).trans (bind_of_ok hmove)⟩
  | read ptr size nmemb => exact ⟨k, FileOp.call_idle hidle⟩

/-- A call on a directory that asks for bytes follows the wrong member. -/
theorem HoldsFile.call_wrong {ptr : FatDirectoryPtr} (h : HoldsFile drive k i file) (hi : i < 511)
    (hbody : file.item.body = .directory ptr) (hreads : op.Reads) :
    op.call drive ((i + 1 : Nat) : Int) k = .error .wrongMember := by
  obtain ⟨volume, addr, pos, hfs, hserved⟩ := h.serves hi
  cases op with
  | stat => exact hreads.elim
  | seek => exact hreads.elim
  | read ptr size nmemb =>
      apply (hserved.read ptr size nmemb hreads.1 hreads.2).trans
      unfold fat16Read
      simp only [hbody]
      rfl

/-- `fclose` follows the right member. -/
theorem HoldsFile.close (h : HoldsFile drive k i file) (hi : i < 511) :
    fclose ((i + 1 : Nat) : Int) k ≠ .error .wrongMember := by
  obtain ⟨volume, addr, pos, hfs, hserved⟩ := h.serves hi
  intro hfault
  have hclose := hserved.close.symm.trans hfault
  refine Never.bind (fat16Close_never (by decide)) (fun res => ?_) k hclose
  exact Never.ite (Never.bind Never.modify fun _ => Never.bind Never.modify fun _ => Never.pure) Never.pure

/-- Without a descriptor every call returns an error. -/
theorem FileOp.call_unknown {fd : Int} (hget : fileGetDescriptor fd k = .ok (none, k)) :
    ∃ res, op.call drive fd k = .ok (res, k) ∧ res < 0 := by
  cases op with
  | stat =>
      have hstat : fstat fd k = .ok ((- EIO, {}), k) := bind_of_ok hget
      exact ⟨- EIO, bind_of_ok hstat, by decide⟩
  | seek => exact ⟨- EIO, bind_of_ok hget, by decide⟩
  | read ptr size nmemb =>
      refine ⟨-EINVARG, ?_, by decide⟩
      show fread drive ptr size nmemb fd k = _
      unfold fread
      split
      · rfl
      · exact bind_of_ok hget

/-- No call reaches descriptor 512. -/
theorem FileOp.call_last : ∃ res, op.call drive 512 k = .ok (res, k) ∧ res < 0 := FileOp.call_unknown rfl

end Call

/-! ## Sequences of calls -/

section Sequence

variable {drive : Drive} {k : Kernel} {i : Nat} {file : FatFileDescriptor} {directory : Prop} {ops : List FileOp}

/-- On a file all calls keep to the tag. -/
theorem HoldsFile.keepsToTag {copy : Nat} {item : FatDirectoryItem} (h : HoldsFile drive k i file) (hi : i < 511)
    (hbody : file.item.body = .file copy item) (hfile : ¬ directory) :
    KeepsToTag drive ((i + 1 : Nat) : Int) directory ops k := by
  induction ops generalizing k with
  | nil => exact h.close hi
  | cons op ops ih =>
      refine ⟨h.call_file hi hbody, fun hdirectory => absurd hdirectory hfile, ?_⟩
      intro res k' hrun
      exact ih (h.call hi hrun)

/-- On a directory they do unless one of them asks for bytes. -/
theorem HoldsFile.keepsToTag_iff {ptr : FatDirectoryPtr} (h : HoldsFile drive k i file) (hi : i < 511)
    (hbody : file.item.body = .directory ptr) :
    KeepsToTag drive ((i + 1 : Nat) : Int) directory ops k ↔ ∀ op ∈ ops, ¬ op.Reads := by
  induction ops generalizing k with
  | nil => exact iff_of_true (h.close hi) fun op hop => absurd hop List.not_mem_nil
  | cons op ops ih =>
      rw [List.forall_mem_cons]
      constructor
      · rintro ⟨hmember, _, hrest⟩
        have hidle : ¬ op.Reads := fun hreads => hmember (h.call_wrong hi hbody hreads)
        obtain ⟨k', hrun⟩ := h.call_directory hi hbody hidle
        exact ⟨hidle, (ih (h.call hi hrun)).mp (hrest _ k' hrun)⟩
      · rintro ⟨hidle, hrest⟩
        obtain ⟨k', hrun⟩ := h.call_directory hi hbody hidle
        refine ⟨?_, fun _ => ⟨-EINVARG, k', hrun, by decide⟩, ?_⟩
        · rw [hrun]
          exact fun hfault => by cases hfault
        · intro res k'' hrun'
          rw [hrun] at hrun'
          obtain ⟨_, rfl⟩ := Prod.mk.inj (Except.ok.inj hrun')
          exact (ih (h.call hi hrun)).mpr hrest

/-- With descriptor 512 no call reaches an item. -/
theorem keepsToTag_last : KeepsToTag drive 512 directory ops k := by
  induction ops with
  | nil => exact fun hfault => by cases hfault
  | cons op ops ih =>
      obtain ⟨res, hrun, hneg⟩ := @FileOp.call_last drive k op
      refine ⟨?_, fun _ => ⟨res, k, hrun, hneg⟩, ?_⟩
      · rw [hrun]
        exact fun hfault => by cases hfault
      · intro res' k' hrun'
        rw [hrun] at hrun'
        cases hrun'
        exact ih

end Sequence

/-- The type of an item is that of its entry. -/
theorem MadeOf.body {disk : Disk} {fs : FatPrivate} {entry : FatDirectoryItem} {item : FatItem}
    (h : MadeOf disk fs entry item) : (∃ ptr, item.body = .directory ptr ∧ entry.isSubdirectory = true) ∨
      ∃ copy, item.body = .file copy entry ∧ entry.isSubdirectory = false := by
  cases h with
  | file hfile => exact Or.inr ⟨_, rfl, hfile⟩
  | directory hsub => exact Or.inl ⟨_, rfl, hsub⟩

/-- A descriptor is that of the first empty slot, which then holds what the path leads to. -/
theorem fopen_holds {drive : Drive} {filename modeStr : List (BitVec 8)} {k k₁ : Kernel} {fd : Int}
    (hrun : fopen drive filename modeStr k = .ok (fd, k₁)) (hfd : 0 < fd) : ∃ i volume data,
      fd = ((i + 1 : Nat) : Int) ∧ FirstFree k i ∧ FileAt drive filename volume data ∧ HoldsFile drive k₁ i data := by
  cases fopen_outcome hrun with
  | missing => exact absurd hfd (Int.lt_irrefl 0)
  | full => exact absurd hfd (Int.lt_irrefl 0)
  | @opened volume data k₂ k₃ i addr hopens hfirst halloc hne =>
      refine ⟨i, volume, data, rfl, ⟨hfirst.lt, ?_, ?_⟩, hopens.fileAt, volume, addr, data.pos, hopens.filesystem,
        Function.update_self ..⟩
      · rw [← hopens.table]
        exact hfirst.free
      · rw [← hopens.table]
        exact hfirst.before

/-- **The calls on an open file keep to the tag** exactly when the path leads to a file, or the first 511
    slots were in use, or no call reads. -/
theorem fopen_keepsToTag_iff {drive : Drive} {filename modeStr : List (BitVec 8)} {k k₁ : Kernel} {fd : Int}
    (hrun : fopen drive filename modeStr k = .ok (fd, k₁)) (hfd : 0 < fd) (ops : List FileOp) :
    KeepsToTag drive fd (drive.LeadsToDirectory filename) ops k₁ ↔ drive.LeadsToFile filename ∨
      (∀ i, i < 511 → k.fileDescriptors i ≠ none) ∨ ∀ op ∈ ops, ¬ op.Reads := by
  obtain ⟨i, volume, data, rfl, hfirst, hfileAt, hholds⟩ := fopen_holds hrun hfd
  obtain ⟨entry, hentry, hdescribes⟩ := hfileAt.entry
  have hlt : i < 512 := hfirst.lt
  by_cases hlast : i = 511
  · subst hlast
    exact iff_of_true keepsToTag_last (Or.inr (Or.inl hfirst.before))
  have hi : i < 511 := by omega
  have hslot : ¬ ∀ i, i < 511 → k.fileDescriptors i ≠ none := fun hused => hused i hi hfirst.free
  rw [or_iff_right hslot]
  rcases hdescribes.body with ⟨ptr, hbody, hsub⟩ | ⟨copy, hbody, hfile⟩
  · have hnot : ¬ drive.LeadsToFile filename := by
      rintro ⟨entry', hentry', hfile⟩
      cases hentry.symm.trans hentry'
      rw [hsub] at hfile
      cases hfile
    rw [or_iff_right hnot]
    exact hholds.keepsToTag_iff hi hbody
  · have hnot : ¬ drive.LeadsToDirectory filename := by
      rintro ⟨entry', hentry', hsub⟩
      cases hentry.symm.trans hentry'
      rw [hfile] at hsub
      cases hsub
    exact iff_of_true (hholds.keepsToTag hi hbody hnot) (Or.inl ⟨entry, hentry, hfile⟩)

/-! ## Reading from a directory -/

def driveD : Drive where
  disk := treeDisk
  filesystem := some volumeD

/-- The path of the directory on `driveD`. -/
def pathD : List (BitVec 8) := pathText 0x30 [[0x44]] false

theorem driveD_entry : driveD.entry pathD = some itemD := by
  have hnames : fileNames pathD = [[0x44]] := by decide
  have hdisk : driveD.disk = treeDisk := rfl
  have hfs : driveD.filesystem = some volumeD := rfl
  unfold Drive.entry
  rw [hfs, Option.bind_some, hdisk, hnames, resolve, volumeD_lookup, Option.bind_some, resolveFrom]

/-- Opening the directory takes three blocks. -/
theorem driveD_fat16Open {part : PathPart} {n : Nat} (hpart : part.part = [0x44]) :
    Total (fun k => k.heap.TailRoom (n + 3)) (fat16Open treeDisk volumeD [part] .read)
      fun r k => (∃ data, r = .ok data) ∧ k.heap.TailRoom n := by
  have hsearch : Total (fun k => k.heap.TailRoom (n + 2))
      (fat16FindItemInDirectory treeDisk volumeD.fs volumeD.rootDirectory part.part)
      fun r k => (∃ item, r = some item) ∧ k.heap.TailRoom n := by
    have htotal := @fat16FindItemInDirectory_total treeDisk volumeD.fs volumeD.rootDirectory [0x44] n volumeD_searchOk
    rw [volumeD_searchBlocks, volumeD_lookup] at htotal
    rw [hpart]
    refine htotal.consequence (fun _ hk => hk) fun r k hk => ⟨?_, hk.2⟩
    obtain ⟨item, hitem, _⟩ := hk.1
    exact ⟨item, hitem⟩
  have hentry : Total (fun k => k.heap.TailRoom (n + 2)) (fat16GetDirectoryEntry treeDisk volumeD [part])
      fun r k => (∃ item, r = some item) ∧ k.heap.TailRoom n := by
    refine Total.bind hsearch fun r => Total.const fun hr => ?_
    obtain ⟨item, rfl⟩ := hr
    exact Total.pure fun _ hk => ⟨⟨item, rfl⟩, hk⟩
  unfold fat16Open
  rw [if_neg (not_not_intro rfl)]
  refine Total.bind (kzalloc_small (by decide) (by decide)) fun addr => Total.const fun haddr => ?_
  rw [if_neg haddr]
  refine Total.bind (hentry.consequence (fun _ hk => hk.1) fun _ _ hk => hk) fun r => Total.const fun hr => ?_
  obtain ⟨item, rfl⟩ := hr
  exact Total.pure fun _ hk => ⟨⟨_, rfl⟩, hk⟩

theorem driveD_fopen : ∃ k', fopen driveD pathD readMode bootKernel = .ok (1, k') := by
  have hlength : pathD.length ≤ bimbleosMaxPath := by decide
  obtain ⟨r, k₀, hparse, ⟨root, part, rfl, hdrive, hroot, hpart⟩, hroom₀⟩ := @pathparserParse_one 8 [] 0x30 [0x44]
    (by decide) ⟨by decide, by decide⟩ hlength bootKernel (Kernel.room_nil (bootKernel_tailRoom (by decide)))
  obtain ⟨r, k₁, hopen, ⟨data, rfl⟩, hroom₁⟩ := driveD_fat16Open (n := 5) hpart k₀ hroom₀.room
  have hopens : OpensFile driveD pathD readMode bootKernel volumeD data k₁ := by
    have hmode : fileGetModeByString readMode = .read := by decide
    refine ⟨rfl, root, k₀, hparse, ?_, hdrive, ?_⟩
    · rw [hroot]
      exact List.cons_ne_nil _ _
    · rw [hroot, hmode]
      exact hopen
  have hfirst : FirstFree k₁ 0 := by
    refine ⟨by decide, ?_, fun j hj => absurd hj (Nat.not_lt_zero j)⟩
    rw [hopens.table]
    rfl
  obtain ⟨addr, k₂, halloc, hne, _⟩ := @kzalloc_small 4 sizeofFileDescriptor (by decide) (by decide) k₁ hroom₁
  obtain ⟨k', hrun, _⟩ := fopen_of_opens hopens hfirst halloc hne
  exact ⟨k', hrun⟩

/-- One byte is read from the directory. -/
def readByteD : FileOp := .read 0x1005000 1 1

theorem fopen_keepsToTag_iff_directory : ∃ k', fopen driveD pathD readMode bootKernel = .ok (1, k') ∧
    (KeepsToTag driveD 1 (driveD.LeadsToDirectory pathD) [readByteD] k' ↔ driveD.LeadsToFile pathD ∨
      (∀ i, i < 511 → bootKernel.fileDescriptors i ≠ none) ∨ ∀ op ∈ [readByteD], ¬ op.Reads) := by
  obtain ⟨k', hrun⟩ := driveD_fopen
  exact ⟨k', hrun, fopen_keepsToTag_iff hrun (by decide) [readByteD]⟩

/-- A directory is read as if it were a file. -/
theorem fread_reads_directory :
    ¬ ∀ (drive : Drive) (filename modeStr : List (BitVec 8)) (k k₁ : Kernel) (fd : Int) (ops : List FileOp),
      fopen drive filename modeStr k = .ok (fd, k₁) → 0 < fd →
      KeepsToTag drive fd (drive.LeadsToDirectory filename) ops k₁ := by
  intro h
  obtain ⟨k', hrun⟩ := driveD_fopen
  have hkeeps := h driveD pathD readMode bootKernel k' 1 [readByteD] hrun (by decide)
  obtain ⟨i, volume, data, hfd, _, hfileAt, hholds⟩ := fopen_holds hrun (by decide)
  obtain ⟨entry, hentry, hdescribes⟩ := hfileAt.entry
  obtain rfl : i = 0 := by omega
  rw [driveD_entry] at hentry
  rcases hdescribes.body with ⟨ptr, hbody, _⟩ | ⟨copy, _, hfile⟩
  · have hreads : readByteD.Reads := ⟨by decide, by decide⟩
    exact hkeeps.1 (hholds.call_wrong (by decide) hbody hreads)
  · cases hentry
    exact absurd hfile (by decide)

end BimbleOS
