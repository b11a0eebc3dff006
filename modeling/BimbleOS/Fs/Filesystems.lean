import BimbleOS.Fs.Resolve

/-!
# `Fs.Filesystems` — `filesystems[]` and `disk_search_and_init`

The file systems of the kernel are in a table of twelve slots. A disk is shown to them one after the other; each
`resolve` may write to the structure of the disk, also one that returns an error. Registering a file system takes the
first empty slot, so that the order of the slots is that of the registrations (`fsResolve_asks`).
-/

namespace BimbleOS

open Exec

def bimbleosMaxFilesystems : Nat := 12

/-- `filesystems[]`. -/
abbrev FilesystemTable := Nat → FilesystemPtr

/-- `fs_get_free_filesystem`: the index of the first empty slot. -/
def fsGetFreeFilesystem (filesystems : FilesystemTable) : Option Nat :=
  (List.range bimbleosMaxFilesystems).find? fun i => decide (filesystems i = .null)

/-- `fs_insert_filesystem`; without an empty slot the kernel halts. -/
def fsInsertFilesystem (filesystem : FilesystemPtr) (filesystems : FilesystemTable) : Except Fault FilesystemTable :=
  match fsGetFreeFilesystem filesystems with
  | none => .error .panic
  | some i => .ok (Function.update filesystems i filesystem)

/-- `fs_load`: the table is cleared, and `fs_static_load` registers FAT16. -/
def fsLoad : Except Fault FilesystemTable := fsInsertFilesystem .fat16Fs fun _ => .null

/-- What `filesystem->resolve(disk)` does. -/
abbrev FsResolve := FilesystemPtr → DiskStruct → KM (Int × DiskStruct)

/-- The loop of `fs_resolve` from slot `i` on, `left` slots to go. -/
def fsResolveLoop (resolve : FsResolve) (filesystems : FilesystemTable) : Nat → Nat → DiskStruct →
    KM (FilesystemPtr × DiskStruct)
  | 0, _, device => return (.null, device)
  | left + 1, i, device =>
      if filesystems i = .null then fsResolveLoop resolve filesystems left (i + 1) device
      else do
        let (res, device) ← resolve (filesystems i) device
        if res = 0 then return (filesystems i, device)
        else fsResolveLoop resolve filesystems left (i + 1) device

/-- `fs_resolve`. -/
def fsResolve (resolve : FsResolve) (filesystems : FilesystemTable) (device : DiskStruct) :
    KM (FilesystemPtr × DiskStruct) :=
  fsResolveLoop resolve filesystems bimbleosMaxFilesystems 0 device

/-- The `resolve` of the file systems of this kernel. -/
def kernelResolve (disk : Disk) : FsResolve
  | .fat16Fs, device => fat16Resolve disk device
  | .null, _ => throw .nullPointer
  | .other _, _ => throw .undefined

/-- `disk_search_and_init`: the structure of the disk. -/
def diskSearchAndInit (disk : Disk) (filesystems : FilesystemTable) : KM DiskStruct := do
  let (filesystem, device) ← fsResolve (kernelResolve disk) filesystems bootDevice
  return { device with filesystem := filesystem }

/-! ## The order of the slots -/

/-- A series of registrations. -/
def fsInsertAll (fss : List FilesystemPtr) (filesystems : FilesystemTable) : Except Fault FilesystemTable :=
  fss.foldlM (fun filesystems filesystem => fsInsertFilesystem filesystem filesystems) filesystems

/-- The file systems of a list are asked in turn until one of them takes the disk, each with the structure that the
    ones before it have left. -/
def askInTurn (resolve : FsResolve) : List FilesystemPtr → DiskStruct → KM (FilesystemPtr × DiskStruct)
  | [], device => return (.null, device)
  | filesystem :: fss, device => do
      let (res, device) ← resolve filesystem device
      if res = 0 then return (filesystem, device) else askInTurn resolve fss device

/-- The table with the file systems of a list in its first slots. -/
def tableOf (fss : List FilesystemPtr) : FilesystemTable := fun i => fss.getD i .null

section Order

variable {resolve : FsResolve} {fss done : List FilesystemPtr} {filesystem : FilesystemPtr} {device : DiskStruct}
  {i : Nat}

theorem tableOf_of_lt (hi : i < fss.length) : tableOf fss i = fss[i] := by
  unfold tableOf
  rw [List.getD_eq_getElem?_getD, List.getElem?_eq_getElem hi, Option.getD_some]

theorem tableOf_of_le (hi : fss.length ≤ i) : tableOf fss i = .null := by
  unfold tableOf
  rw [List.getD_eq_getElem?_getD, List.getElem?_eq_none hi, Option.getD_none]

/-- The slots of a list that holds no null pointer are in use. -/
theorem tableOf_ne_null (hfss : .null ∉ fss) (hi : i < fss.length) : tableOf fss i ≠ .null := by
  rw [tableOf_of_lt hi]
  exact fun hnull => hfss (hnull ▸ List.getElem_mem hi)

theorem tableOf_concat : tableOf (done ++ [filesystem]) = Function.update (tableOf done) done.length filesystem := by
  funext i
  rcases Nat.lt_trichotomy i done.length with hlt | rfl | hgt
  · rw [Function.update_of_ne (Nat.ne_of_lt hlt), tableOf_of_lt hlt, tableOf_of_lt (by rw [List.length_append]; omega),
      List.getElem_append_left hlt]
  · rw [Function.update_self, tableOf_of_lt (by simp), List.getElem_concat_length rfl]
  · rw [Function.update_of_ne (Nat.ne_of_gt hgt), tableOf_of_le (Nat.le_of_lt hgt),
      tableOf_of_le (by rw [List.length_append, List.length_singleton]; omega)]

/-- The next file system is put behind the others. -/
theorem fsInsertFilesystem_next (hdone : .null ∉ done) (hroom : done.length < 12) :
    fsInsertFilesystem filesystem (tableOf done) = .ok (tableOf (done ++ [filesystem])) := by
  have hfree : fsGetFreeFilesystem (tableOf done) = some done.length := by
    refine List.find?_range_eq_some.mpr ⟨?_, List.mem_range.mpr hroom, fun i hi => ?_⟩
    · exact decide_eq_true (tableOf_of_le (Nat.le_refl _))
    · simp [tableOf_ne_null hdone hi]
  unfold fsInsertFilesystem
  rw [hfree, tableOf_concat]

theorem fsInsertFilesystem_full (hdone : .null ∉ done) (hfull : done.length = 12) :
    fsInsertFilesystem filesystem (tableOf done) = .error .panic := by
  have hnone : fsGetFreeFilesystem (tableOf done) = none := by
    refine List.find?_eq_none.mpr fun i hi => ?_
    have hlt : i < done.length := hfull ▸ List.mem_range.mp hi
    simp [tableOf_ne_null hdone hlt]
  unfold fsInsertFilesystem
  rw [hnone]

/-- The induction is on the registrations that are left, behind those that were made. -/
theorem fsInsertAll_run (hdone : .null ∉ done) (hlen : done.length ≤ 12) (hfss : .null ∉ fss) :
    fsInsertAll fss (tableOf done) = if done.length + fss.length ≤ 12 then .ok (tableOf (done ++ fss))
      else .error .panic := by
  induction fss generalizing done with
  | nil =>
      rw [List.length_nil, Nat.add_zero, if_pos hlen, List.append_nil]
      rfl
  | cons filesystem fss ih =>
      have hstep : fsInsertAll (filesystem :: fss) (tableOf done)
          = (fsInsertFilesystem filesystem (tableOf done)).bind (fsInsertAll fss) := rfl
      have hrest : .null ∉ fss := fun hmem => hfss (List.mem_cons_of_mem _ hmem)
      rw [hstep, List.length_cons]
      by_cases hroom : done.length < 12
      · have hmore : .null ∉ done ++ [filesystem] := by
          intro hmem
          rcases List.mem_append.mp hmem with hmem | hmem
          · exact hdone hmem
          · exact hfss (List.mem_singleton.mp hmem ▸ List.mem_cons_self)
        have hnext := ih hmore (by rw [List.length_append, List.length_singleton]; omega) hrest
        rw [List.length_append, List.length_singleton, List.append_assoc] at hnext
        rw [fsInsertFilesystem_next hdone hroom]
        refine hnext.trans ?_
        rw [show done.length + 1 + fss.length = done.length + (fss.length + 1) by omega]
        rfl
      · rw [fsInsertFilesystem_full hdone (by omega), if_neg (by omega)]
        rfl

/-- The slots behind the last file system are passed over. -/
theorem fsResolveLoop_empty {left : Nat} (hi : fss.length ≤ i) :
    fsResolveLoop resolve (tableOf fss) left i device = pure (.null, device) := by
  induction left generalizing i with
  | zero => rfl
  | succ left ih =>
      rw [fsResolveLoop, if_pos (tableOf_of_le hi)]
      exact ih (Nat.le_succ_of_le hi)

/-- The loop asks the file systems from slot `i` on. The induction is on the slots that are left. -/
theorem fsResolveLoop_asks {left : Nat} (hfss : .null ∉ fss) (hlen : fss.length ≤ i + left) :
    fsResolveLoop resolve (tableOf fss) left i device = askInTurn resolve (fss.drop i) device := by
  induction left generalizing i device with
  | zero =>
      rw [List.drop_eq_nil_of_le (Nat.add_zero i ▸ hlen)]
      rfl
  | succ left ih =>
      by_cases hi : i < fss.length
      · rw [fsResolveLoop, if_neg (tableOf_ne_null hfss hi), tableOf_of_lt hi, List.drop_eq_getElem_cons hi, askInTurn]
        refine congrArg _ (funext fun r => ?_)
        obtain ⟨res, device'⟩ := r
        dsimp only
        rw [@ih device' (i + 1) (by omega)]
      · rw [fsResolveLoop_empty (by omega), List.drop_eq_nil_of_le (by omega), askInTurn]

end Order

/-- **Which file system a disk gets.** Any series of registrations goes through exactly when there are twelve of them at
    most; one more halts the kernel. Then a disk is shown to the file systems in the order of their registration, each
    of which finds what those before it have left in the structure of the disk, and gets the first that takes it. -/
theorem fsResolve_asks (resolve : FsResolve) (fss : List FilesystemPtr) (device : DiskStruct) (hfss : .null ∉ fss) :
    (fss.length ≤ 12 → ∃ filesystems, fsInsertAll fss (fun _ => .null) = .ok filesystems ∧
      fsResolve resolve filesystems device = askInTurn resolve fss device) ∧
    (12 < fss.length → fsInsertAll fss (fun _ => .null) = .error .panic) := by
  have hrun := @fsInsertAll_run fss [] List.not_mem_nil (Nat.zero_le 12) hfss
  rw [List.length_nil, Nat.zero_add, List.nil_append] at hrun
  have hempty : tableOf [] = fun _ => .null := rfl
  rw [hempty] at hrun
  refine ⟨fun hlen => ⟨tableOf fss, ?_, ?_⟩, fun hlen => ?_⟩
  · rw [hrun, if_pos hlen]
  · have hasks := @fsResolveLoop_asks resolve fss device 0 12 hfss (by omega)
    rw [List.drop_zero] at hasks
    exact hasks
  · rw [hrun, if_neg (by omega)]

/-- Another file system, which takes every disk. -/
def resolveAny (disk : Disk) : FsResolve
  | .other _, device => return (0, device)
  | filesystem, device => kernelResolve disk filesystem device

/-- An empty disk, which FAT16 refuses and the file system behind it takes. -/
theorem fsResolve_asks_fat16 : ∃ filesystems, fsInsertAll [.fat16Fs, .other 1] (fun _ => .null) = .ok filesystems ∧
    fsResolve (resolveAny emptyDisk) filesystems bootDevice
      = askInTurn (resolveAny emptyDisk) [.fat16Fs, .other 1] bootDevice ∧
    ∃ device k, fsResolve (resolveAny emptyDisk) filesystems bootDevice bootKernel = .ok ((.other 1, device), k) := by
  obtain ⟨filesystems, hinsert, hasks⟩ :=
    (fsResolve_asks (resolveAny emptyDisk) [.fat16Fs, .other 1] bootDevice (by decide)).1 (by decide)
  obtain ⟨device, k, hrefused⟩ := emptyDisk_refused
  have hne : -EFSNOTUS ≠ 0 := by decide
  refine ⟨filesystems, hinsert, hasks, device, k, ?_⟩
  rw [hasks]
  refine (bind_of_ok hrefused).trans ?_
  show (if -EFSNOTUS = 0 then _ else _ : KM _) k = _
  rw [if_neg hne]
  rfl

end BimbleOS
