import BimbleOS.Lib.Writes
import BimbleOS.Isr80h.CopyString

/-!
# `Isr80h.KernelPath` — the path of a program that a task starts

System call 6 copies the file name from the task into an array of `BIMBLEOS_MAX_PATH` bytes and from there, behind
`"0:/"`, into the array `path` of the same size. System call 7 copies the name from the argument list, with the size
of the whole array as its limit. Both go beyond the end of `path` where the name has more than 104 characters.
-/

namespace BimbleOS

open Bytes CWord Exec

/-! ## Building the path -/

/-- `strcpy(path, "0:/")`. -/
def drivePath (m : Mem) (path : Nat) : Writes := Writes.storeString { memory := m } path commandDrive

/-- `strcpy(path+3, filename)` of system call 6. -/
def loadStartPath (m : Mem) (path filename : Nat) : Option Writes := (drivePath m path).strcpy (path + 3) filename

/-- `strncpy(path+3, program_name, sizeof(path))` of system call 7. -/
def systemCommandPath (m : Mem) (path programName : Nat) : Writes :=
  (drivePath m path).strncpy (path + 3) programName bimbleosMaxPath

/-- `isr80h_command6_process_load_start` up to the path. `filename` and `path` are its arrays on the stack. -/
def isr80hCommand6Path (filename path : Nat) : KM (Option Writes) := do
  let k ← get
  let filenameUserPtr ← taskGetStackItem k.tasks.currentTask 0
  let res ← copyStringFromTask k.tasks.currentTask filenameUserPtr filename bimbleosMaxPath
  if res < 0 then return none
  else
    let k ← get
    match loadStartPath k.memory path filename with
    | none => throw .outOfBounds
    | some w => return some w

/-- Every write is inside the array `path`. -/
def InsidePath (path : Nat) (w : Writes) : Prop := ∀ a ∈ w.written, path ≤ a ∧ a < path + bimbleosMaxPath

instance (path : Nat) (w : Writes) : Decidable (InsidePath path w) :=
  inferInstanceAs (Decidable (∀ a ∈ w.written, path ≤ a ∧ a < path + bimbleosMaxPath))

/-- `isr80h_command6_process_load_start`. -/
def isr80hCommand6ProcessLoadStart (drive : Drive) (filename path : Nat) : KM CallEnd := do
  match ← isr80hCommand6Path filename path with
  | none => return .returned 0
  | some w =>
      if InsidePath path w then
        modify fun k => { k with memory := w.memory }
        let (res, process) ← processLoadSwitch drive (stringAt w.memory path bimbleosMaxPath)
        if res < 0 then return .returned 0
        else
          let k ← get
          taskSwitch (k.process process).task
          return .entered (k.process process).task
      else throw .outOfBounds

/-! ## Where the copies write -/

/-- The path is built inside its array, and is `"0:/"` with the name or the beginning of it. -/
structure PathBuilt (path : Nat) (name : List (BitVec 8)) (w : Writes) : Prop where
  inside : InsidePath path w
  holds : ∃ start, start <+: name ∧ HoldsString w.memory path (commandDrive ++ start)

section Build

variable {m m' : Mem} {w : Writes} {path src n : Nat} {name : List (BitVec 8)}

theorem drivePath_copied : Writes.Copied { memory := m } (drivePath m path) path commandDrive :=
  Writes.storeString_copied (by decide)

/-- A copy to `path + 3` behind the drive: all its writes, and the string in the array. -/
theorem behindDrive (h : Writes.Copied (drivePath m path) w (path + 3) name) :
    w.written = List.range' path 4 ++ List.range' (path + 3) (name.length + 1) ∧
      HoldsString w.memory path (commandDrive ++ name) := by
  have hdrive := @drivePath_copied m path
  constructor
  · rw [h.written, hdrive.written]
    rfl
  · obtain ⟨h₀, hne₀, h₁, hne₁, h₂, hne₂, _⟩ := hdrive.holds
    refine ⟨?_, hne₀, ?_, hne₁, ?_, hne₂, h.holds⟩
    · rw [h.outside path (by omega), h₀]
    · rw [h.outside (path + 1) (by omega), h₁]
    · rw [h.outside (path + 1 + 1) (by omega), h₂]

/-- The last write is the zero behind the name. -/
theorem inside_iff (h : w.written = List.range' path 4 ++ List.range' (path + 3) (name.length + 1)) :
    InsidePath path w ↔ name.length ≤ 104 := by
  have hmax : bimbleosMaxPath = 108 := rfl
  unfold InsidePath
  rw [h]
  constructor
  · intro hall
    have hlast := hall (path + 3 + name.length) (List.mem_append_right _ (List.mem_range'_1.mpr (by omega)))
    omega
  · intro hlen a ha
    rcases List.mem_append.mp ha with ha | ha
    · have hrange := List.mem_range'_1.mp ha
      omega
    · have hrange := List.mem_range'_1.mp ha
      omega

/-- What was cut off does not matter: either way more than 104 characters are copied, or all of them. -/
theorem stringAt_short_iff (hn : 107 ≤ n) : (stringAt m src 107).length ≤ 104 ↔ (stringAt m src n).length ≤ 104 := by
  constructor
  · intro hshort
    rwa [stringAt_of_short (by omega) hn]
  · intro hshort
    exact Nat.le_trans (stringAt_start hn).length_le hshort

/-- A path that was copied is built as it should be exactly for a short name. -/
theorem pathBuilt_iff (hn : 107 ≤ n) (h : Writes.Copied (drivePath m' path) w (path + 3) (stringAt m src 107)) :
    PathBuilt path (stringAt m src n) w ↔ (stringAt m src n).length ≤ 104 := by
  obtain ⟨hwritten, hholds⟩ := behindDrive h
  rw [← stringAt_short_iff hn]
  constructor
  · intro hbuilt
    exact (inside_iff hwritten).mp hbuilt.inside
  · intro hshort
    exact ⟨(inside_iff hwritten).mpr hshort, _, stringAt_start hn, hholds⟩

end Build

/-! ## The two system calls -/

/-- Two arrays on the stack, or one and a string, do not overlap. -/
def Apart (a b : Nat) : Prop := a + bimbleosMaxPath ≤ b ∨ b + bimbleosMaxPath ≤ a

/-- The condition under which system call 6 reads its file name: the pointer is on the stack of the task, the block
    for the copy can be allocated, the kernel goes on running with the directory of the task loaded, and the string can
    be read and does not lie on that block's page. -/
structure ReadsFilename (ds : Nat → Prop) (k : Kernel) (virt filename : Nat) : Prop where
  item : taskGetStackItem k.tasks.currentTask 0 k = .ok (virt, k)
  view : OwnDirectory ds k k.tasks.currentTask
  runs : k.RunsWith k.tasks.currentTask
  ready : k.heap.Ready
  answered : (heapMalloc k.heap bimbleosMaxPath).1 ≠ 0
  source : SourceApart k k.tasks.currentTask virt (bimbleosMaxPath - 1) (heapMalloc k.heap bimbleosMaxPath).1
  filename : Apart filename (heapMalloc k.heap bimbleosMaxPath).1

section Calls

variable {ds : Nat → Prop} {k : Kernel} {m : Mem} {virt filename path programName n : Nat} {name : List (BitVec 8)}

/-- Reading the name is always ahead of writing the path, also where the path overruns its array. -/
theorem Apart.ahead (h : Apart path programName) : ∀ j j', j' < j → j ≤ 107 → programName + j ≠ path + 3 + j' := by
  have hmax : bimbleosMaxPath = 108 := rfl
  unfold Apart at h
  intro j j' hj hlen
  omega

theorem loadStartPath_copied (h : Apart path filename) (hs : HoldsString m filename name) (hlen : name.length ≤ 107)
    (hend : filename + 108 ≤ 4294967296) :
    ∃ w, loadStartPath m path filename = some w ∧ Writes.Copied (drivePath m path) w (path + 3) name := by
  have hmax : bimbleosMaxPath = 108 := rfl
  have hdrive := @drivePath_copied m path
  have hlength : commandDrive.length = 3 := rfl
  have hkept : HoldsString (drivePath m path).memory filename name := by
    apply hs.congr_within
    intro b hlo hhi
    apply hdrive.outside
    unfold Apart at h
    omega
  exact Writes.strcpyLoop_copied hkept (by omega) fun j j' hj hle => h.ahead j j' hj (by omega)

theorem systemCommandPath_copied (h : Apart path programName) :
    Writes.Copied (drivePath m path) (systemCommandPath m path programName) (path + 3)
      (stringAt m programName 107) := by
  have hmax : bimbleosMaxPath = 108 := rfl
  have hdrive := @drivePath_copied m path
  have hlength : commandDrive.length = 3 := rfl
  have hcopied := @Writes.strncpy_copied (drivePath m path) (path + 3) programName bimbleosMaxPath
    fun j j' hj hlt => h.ahead j j' hj (by omega)
  have hsame : stringAt (drivePath m path).memory programName (bimbleosMaxPath - 1) = stringAt m programName 107 := by
    apply stringAt_congr
    intro j hj
    apply hdrive.outside
    unfold Apart at h
    omega
  rwa [hsame] at hcopied

/-- System call 6 gets as far as the path. -/
theorem isr80hCommand6Path_copied (hreads : ReadsFilename ds k virt filename) (hpath : Apart path filename)
    (hend : filename + bimbleosMaxPath ≤ 4294967296) :
    ∃ w k', isr80hCommand6Path filename path k = .ok (some w, k') ∧
      Writes.Copied (drivePath k'.memory path) w (path + 3) (stringAt (k.taskMemory k.tasks.currentTask) virt 107) := by
  obtain ⟨k', hcopy, hholds, _⟩ := @copyStringFromTask_copies ds k k.tasks.currentTask virt filename bimbleosMaxPath _
    hreads.view hreads.runs hreads.ready (by decide) (by decide) rfl hreads.answered hreads.source hreads.filename
  obtain ⟨w, hw, hcopied⟩ := loadStartPath_copied hpath hholds length_stringAt hend
  refine ⟨w, k', ?_, hcopied⟩
  unfold isr80hCommand6Path
  rw [get_bind, bind_of_ok hreads.item, bind_of_ok hcopy, if_neg (by decide), get_bind, hw]
  rfl

/-- A longer name takes system call 6 out of bounds. -/
theorem isr80hCommand6_overruns {drive : Drive} (hreads : ReadsFilename ds k virt filename)
    (hpath : Apart path filename) (hend : filename + bimbleosMaxPath ≤ 4294967296)
    (hlong : 104 < (stringAt (k.taskMemory k.tasks.currentTask) virt 107).length) :
    isr80hCommand6ProcessLoadStart drive filename path k = .error .outOfBounds := by
  obtain ⟨w, k', hrun, hcopied⟩ := isr80hCommand6Path_copied hreads hpath hend
  have hout : ¬ InsidePath path w := by
    rw [inside_iff (behindDrive hcopied).1]
    omega
  unfold isr80hCommand6ProcessLoadStart
  rw [bind_of_ok hrun]
  dsimp only
  rw [if_neg hout]
  rfl

/-- **The two paths.** Whatever the name, of which `n` characters are looked at, system call 6 and system call 7 build
    the path inside its array, with the name or the beginning of it, exactly if the name has at most 104 characters. -/
theorem kernelPath_built_iff (hn : 107 ≤ n) :
    (∀ (ds : Nat → Prop) (k : Kernel) (virt filename path : Nat), ReadsFilename ds k virt filename →
      Apart path filename → filename + bimbleosMaxPath ≤ 4294967296 →
      ∃ w k', isr80hCommand6Path filename path k = .ok (some w, k') ∧
        (PathBuilt path (stringAt (k.taskMemory k.tasks.currentTask) virt n) w ↔
          (stringAt (k.taskMemory k.tasks.currentTask) virt n).length ≤ 104)) ∧
    ∀ (m : Mem) (path programName : Nat), Apart path programName →
      (PathBuilt path (stringAt m programName n) (systemCommandPath m path programName) ↔
        (stringAt m programName n).length ≤ 104) := by
  constructor
  · intro ds k virt filename path hreads hpath hend
    obtain ⟨w, k', hrun, hcopied⟩ := isr80hCommand6Path_copied hreads hpath hend
    exact ⟨w, k', hrun, pathBuilt_iff hn hcopied⟩
  · intro m path programName hapart
    exact pathBuilt_iff hn (systemCommandPath_copied hapart)

end Calls

/-- An item of a stack that the task has mapped. -/
theorem taskGetStackItem_of {k : Kernel} {task index sp : Nat}
    (hsp : (k.tasks.task task).registers.esp.toNat + 4 * index = sp) (htask : task ≠ 0) (hlt : sp + 4 ≤ 4294967296)
    (hpresent : ∀ i, i < 4 → k.pages.isPresent (k.taskDirectory task) (sp + i) = true) :
    taskGetStackItem task index k = .ok ((load32 (k.taskMemory task) sp).toNat, k) := by
  subst hsp
  unfold taskGetStackItem
  rw [bind_of_ok (deref_of_ne htask), get_bind, if_neg (Nat.not_lt.mpr hlt), if_pos]
  · rfl
  · rw [List.all_eq_true]
    intro i hi
    exact hpresent i (List.mem_range.mp hi)

/-- The name that the running task of `letterKernel` passes to system call 6. -/
theorem letterKernel_readsFilename : ReadsFilename twoKernel.IsDirectory letterKernel 0x400000 0x300000 where
  item := by
    have hpage : ∀ i, i < 4 → letterKernel.Accessible (heapAt 2068) i ∧
        letterKernel.taskAddress (heapAt 2068) i = i := by
      intro i hi
      have hpage := @letterKernel_page 0 0 i 5#32 ⟨by decide, by decide⟩ (by omega) rfl ⟨by decide, by decide⟩
        (by decide) (by decide)
      rwa [show 0 + i % 4096 = i by omega] at hpage
    have hbyte : ∀ i, i < 4 → letterKernel.taskMemory (heapAt 2068) i = letterKernel.memory i := by
      intro i hi
      show letterKernel.memory (letterKernel.taskAddress (heapAt 2068) i) = _
      rw [(hpage i hi).2]
    have hload : load32 (letterKernel.taskMemory (heapAt 2068)) 0 = 0x400000#32 := by
      unfold load32
      rw [hbyte _ (by decide), hbyte _ (by decide), hbyte _ (by decide), hbyte _ (by decide)]
      decide
    have hitem := @taskGetStackItem_of letterKernel (heapAt 2068) 0 0 rfl (by decide) (by decide) (by
      intro i hi
      rw [Nat.zero_add]
      exact (hpage i hi).1.present)
    rw [hload] at hitem
    exact hitem
  view := letterKernel_view
  runs := letterKernel_runsWith
  ready := ⟨rfl, by decide⟩
  answered := by
    rw [letterKernel_malloc (by decide) (by decide)]
    decide
  source := by
    rw [letterKernel_malloc (by decide) (by decide)]
    exact letterKernel_source (by decide)
  filename := by
    rw [letterKernel_malloc (by decide) (by decide)]
    exact Or.inl (by decide)

theorem kernelPath_built_iff_letter : (∃ w k', isr80hCommand6Path 0x300000 0x301000 letterKernel = .ok (some w, k') ∧
      (PathBuilt 0x301000 (stringAt (letterKernel.taskMemory (heapAt 2068)) 0x400000 511) w ↔
        (stringAt (letterKernel.taskMemory (heapAt 2068)) 0x400000 511).length ≤ 104)) ∧
    (PathBuilt 0x301000 (stringAt letterKernel.memory (heapAt 0) 511)
        (systemCommandPath letterKernel.memory 0x301000 (heapAt 0)) ↔
      (stringAt letterKernel.memory (heapAt 0) 511).length ≤ 104) :=
  ⟨(kernelPath_built_iff (by decide)).1 _ letterKernel 0x400000 0x300000 0x301000 letterKernel_readsFilename
      (Or.inr (by decide)) (by decide),
    (kernelPath_built_iff (by decide)).2 letterKernel.memory 0x301000 (heapAt 0) (Or.inl (by decide))⟩

/-- A name of 105 characters. -/
theorem systemCommandPath_overruns : ¬ ∀ (m : Mem) (path programName : Nat), Apart path programName →
    PathBuilt path (stringAt m programName 511) (systemCommandPath m path programName) := by
  intro h
  have hbuilt := h (fill (fun _ => 0) 0x500000 105 0x41) 0x300000 0x500000 (Or.inl (by decide))
  have hcopied := @systemCommandPath_copied (fill (fun _ => 0) 0x500000 105 0x41) 0x300000 0x500000
    (Or.inl (by decide))
  have hlen := (inside_iff (behindDrive hcopied).1).mp hbuilt.inside
  exact absurd hlen (by decide +kernel)

section Calls

variable {k : Kernel} {path programName : Nat}

/-- What `commandPath` says of the copy in system call 7: the name is out of bounds exactly if the copy writes
    outside the array. -/
theorem commandPath_eq (h : Apart path programName) : commandPath programName k
    = if InsidePath path (systemCommandPath k.memory path programName) then
        .ok (commandDrive ++ stringAt k.memory programName 107, k)
      else .error .outOfBounds := by
  have hmax : bimbleosMaxPath = 108 := rfl
  have hlength : commandDrive.length = 3 := rfl
  have hiff := inside_iff (behindDrive (@systemCommandPath_copied k.memory path programName h)).1
  unfold commandPath
  rw [get_bind]
  show (if bimbleosMaxPath ≤ commandDrive.length + (stringAt k.memory programName 107).length then _ else _ : KM _) k
    = _
  by_cases hlong : bimbleosMaxPath ≤ commandDrive.length + (stringAt k.memory programName 107).length
  · rw [if_pos hlong, if_neg]
    · rfl
    · rw [hiff]
      omega
  · rw [if_neg hlong, if_pos]
    · rfl
    · rw [hiff]
      omega

end Calls

end BimbleOS
