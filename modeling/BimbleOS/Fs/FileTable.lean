import BimbleOS.Fs.FileHeap
import BimbleOS.Fs.FileReads
import BimbleOS.Lib.Trace

/-!
# `Fs.FileTable` — the table of open files over whole runs

`file_new_descriptor` issues the numbers 1 to 512, one for each slot, but `file_get_descriptor` refuses 512. In every
run the open descriptors are the slots in use (`FilesInv.step`), and a descriptor up to 511 is served from its slot
(`HoldsFile.serves`).
-/

namespace BimbleOS

open CWord Exec Transition

/-- A kernel, and the descriptors that are open in it with the file that `fopen` opened for each. -/
structure FilesWorld where
  kernel : Kernel
  opened : List (Int × FatFileDescriptor) := []

/-- The numbers of the open descriptors. -/
def FilesWorld.numbers (w : FilesWorld) : List Int := w.opened.map Prod.fst

inductive FilesEvent where
  | fopen (filename modeStr : List (BitVec 8)) (fd : Int)
  | fclose (fd res : Int)
  | fseek (fd offset : Int) (whence : SeekMode) (res : Int)
  | other

/-- A call that returned, or something that leaves the table of open files alone. -/
inductive FilesStep (drive : Drive) : FilesWorld → FilesEvent → FilesWorld → Prop where
  | opens {w : FilesWorld} {filename modeStr : List (BitVec 8)} {fd : Int} {volume : FatVolume}
      {data : FatFileDescriptor} {k₁ k' : Kernel} :
      fopen drive filename modeStr w.kernel = .ok (fd, k') → 0 < fd →
      OpensFile drive filename modeStr w.kernel volume data k₁ →
      FilesStep drive w (.fopen filename modeStr fd) ⟨k', (fd, data) :: w.opened⟩
  | fails {w : FilesWorld} {filename modeStr : List (BitVec 8)} {fd : Int} {k' : Kernel} :
      fopen drive filename modeStr w.kernel = .ok (fd, k') → ¬ 0 < fd →
      FilesStep drive w (.fopen filename modeStr fd) ⟨k', w.opened⟩
  | fclose {w : FilesWorld} {fd res : Int} {k' : Kernel} :
      fclose fd w.kernel = .ok (res, k') →
      FilesStep drive w (.fclose fd res)
        ⟨k', if res = 0 then w.opened.filter (fun q => q.1 ≠ fd) else w.opened⟩
  | fseek {w : FilesWorld} {fd offset res : Int} {whence : SeekMode} {k' : Kernel} :
      fseek fd offset whence w.kernel = .ok (res, k') →
      FilesStep drive w (.fseek fd offset whence res) ⟨k', w.opened⟩
  | other {w : FilesWorld} {k' : Kernel} : k'.fileDescriptors = w.kernel.fileDescriptors →
      FilesStep drive w .other ⟨k', w.opened⟩

/-- The calls on `fd` act on the file `data`; its descriptor is at `addr`. -/
structure ServedBy (drive : Drive) (k : Kernel) (fd : Int) (volume : FatVolume) (data : FatFileDescriptor)
    (addr : Nat) : Prop where
  stat : fstat fd k = fat16Stat data k
  seek : ∀ offset whence, fseek fd offset whence k = (do
    let r ← fat16Seek data (u32 offset) whence
    setDescriptor (fd - 1).toNat (some (openedDescriptor (fd - 1).toNat addr volume r.2))
    return r.1 : KM Int) k
  read : ∀ ptr size nmemb, size ≠ 0 → nmemb ≠ 0 →
    fread drive ptr size nmemb fd k = fat16Read drive.disk volume data size nmemb ptr k
  close : fclose fd k = (do
    let res ← fat16Close data
    if res = bimbleosAllOk then
      setDescriptor (fd - 1).toNat none
      kfree addr
      return res
    else return res : KM Int) k

/-- The calls on `fd` act on the file that was opened as `file`, at some position of it. -/
def Serves (drive : Drive) (k : Kernel) (fd : Int) (file : FatFileDescriptor) : Prop :=
  ∃ volume addr pos, drive.filesystem = some volume ∧
    ServedBy drive k fd volume { file with pos := pos } addr

/-- Slot `i` holds the descriptor of `file`. -/
def HoldsFile (drive : Drive) (k : Kernel) (i : Nat) (file : FatFileDescriptor) : Prop :=
  ∃ volume addr pos, drive.filesystem = some volume ∧
    k.fileDescriptors i = some (openedDescriptor i addr volume { file with pos := pos })

/-- **The table invariant**: the open descriptors are the slots in use. -/
structure FilesInv (drive : Drive) (w : FilesWorld) : Prop where
  distinct : w.numbers.Nodup
  holds : ∀ q ∈ w.opened, ∃ i, i < 512 ∧ q.1 = ((i + 1 : Nat) : Int) ∧ HoldsFile drive w.kernel i q.2
  empty : ∀ i, i < 512 → ((i + 1 : Nat) : Int) ∉ w.numbers → w.kernel.fileDescriptors i = none

section Table

variable {drive : Drive} {k k' : Kernel} {fd : Int} {i : Nat} {file : FatFileDescriptor} {w w' : FilesWorld}
  {e : FilesEvent}

/-- A descriptor up to 511 is found in its slot. -/
theorem fileGetDescriptor_slot {desc : FileDescriptor} (hi : i < 511) (hslot : k.fileDescriptors i = some desc) :
    fileGetDescriptor ((i + 1 : Nat) : Int) k = .ok (some desc, k) := by
  have hin : ¬ (((i + 1 : Nat) : Int) ≤ 0 ∨ (bimbleosMaxFileDescriptors : Int) ≤ ((i + 1 : Nat) : Int)) := by
    unfold bimbleosMaxFileDescriptors
    omega
  have hindex : (((i + 1 : Nat) : Int) - 1).toNat = i := by omega
  rw [fileGetDescriptor_eq, if_neg hin, hindex, hslot]

/-- So it is served from there. -/
theorem HoldsFile.serves (h : HoldsFile drive k i file) (hi : i < 511) :
    Serves drive k ((i + 1 : Nat) : Int) file := by
  obtain ⟨volume, addr, pos, hfs, hslot⟩ := h
  have hget := fileGetDescriptor_slot hi hslot
  have hindex : (((i + 1 : Nat) : Int) - 1).toNat = i := by omega
  refine ⟨volume, addr, pos, hfs, ?_, fun offset whence => ?_, fun ptr size nmemb hsize hnmemb => ?_, ?_⟩
  · unfold fstat
    rw [bind_of_ok hget]
    rfl
  · unfold fseek
    rw [bind_of_ok hget, hindex]
    rfl
  · have hargs : ¬ (size = 0 ∨ nmemb = 0 ∨ ((i + 1 : Nat) : Int) < 1) := by omega
    unfold fread
    rw [if_neg hargs, bind_of_ok hget]
    rfl
  · unfold fclose
    rw [bind_of_ok hget, hindex]
    rfl

/-- Descriptor 512 is unknown. -/
theorem not_serves_last : ¬ Serves drive k 512 file := by
  rintro ⟨volume, addr, pos, _, hserved⟩
  have hunknown : fstat 512 k = .ok ((- EIO, {}), k) := rfl
  have hstat := hserved.stat.symm.trans hunknown
  unfold fat16Stat at hstat
  cases hbody : file.item.body with
  | directory ptr =>
      simp only [hbody] at hstat
      cases hstat
  | file copy item =>
      simp only [hbody] at hstat
      obtain ⟨_, k₁, _, hstat⟩ := bind_eq_ok.mp hstat
      cases hstat

/-! ## What the calls do to the table -/

/-- A descriptor that is looked up: it is unknown, or one of the first 511 slots holds it. -/
theorem fileGetDescriptor_cases (fd : Int) (k : Kernel) : fileGetDescriptor fd k = .ok (none, k) ∨
    ∃ i desc, i < 511 ∧ fd = ((i + 1 : Nat) : Int) ∧ k.fileDescriptors i = some desc ∧
      fileGetDescriptor fd k = .ok (some desc, k) := by
  rw [fileGetDescriptor_eq]
  by_cases hout : fd ≤ 0 ∨ (bimbleosMaxFileDescriptors : Int) ≤ fd
  · rw [if_pos hout]
    exact Or.inl rfl
  · rw [if_neg hout]
    unfold bimbleosMaxFileDescriptors at hout
    cases hslot : k.fileDescriptors (fd - 1).toNat with
    | none => exact Or.inl rfl
    | some desc => exact Or.inr ⟨(fd - 1).toNat, desc, by omega, by omega, hslot, rfl⟩

theorem descriptorData_run {desc : FileDescriptor} {data : FatFileDescriptor}
    (hrun : descriptorData desc k = .ok (data, k')) : desc.privateData = some data ∧ k' = k := by
  unfold descriptorData at hrun
  cases hprivate : desc.privateData with
  | none =>
      rw [hprivate] at hrun
      cases hrun
  | some data' =>
      rw [hprivate] at hrun
      cases hrun
      exact ⟨rfl, rfl⟩

/-- Seeking moves the position at most. -/
theorem fat16Seek_run {data data' : FatFileDescriptor} {offset : Nat} {mode : SeekMode} {res : Int}
    (hrun : fat16Seek data offset mode k = .ok ((res, data'), k')) :
    k' = k ∧ ∃ pos, data' = { data with pos := pos } := by
  unfold fat16Seek at hrun
  cases hbody : data.item.body with
  | directory ptr =>
      simp only [hbody] at hrun
      cases hrun
      exact ⟨rfl, data.pos, rfl⟩
  | file copy item =>
      simp only [hbody] at hrun
      obtain ⟨_, k₁, hderef, hrest⟩ := bind_eq_ok.mp hrun
      obtain ⟨_, rfl⟩ := deref_run hderef
      split at hrest
      · cases hrest
        exact ⟨rfl, data.pos, rfl⟩
      · cases mode with
        | seekSet =>
            cases hrest
            exact ⟨rfl, offset, rfl⟩
        | seekCur =>
            cases hrest
            exact ⟨rfl, _, rfl⟩
        | seekEnd =>
            cases hrest
            exact ⟨rfl, data.pos, rfl⟩
        | other =>
            cases hrest
            exact ⟨rfl, data.pos, rfl⟩

theorem fclose_run {res : Int} (hrun : fclose fd k = .ok (res, k')) :
    (k' = k ∧ res ≠ 0) ∨ ∃ i desc, i < 511 ∧ fd = ((i + 1 : Nat) : Int) ∧
      k.fileDescriptors i = some desc ∧ res = 0 ∧
      k'.fileDescriptors = Function.update k.fileDescriptors (desc.index - 1) none := by
  unfold fclose at hrun
  rcases fileGetDescriptor_cases fd k with hget | ⟨i, desc, hi, hfd, hslot, hget⟩
  · rw [bind_of_ok hget] at hrun
    cases hrun
    exact Or.inl ⟨rfl, by decide⟩
  · rw [bind_of_ok hget] at hrun
    obtain ⟨data, k₁, hdata, hrest⟩ := bind_eq_ok.mp hrun
    obtain ⟨_, hsame⟩ := descriptorData_run hdata
    obtain ⟨code, k₂, hclose, hdone⟩ := bind_eq_ok.mp hrest
    obtain ⟨rfl, _, heap, memory, rfl⟩ := fat16Close_keeps HeapRule.trivial.client.free (fun _ _ => True.intro) k₁
      code k₂ (Keeps.refl True.intro) hclose
    have hok : (0 : Int) = bimbleosAllOk := rfl
    rw [if_pos hok] at hdone
    cases hdone
    refine Or.inr ⟨i, desc, hi, hfd, hslot, rfl, ?_⟩
    rw [← hsame]

theorem fseek_run {offset res : Int} {whence : SeekMode} (hrun : fseek fd offset whence k = .ok (res, k')) :
    k' = k ∨ ∃ i desc data pos, i < 511 ∧ fd = ((i + 1 : Nat) : Int) ∧ k.fileDescriptors i = some desc ∧
      desc.privateData = some data ∧ k' = { k with
        fileDescriptors :=
          Function.update k.fileDescriptors i (some { desc with privateData := some { data with pos := pos } }) } := by
  unfold fseek at hrun
  rcases fileGetDescriptor_cases fd k with hget | ⟨i, desc, hi, hfd, hslot, hget⟩
  · rw [bind_of_ok hget] at hrun
    cases hrun
    exact Or.inl rfl
  · rw [bind_of_ok hget] at hrun
    have hindex : (fd - 1).toNat = i := by omega
    obtain ⟨data, k₁, hdata, hrest⟩ := bind_eq_ok.mp hrun
    obtain ⟨hprivate, hsame⟩ := descriptorData_run hdata
    obtain ⟨⟨code, data'⟩, k₂, hseek, hdone⟩ := bind_eq_ok.mp hrest
    obtain ⟨hsame', pos, rfl⟩ := fat16Seek_run hseek
    cases hdone
    refine Or.inr ⟨i, desc, data, pos, hi, hfd, hslot, hprivate, ?_⟩
    rw [hsame', hsame, hindex]

/-- A path leads to one file, in one way. -/
theorem OpensFile.same {filename modeStr : List (BitVec 8)} {volume volume' : FatVolume}
    {data data' : FatFileDescriptor} {k₁ k₁' : Kernel} (h : OpensFile drive filename modeStr k volume data k₁)
    (h' : OpensFile drive filename modeStr k volume' data' k₁') : data = data' ∧ k₁ = k₁' := by
  obtain ⟨rootPath, k₀, hparse, _, _, hopen⟩ := h.opens
  obtain ⟨rootPath', k₀', hparse', _, _, hopen'⟩ := h'.opens
  have hroot := hparse.symm.trans hparse'
  cases hroot
  have hvolume := h.filesystem.symm.trans h'.filesystem
  cases hvolume
  have hdata := hopen.symm.trans hopen'
  cases hdata
  exact ⟨rfl, rfl⟩

/-! ## The invariant over one step -/

theorem mem_numbers {n : Int} : n ∈ w.numbers ↔ ∃ file, (n, file) ∈ w.opened := by
  unfold FilesWorld.numbers
  rw [List.mem_map]
  constructor
  · rintro ⟨⟨m, file⟩, hmem, rfl⟩
    exact ⟨file, hmem⟩
  · rintro ⟨file, hmem⟩
    exact ⟨(n, file), hmem, rfl⟩

/-- A slot in use belongs to an open descriptor. -/
theorem FilesInv.used (h : FilesInv drive w) (hi : i < 512) (hslot : w.kernel.fileDescriptors i ≠ none) :
    ((i + 1 : Nat) : Int) ∈ w.numbers := by
  by_contra hnot
  exact hslot (h.empty i hi hnot)

/-- An empty slot does not. -/
theorem FilesInv.not_open (h : FilesInv drive w) (hslot : w.kernel.fileDescriptors i = none) :
    ((i + 1 : Nat) : Int) ∉ w.numbers := by
  intro hmem
  obtain ⟨file, hmem⟩ := mem_numbers.mp hmem
  obtain ⟨j, _, hj, _, _, _, _, hheld⟩ := h.holds _ hmem
  have hij : j = i := by
    have heq : ((i + 1 : Nat) : Int) = ((j + 1 : Nat) : Int) := hj
    omega
  rw [hij, hslot] at hheld
  cases hheld

/-- The table is all the invariant speaks about. -/
theorem FilesInv.same {opened : List (Int × FatFileDescriptor)} (h : FilesInv drive ⟨k, opened⟩)
    (hk : k'.fileDescriptors = k.fileDescriptors) : FilesInv drive ⟨k', opened⟩ := by
  refine ⟨h.distinct, fun q hq => ?_, fun i hi hnot => ?_⟩
  · obtain ⟨i, hi, hfd, volume, addr, pos, hfs, hslot⟩ := h.holds q hq
    exact ⟨i, hi, hfd, volume, addr, pos, hfs, by rw [← hslot]; exact congrFun hk i⟩
  · exact (congrFun hk i).trans (h.empty i hi hnot)

/-- A file is put into an empty slot. -/
theorem FilesInv.put {volume : FatVolume} (addr : Nat) (h : FilesInv drive w) (hi : i < 512)
    (hslot : w.kernel.fileDescriptors i = none) (hfs : drive.filesystem = some volume)
    (hk : k'.fileDescriptors
      = Function.update w.kernel.fileDescriptors i (some (openedDescriptor i addr volume file))) :
    FilesInv drive ⟨k', (((i + 1 : Nat) : Int), file) :: w.opened⟩ := by
  have hnot := h.not_open hslot
  refine ⟨List.nodup_cons.mpr ⟨hnot, h.distinct⟩, fun q hq => ?_, fun j hj hnotj => ?_⟩
  · rcases List.mem_cons.mp hq with rfl | hq
    · refine ⟨i, hi, rfl, volume, addr, file.pos, hfs, ?_⟩
      show k'.fileDescriptors i = _
      rw [hk, Function.update_self]
    · obtain ⟨j, hj, hfd, volume', addr', pos, hfs', hheld⟩ := h.holds q hq
      have hne : j ≠ i := by
        rintro rfl
        rw [hslot] at hheld
        cases hheld
      refine ⟨j, hj, hfd, volume', addr', pos, hfs', ?_⟩
      show k'.fileDescriptors j = _
      rw [hk, Function.update_of_ne hne, hheld]
  · obtain ⟨hne, hnotj⟩ := not_or.mp (mt List.mem_cons.mpr hnotj)
    have hji : j ≠ i := fun heq => hne (by rw [heq])
    show k'.fileDescriptors j = none
    rw [hk, Function.update_of_ne hji]
    exact h.empty j hj hnotj

/-- The descriptor in slot `i` is closed. -/
theorem FilesInv.remove (h : FilesInv drive w)
    (hk : k'.fileDescriptors = Function.update w.kernel.fileDescriptors i none) :
    FilesInv drive ⟨k', w.opened.filter fun q => q.1 ≠ ((i + 1 : Nat) : Int)⟩ := by
  refine ⟨?_, fun q hq => ?_, fun j hj hnotj => ?_⟩
  · exact (List.filter_sublist.map Prod.fst).nodup h.distinct
  · obtain ⟨hmem, hne⟩ := List.mem_filter.mp hq
    obtain ⟨j, hj, hfd, volume, addr, pos, hfs, hheld⟩ := h.holds q hmem
    have hji : j ≠ i := by
      rintro rfl
      exact of_decide_eq_true hne hfd
    refine ⟨j, hj, hfd, volume, addr, pos, hfs, ?_⟩
    show k'.fileDescriptors j = _
    rw [hk, Function.update_of_ne hji, hheld]
  · show k'.fileDescriptors j = none
    rw [hk]
    by_cases hji : j = i
    · rw [hji, Function.update_self]
    · rw [Function.update_of_ne hji]
      refine h.empty j hj fun hmem => hnotj ?_
      obtain ⟨file, hmem⟩ := mem_numbers.mp hmem
      exact mem_numbers.mpr ⟨file, List.mem_filter.mpr ⟨hmem, decide_eq_true (by omega)⟩⟩

/-- The descriptor in slot `i` moves to another position. -/
theorem FilesInv.move {desc : FileDescriptor} {data : FatFileDescriptor} {pos : Nat} (h : FilesInv drive w)
    (hslot : w.kernel.fileDescriptors i = some desc) (hdata : desc.privateData = some data)
    (hk : k'.fileDescriptors = Function.update w.kernel.fileDescriptors i
      (some { desc with privateData := some { data with pos := pos } })) :
    FilesInv drive ⟨k', w.opened⟩ := by
  refine ⟨h.distinct, fun q hq => ?_, fun j hj hnotj => ?_⟩
  · obtain ⟨j, hj, hfd, volume, addr, pos', hfs, hheld⟩ := h.holds q hq
    by_cases hji : j = i
    · subst hji
      have hdesc := hslot.symm.trans hheld
      cases hdesc
      cases hdata
      refine ⟨j, hj, hfd, volume, addr, pos, hfs, ?_⟩
      show k'.fileDescriptors j = _
      rw [hk, Function.update_self]
      rfl
    · refine ⟨j, hj, hfd, volume, addr, pos', hfs, ?_⟩
      show k'.fileDescriptors j = _
      rw [hk, Function.update_of_ne hji, hheld]
  · have hempty := h.empty j hj hnotj
    have hji : j ≠ i := by
      rintro rfl
      rw [hslot] at hempty
      cases hempty
    show k'.fileDescriptors j = none
    rw [hk, Function.update_of_ne hji, hempty]

/-- Opening a file leaves the table alone until the descriptor is put into it. -/
theorem OpensFile.table {filename modeStr : List (BitVec 8)} {volume : FatVolume} {data : FatFileDescriptor}
    {k₁ : Kernel} (h : OpensFile drive filename modeStr k volume data k₁) :
    k₁.fileDescriptors = k.fileDescriptors := by
  obtain ⟨⟨_, heap, memory, rfl⟩, _⟩ := h.keeps HeapRule.trivial True.intro
  rfl

theorem kzalloc_table {size ptr : Nat} (hrun : kzalloc size k = .ok (ptr, k')) :
    k'.fileDescriptors = k.fileDescriptors := by
  obtain ⟨_, memory, rfl⟩ := kzalloc_run hrun
  rfl

/-- **One step** keeps the invariant, whatever it is. -/
theorem FilesInv.step (h : FilesInv drive w) (hstep : FilesStep drive w e w') : FilesInv drive w' := by
  cases hstep with
  | @opens filename modeStr fd volume data k₁ k' hrun hpos hopens =>
      cases fopen_outcome hrun with
      | missing => exact absurd hpos (Int.lt_irrefl 0)
      | full => exact absurd hpos (Int.lt_irrefl 0)
      | @opened volume data' k₁' k₂ i addr hopens' hfirst halloc hne =>
          rw [(hopens.same hopens').1]
          have htable : k₂.fileDescriptors = w.kernel.fileDescriptors :=
            (kzalloc_table halloc).trans hopens'.table
          have hslot : w.kernel.fileDescriptors i = none := by
            rw [← hopens'.table]
            exact hfirst.free
          refine h.put addr hfirst.lt hslot hopens'.filesystem ?_
          rw [← htable]
  | @fails filename modeStr fd k' hrun hneg =>
      cases fopen_outcome hrun with
      | missing _ hheap =>
          obtain ⟨_, heap, memory, rfl⟩ := hheap _ _ HeapRule.trivial True.intro
          exact h.same rfl
      | full hopens _ => exact h.same hopens.table
      | opened => exact absurd (Int.natCast_pos.mpr (Nat.succ_pos _)) hneg
  | @fclose fd res k' hrun =>
      rcases fclose_run hrun with ⟨rfl, hres⟩ | ⟨i, desc, hi, rfl, hslot, rfl, hk⟩
      · rw [if_neg hres]
        exact h
      · rw [if_pos rfl]
        obtain ⟨file, hmem⟩ := mem_numbers.mp (h.used (i := i) (by omega) (by rw [hslot]; exact Option.some_ne_none _))
        obtain ⟨j, _, hj, volume, addr, pos, _, hheld⟩ := h.holds _ hmem
        have hij : i = j := by
          have heq : ((i + 1 : Nat) : Int) = ((j + 1 : Nat) : Int) := hj
          omega
        rw [← hij, hslot] at hheld
        cases hheld
        exact h.remove hk
  | @fseek fd offset res whence k' hrun =>
      rcases fseek_run hrun with rfl | ⟨i, desc, data, pos, _, _, hslot, hdata, rfl⟩
      · exact h
      · exact h.move hslot hdata rfl
  | other hk => exact h.same hk

end Table

/-! ## Opening one file again and again -/

/-- A file that is the only item of the root directory, under its path. -/
structure RootFile (drive : Drive) (filename : List (BitVec 8)) (volume : FatVolume) (item : FatDirectoryItem) :
    Prop where
  filesystem : drive.filesystem = some volume
  path : ∃ name, filename = pathText 0x30 [name] false ∧ ComponentOk name ∧ sameName item name = true
  length : filename.length ≤ bimbleosMaxPath
  root : volume.rootDirectory.item = [item]
  total : volume.rootDirectory.total = 1
  file : item.isSubdirectory = false

/-- One more `fopen` of that file, as long as a slot is empty and there is room. -/
theorem RootFile.opens {drive : Drive} {filename : List (BitVec 8)} {volume : FatVolume} {item : FatDirectoryItem}
    {n i : Nat} {ptrs : List Nat} {k : Kernel} (h : RootFile drive filename volume item) (hroom : k.Room ptrs (n + 8))
    (hfirst : FirstFree k i) : ∃ data copy addr k₁ k', OpensFile drive filename readMode k volume data k₁ ∧
      fopen drive filename readMode k = .ok ((i : Int) + 1, k') ∧ k'.Room (addr :: (data.blocks ++ ptrs)) n ∧
      data.item.body = .file copy item ∧ copy ≠ 0 ∧ data.pos = 0 ∧
      k'.fileDescriptors = Function.update k.fileDescriptors i (some (openedDescriptor i addr volume data)) := by
  obtain ⟨name, rfl, hcomponent, hname⟩ := h.path
  obtain ⟨r, k₀, hparse, ⟨root, part, rfl, hdrive, hroot, rfl⟩, hroom₀⟩ := @pathparserParse_one (n + 4) ptrs 0x30 name
    (by decide) hcomponent h.length k hroom
  obtain ⟨r, k₁, hopen, data, copy, rfl, hcopy, hbody, hpos, hroom₁⟩ := @fat16Open_total drive.disk volume item
    part (n + 1) ptrs h.root h.total hname h.file k₀ hroom₀
  have hopens : OpensFile drive (pathText 0x30 [part.part] false) readMode k volume data k₁ := by
    refine ⟨h.filesystem, root, k₀, hparse, ?_, hdrive, ?_⟩
    · rw [hroot]
      exact List.cons_ne_nil _ _
    · have hmode : fileGetModeByString readMode = .read := by decide
      rw [hroot, hmode]
      exact hopen
  have hfirst₁ : FirstFree k₁ i := by
    refine ⟨hfirst.lt, ?_, fun j hj => ?_⟩
    · rw [hopens.table]
      exact hfirst.free
    · rw [hopens.table]
      exact hfirst.before j hj
  obtain ⟨addr, k₂, halloc, hne, hroom₂⟩ :=
    @kzalloc_room (data.blocks ++ ptrs) n sizeofFileDescriptor (by decide) (by decide) k₁ hroom₁
  obtain ⟨k', hrun, hheap, htable⟩ := fopen_of_opens hopens hfirst₁ halloc hne
  refine ⟨data, copy, addr, k₁, k', hopens, hrun, ?_, hbody, hcopy, hpos, ?_⟩
  · refine ⟨?_, ?_⟩
    · rw [hheap]
      exact hroom₂.room
    · rw [hheap]
      exact hroom₂.holding
  · rw [htable, kzalloc_table halloc, hopens.table]

/-- A slot that `fopen` filled. -/
theorem OpenFile.of_table {k : Kernel} {f : Nat → Option FileDescriptor} {i addr copy : Nat} {volume : FatVolume}
    {data : FatFileDescriptor} {item : FatDirectoryItem} (hi : i < 511)
    (htable : k.fileDescriptors = Function.update f i (some (openedDescriptor i addr volume data)))
    (hbody : data.item.body = .file copy item) (hcopy : copy ≠ 0) :
    OpenFile k ((i : Int) + 1) volume data copy item := by
  have hslot : ((i : Int) + 1 - 1).toNat = i := by omega
  refine ⟨by omega, by omega, ⟨openedDescriptor i addr volume data, ?_, rfl, rfl⟩, hbody, hcopy⟩
  rw [hslot, htable, Function.update_self]

/-- The path of the file on `splitDrive`. -/
def splitPath : List (BitVec 8) := pathText 0x30 [[0x41]] false

theorem splitDrive_rootFile : RootFile splitDrive splitPath splitVolume splitFile where
  filesystem := rfl
  path := ⟨[0x41], rfl, ⟨by decide, by decide⟩, by decide⟩
  length := by decide
  root := rfl
  total := rfl
  file := by decide

end BimbleOS
