import BimbleOS.Fs.DirectoryEntry
import BimbleOS.Fs.FileTable

/-!
# `Fs.FileUse` — a file that is opened, read and closed

The loaders open one file, ask for its size, read all of it and close it. Between the two ends the kernel
differs from the one before in its heap, in the bytes in memory and in one slot of the table of open files
(`Using`). Which file it is depends on the path and the disk only (`Drive.entry`), and so do the bytes that
are read (`fileBytes`).
-/

namespace BimbleOS

open Bytes CWord Exec Window

/-! ## The names in a path -/

/-- The names of a path, one after the other until one is empty. -/
def splitNames : Nat → List (BitVec 8) → List (List (BitVec 8))
  | 0, _ => []
  | fuel + 1, path =>
      let name := path.takeWhile fun c => ¬ (c = 0x2f ∨ c = 0x00)
      if name = [] then []
      else name :: splitNames fuel (pathparserSkipSlash (path.dropWhile fun c => ¬ (c = 0x2f ∨ c = 0x00)))

/-- The names behind the drive of a file name. -/
def fileNames (filename : List (BitVec 8)) : List (List (BitVec 8)) :=
  splitNames (strlen filename + 1) (filename.drop 3)

section Names

variable {k k' : Kernel} {path : List (BitVec 8)}

/-- The loop copies up to a slash or the end. -/
theorem pathparserCopyPart_run {ptr i : Nat} {r : List (BitVec 8) × List (BitVec 8)}
    (hrun : pathparserCopyPart ptr i path k = .ok (r, k')) :
    r = (path.takeWhile fun c => ¬ (c = 0x2f ∨ c = 0x00), path.dropWhile fun c => ¬ (c = 0x2f ∨ c = 0x00)) := by
  induction path generalizing i r k with
  | nil =>
      cases hrun
      rfl
  | cons c path ih =>
      rw [pathparserCopyPart] at hrun
      by_cases hstop : c = 0x2f ∨ c = 0x00
      · have hkeep : decide (¬ (c = 0x2f ∨ c = 0x00)) = false := decide_eq_false (not_not_intro hstop)
        rw [if_pos hstop] at hrun
        cases hrun
        rw [List.takeWhile_cons, List.dropWhile_cons, hkeep]
        rfl
      · have hkeep : decide (¬ (c = 0x2f ∨ c = 0x00)) = true := decide_eq_true hstop
        rw [if_neg hstop] at hrun
        obtain ⟨_, k₁, _, hrest⟩ := bind_eq_ok.mp hrun
        split at hrest
        · cases hrest
        · obtain ⟨⟨part, rest⟩, k₂, hcopy, hdone⟩ := bind_eq_ok.mp hrest
          cases hdone
          have heq := ih hcopy
          rw [Prod.mk.injEq] at heq
          rw [List.takeWhile_cons, List.dropWhile_cons, hkeep, heq.1, heq.2]
          rfl

theorem pathparserParsePathPart_run {r : Option PathPart × List (BitVec 8)}
    (hrun : pathparserParsePathPart path k = .ok (r, k')) :
    r.1.map PathPart.part = (if (path.takeWhile fun c => ¬ (c = 0x2f ∨ c = 0x00)) = [] then none
        else some (path.takeWhile fun c => ¬ (c = 0x2f ∨ c = 0x00))) ∧
      r.2 = pathparserSkipSlash (path.dropWhile fun c => ¬ (c = 0x2f ∨ c = 0x00)) := by
  obtain ⟨⟨str, rest⟩, k₁, hpart, hrun⟩ := bind_eq_ok.mp hrun
  obtain ⟨ptr, k₂, _, hpart⟩ := bind_eq_ok.mp hpart
  obtain ⟨⟨name, behind⟩, k₃, hcopy, hpart⟩ := bind_eq_ok.mp hpart
  have heq := pathparserCopyPart_run hcopy
  rw [Prod.mk.injEq] at heq
  rw [← heq.1, ← heq.2]
  change (if name = [] then _ else _ : KM _) k₃ = _ at hpart
  by_cases hname : name = []
  · rw [if_pos hname] at hpart ⊢
    obtain ⟨_, k₄, _, hpart⟩ := bind_eq_ok.mp hpart
    cases hpart
    cases hrun
    exact ⟨rfl, rfl⟩
  · rw [if_neg hname] at hpart ⊢
    cases hpart
    obtain ⟨addr, k₄, _, hrun⟩ := bind_eq_ok.mp hrun
    obtain ⟨_, k₅, _, hrun⟩ := bind_eq_ok.mp hrun
    cases hrun
    exact ⟨rfl, rfl⟩

theorem pathparserParseParts_run {fuel : Nat} {parts : List PathPart}
    (hrun : pathparserParseParts fuel path k = .ok (parts, k')) : pathNames parts = splitNames fuel path := by
  induction fuel generalizing path parts k with
  | zero =>
      cases hrun
      rfl
  | succ fuel ih =>
      obtain ⟨⟨part, rest⟩, k₁, hpart, hrun⟩ := bind_eq_ok.mp hrun
      obtain ⟨hname, hrest⟩ := pathparserParsePathPart_run hpart
      have hbehind : rest = pathparserSkipSlash (path.dropWhile fun c => ¬ (c = 0x2f ∨ c = 0x00)) := hrest
      unfold splitNames
      by_cases hempty : (path.takeWhile fun c => ¬ (c = 0x2f ∨ c = 0x00)) = []
      · rw [if_pos hempty] at hname
        cases part with
        | none =>
            cases hrun
            exact (if_pos hempty).symm
        | some part => cases hname
      · rw [if_neg hempty] at hname
        cases part with
        | none => cases hname
        | some part =>
            obtain ⟨parts', k₂, hparts, hrun⟩ := bind_eq_ok.mp hrun
            cases hrun
            have hfirst : part.part = _ := Option.some.inj hname
            refine Eq.trans ?_ (if_neg hempty).symm
            rw [pathNames, List.map_cons, hfirst, ← hbehind, ← ih hparts]
            rfl

/-- **The parts of a path** that was parsed are its names. -/
theorem pathparserParse_run {root : PathRoot} (hrun : pathparserParse path k = .ok (some root, k')) :
    pathNames root.first = fileNames path := by
  obtain ⟨_, _, _, _, hparts⟩ := pathparserParse_some hrun
  exact pathparserParseParts_run hparts

end Names

/-! ## What a read can return -/

section Results

variable {disk : Disk} {fs : FatPrivate} {fuel : Nat} {total : Int}

/-- The streamer delivers the bytes it was asked for. -/
theorem diskstreamerReadLoop_length {pos : Int} {r : StreamRead}
    (h : diskstreamerReadLoop disk fuel pos total = some r) : r.out.length = total.toNat := by
  induction fuel generalizing pos total r with
  | zero => cases h
  | succ fuel ih =>
      have hok : ¬ (diskReadBlock disk (pos.tdiv bimbleosSectorSize)).1 < 0 := Int.lt_irrefl 0
      have hoffset : pos.tmod bimbleosSectorSize < 512 := Int.tmod_lt_of_pos pos (by decide)
      unfold diskstreamerReadLoop at h
      obtain ⟨last, hlast, h⟩ := Option.bind_eq_some_iff.mp h
      simp only [hok, if_false] at h
      by_cases hover : (bimbleosSectorSize : Int) ≤ last
      · have hsum : last = pos.tmod bimbleosSectorSize + total := by
          unfold checked at hlast
          split at hlast
          · exact (Option.some.inj hlast).symm
          · cases hlast
        simp only [hover, decide_true, if_true] at h
        split at h
        · cases h
        · obtain ⟨pos', _, h⟩ := Option.bind_eq_some_iff.mp h
          obtain ⟨q, hq, rfl⟩ := Option.map_eq_some_iff.mp h
          have hrest := ih hq
          rw [List.length_append, length_window]
          unfold bimbleosSectorSize at *
          omega
      · simp only [hover, decide_false, Bool.false_eq_true, if_false] at h
        split at h
        · cases h
        · obtain ⟨pos', _, h⟩ := Option.bind_eq_some_iff.mp h
          cases h
          exact length_window

/-- Following a chain ends at a cluster or with an error. -/
theorem fat16ClusterLoop_res {ahead : Nat} {cluster c : Int} (hcluster : 0 ≤ cluster)
    (h : fat16ClusterLoop disk fs ahead cluster = some c) : 0 ≤ c ∨ c = - EIO := by
  induction ahead generalizing cluster with
  | zero =>
      cases h
      exact Or.inl hcluster
  | succ ahead ih =>
      obtain ⟨entry, hentry, h⟩ := Option.bind_eq_some_iff.mp h
      have hpos : 0 ≤ entry := by
        obtain ⟨e, _, hentry⟩ := Option.bind_eq_some_iff.mp hentry
        obtain ⟨r, hr, rfl⟩ := Option.map_eq_some_iff.mp hentry
        have hok : ¬ r.res < 0 := by
          rw [diskstreamerReadLoop_res hr]
          exact Int.lt_irrefl 0
        rw [if_neg hok]
        exact Int.natCast_nonneg _
      split at h
      · cases h
        exact Or.inr rfl
      · split at h
        · cases h
          exact Or.inr rfl
        · split at h
          · cases h
            exact Or.inr rfl
          · split at h
            · cases h
              exact Or.inr rfl
            · exact ih hpos h

/-- A read succeeds and delivers what it was asked for, or it reports `EIO` and delivers no more than that. -/
theorem fat16ReadLoop_outcome {cluster : Nat} {offset r : Int} {bytes : List (BitVec 8)}
    (h : fat16ReadLoop disk fs cluster fuel offset total = some (r, bytes)) :
    (r = 0 ∧ bytes.length = total.toNat) ∨ (r = - EIO ∧ bytes.length ≤ total.toNat) := by
  induction fuel generalizing offset total r bytes with
  | zero => cases h
  | succ fuel ih =>
      unfold fat16ReadLoop at h
      obtain ⟨clusterToUse, hcluster, h⟩ := Option.bind_eq_some_iff.mp h
      have hres : 0 ≤ clusterToUse ∨ clusterToUse = - EIO := by
        unfold fat16GetClusterForOffset at hcluster
        split at hcluster
        · cases hcluster
        · exact fat16ClusterLoop_res (Int.natCast_nonneg cluster) hcluster
      by_cases hneg : clusterToUse < 0
      · rw [if_pos hneg] at h
        cases h
        exact Or.inr ⟨hres.resolve_left (by omega), Nat.zero_le _⟩
      rw [if_neg hneg] at h
      obtain ⟨sector, _, h⟩ := Option.bind_eq_some_iff.mp h
      obtain ⟨sectorPos, _, h⟩ := Option.bind_eq_some_iff.mp h
      obtain ⟨startingPos, _, h⟩ := Option.bind_eq_some_iff.mp h
      obtain ⟨q, hq, h⟩ := Option.bind_eq_some_iff.mp h
      have hlen := diskstreamerReadLoop_length hq
      rw [if_neg (not_not_intro (diskstreamerReadLoop_res hq))] at h
      by_cases hbig : total > fs.clusterBytes
      · rw [if_pos hbig] at h hlen
        rw [if_pos (by omega)] at h
        obtain ⟨offset', _, h⟩ := Option.bind_eq_some_iff.mp h
        obtain ⟨⟨r', bytes'⟩, hrest, heq⟩ := Option.map_eq_some_iff.mp h
        cases heq
        -- what the rest delivers comes behind the piece
        have hsum : (q.out ++ bytes').length = q.out.length + bytes'.length := List.length_append
        rcases ih hrest with ⟨hzero, hlen'⟩ | ⟨hfail, hlen'⟩
        · exact Or.inl ⟨hzero, hsum.trans (by omega)⟩
        · exact Or.inr ⟨hfail, Nat.le_trans (Nat.le_of_eq hsum) (by omega)⟩
      · rw [if_neg hbig] at h hlen
        rw [if_neg (by omega)] at h
        cases h
        exact Or.inl ⟨diskstreamerReadLoop_res hq, hlen⟩

theorem fat16ReadLoop_length {cluster : Nat} {offset r : Int} {bytes : List (BitVec 8)}
    (h : fat16ReadLoop disk fs cluster fuel offset total = some (r, bytes)) : bytes.length ≤ total.toNat :=
  (fat16ReadLoop_outcome h).elim (fun hdone => Nat.le_of_eq hdone.2) And.right

end Results

/-! ## The file at a path -/

/-- The directory entry that a path leads to. -/
def Drive.entry (drive : Drive) (filename : List (BitVec 8)) : Option FatDirectoryItem :=
  drive.filesystem.bind fun volume => resolve drive.disk volume (fileNames filename)

/-- The bytes of a file: as many as its size says, from its first cluster on. -/
def fileBytes (disk : Disk) (fs : FatPrivate) (entry : FatDirectoryItem) : Option (List (BitVec 8)) :=
  (fat16ReadInternal disk fs (fat16GetFirstCluster entry) 0 (s32 entry.filesize.toNat)).bind fun r =>
    if r.1 < 0 then none else some r.2

/-- The bytes of the file that a path leads to. -/
def Drive.fileBytes (drive : Drive) (filename : List (BitVec 8)) : Option (List (BitVec 8)) :=
  drive.filesystem.bind fun volume => (drive.entry filename).bind fun entry =>
    BimbleOS.fileBytes drive.disk volume.fs entry

/-- `data` stands at the start of what the path leads to. -/
structure FileAt (drive : Drive) (filename : List (BitVec 8)) (volume : FatVolume) (data : FatFileDescriptor) :
    Prop where
  filesystem : drive.filesystem = some volume
  entry : ∃ entry, drive.entry filename = some entry ∧ MadeOf drive.disk volume.fs entry data.item
  pos : data.pos = 0

/-- The kernel is `k₀` up to its heap, which satisfies `P`, the bytes in memory, and a file that is open in
    slot `i`; its blocks may be given back. -/
structure Using (P : Heap → Prop) (Ok : Nat → Prop) (k₀ : Kernel) (i : Nat) (volume : FatVolume)
    (data : FatFileDescriptor) (k : Kernel) : Prop where
  heap : P k.heap
  lt : i < 512
  free : k₀.fileDescriptors i = none
  blocks : ∀ b ∈ data.blocks, Ok b
  kernel : ∃ addr heap memory, Ok addr ∧ k = { k₀ with
    heap := heap
    memory := memory
    fileDescriptors := Function.update k₀.fileDescriptors i (some (openedDescriptor i addr volume data)) }

section Use

variable {P : Heap → Prop} {Ok : Nat → Prop} {drive : Drive} {filename modeStr : List (BitVec 8)}
  {volume : FatVolume} {data : FatFileDescriptor} {k₀ k k' : Kernel} {i : Nat}

/-- The copy of an entry is the entry. -/
theorem MadeOf.entry_of_file {disk : Disk} {fs : FatPrivate} {entry entry' : FatDirectoryItem} {item : FatItem}
    {copy : Nat} (h : MadeOf disk fs entry item) (hbody : item.body = .file copy entry') : entry' = entry := by
  cases h with
  | file =>
      cases hbody
      rfl
  | directory => cases hbody

theorem fat16Open_run {disk : Disk} {path : List PathPart} {mode : FileMode}
    (hrun : fat16Open disk volume path mode k = .ok (.ok data, k')) : data.pos = 0 ∧
      ∃ entry, resolve disk volume (pathNames path) = some entry ∧ MadeOf disk volume.fs entry data.item := by
  unfold fat16Open at hrun
  split at hrun
  · cases hrun
  · obtain ⟨addr, k₁, _, hrun⟩ := bind_eq_ok.mp hrun
    split at hrun
    · cases hrun
    · obtain ⟨item, k₂, hentry, hrun⟩ := bind_eq_ok.mp hrun
      cases item with
      | none =>
          obtain ⟨_, k₃, _, hrun⟩ := bind_eq_ok.mp hrun
          cases hrun
      | some item =>
          cases hrun
          exact ⟨rfl, fat16GetDirectoryEntry_run hentry⟩

theorem OpensFile.fileAt {k₁ : Kernel} (h : OpensFile drive filename modeStr k volume data k₁) :
    FileAt drive filename volume data := by
  obtain ⟨rootPath, k₀, hparse, _, _, hopen⟩ := h.opens
  obtain ⟨hpos, entry, hentry, hdescribes⟩ := fat16Open_run hopen
  rw [pathparserParse_run hparse] at hentry
  refine ⟨h.filesystem, ⟨entry, ?_, hdescribes⟩, hpos⟩
  unfold Drive.entry
  rw [h.filesystem, Option.bind_some]
  exact hentry

/-- **`fopen`**: 0, or a descriptor for what the path leads to. -/
theorem fopen_using (hr : HeapRule P Ok) (hP : P k.heap) {fd : Int}
    (hrun : fopen drive filename modeStr k = .ok (fd, k')) : (fd = 0 ∧ Keeps P k k') ∨
      ∃ (i : Nat) (volume : FatVolume) (data : FatFileDescriptor), fd = i + 1 ∧
        FileAt drive filename volume data ∧ Using P Ok k i volume data k' := by
  cases fopen_outcome hrun with
  | missing _ hheap => exact Or.inl ⟨rfl, hheap P Ok hr hP⟩
  | full hopens _ => exact Or.inl ⟨rfl, (hopens.keeps hr hP).1⟩
  | @opened volume data k₁ k₂ i addr hopens hfirst halloc hne =>
      obtain ⟨hkeeps, hblocks⟩ := hopens.keeps hr hP
      obtain ⟨haddr, hP₂, heap, memory, rfl⟩ := kzalloc_keeps hr (by decide) k₁ addr k₂ hkeeps halloc
      obtain ⟨_, heap₁, memory₁, rfl⟩ := hkeeps
      refine Or.inr ⟨i, volume, data, rfl, hopens.fileAt, hP₂, hfirst.lt, hfirst.free, hblocks, ?_⟩
      exact ⟨addr, heap, memory, haddr, rfl⟩

/-- The descriptor of the file in use. -/
theorem Using.holds (h : Using P Ok k₀ i volume data k) (hfs : drive.filesystem = some volume) :
    HoldsFile drive k i data := by
  obtain ⟨addr, heap, memory, _, rfl⟩ := h.kernel
  exact ⟨volume, addr, data.pos, hfs, Function.update_self ..⟩

/-- The last slot is not looked up. -/
theorem fileGetDescriptor_last (hi : 511 ≤ i) : fileGetDescriptor ((i : Int) + 1) k = .ok (none, k) := by
  rw [fileGetDescriptor_eq, if_pos]
  unfold bimbleosMaxFileDescriptors
  omega

/-- Allocating while a file is in use. -/
theorem Using.alloc (hr : HeapRule P Ok) (h : Using P Ok k₀ i volume data k) {size ptr : Nat}
    (hsize : size < 4294967296) (hrun : kzalloc size k = .ok (ptr, k')) :
    Ok ptr ∧ Using P Ok k₀ i volume data k' := by
  obtain ⟨addr, heap, memory, haddr, rfl⟩ := h.kernel
  obtain ⟨rfl, memory', rfl⟩ := kzalloc_run hrun
  obtain ⟨hP, hok⟩ := hr.malloc h.heap hsize
  exact ⟨hok, hP, h.lt, h.free, h.blocks, addr, _, memory', haddr, rfl⟩

/-- Freeing while a file is in use. -/
theorem Using.dealloc (hr : HeapRule P Ok) (h : Using P Ok k₀ i volume data k) {ptr : Nat} (hok : Ok ptr) :
    Using P Ok k₀ i volume data { k with heap := heapFree k.heap ptr } := by
  obtain ⟨addr, heap, memory, haddr, rfl⟩ := h.kernel
  exact ⟨hr.free h.heap hok, h.lt, h.free, h.blocks, addr, _, memory, haddr, rfl⟩

/-- Writing to memory while a file is in use. -/
theorem Using.store (h : Using P Ok k₀ i volume data k) {memory : Mem} :
    Using P Ok k₀ i volume data { k with memory := memory } := by
  obtain ⟨addr, heap, memory', haddr, rfl⟩ := h.kernel
  exact ⟨h.heap, h.lt, h.free, h.blocks, addr, heap, memory, haddr, rfl⟩

/-- `fstat` on the file in use: an error that is not about the format, or the size of a file. -/
theorem fstat_using (h : Using P Ok k₀ i volume data k) (hfile : FileAt drive filename volume data)
    {res : Int} {stat : FileStat} (hrun : fstat ((i : Int) + 1) k = .ok ((res, stat), k')) :
    k' = k ∧ ((res < 0 ∧ res ≠ -EINFORMAT) ∨ ∃ copy entry, res = 0 ∧ i < 511 ∧ drive.entry filename = some entry ∧
      stat.filesize = entry.filesize.toNat ∧ OpenFile k ((i : Int) + 1) volume data copy entry) := by
  by_cases hi : i < 511
  · obtain ⟨volume', addr, pos, hfs, hserved⟩ := (h.holds hfile.filesystem).serves hi
    have hstat : fstat ((i : Int) + 1) k = fat16Stat { data with pos := pos } k := hserved.stat
    obtain ⟨entry, hentry, hdescribes⟩ := hfile.entry
    rw [hstat] at hrun
    unfold fat16Stat at hrun
    cases hbody : data.item.body with
    | directory ptr =>
        simp only [hbody] at hrun
        cases hrun
        exact ⟨rfl, Or.inl (by decide)⟩
    | file copy entry' =>
        simp only [hbody] at hrun
        obtain ⟨_, k₁, hderef, hdone⟩ := bind_eq_ok.mp hrun
        obtain ⟨hcopy, rfl⟩ := deref_run hderef
        cases hdone
        obtain rfl := hdescribes.entry_of_file hbody
        obtain ⟨addr', heap, memory, _, hk⟩ := h.kernel
        refine ⟨rfl, Or.inr ⟨copy, entry', rfl, hi, hentry, rfl, by omega, by omega, ?_, hbody, hcopy⟩⟩
        have hslot : ((i : Int) + 1 - 1).toNat = i := by omega
        refine ⟨openedDescriptor i addr' volume data, ?_, rfl, rfl⟩
        rw [hslot, hk]
        exact Function.update_self ..
  · have hnone : fstat ((i : Int) + 1) k = .ok ((- EIO, {}), k) := by
      unfold fstat
      rw [bind_of_ok (fileGetDescriptor_last (by omega))]
      rfl
    rw [hnone] at hrun
    cases hrun
    exact ⟨rfl, Or.inl (by decide)⟩

/-- Reading all of a file at once: the bytes are stored, also those in front of a failure. -/
theorem fread_once {fd res : Int} {copy ptr size : Nat} {entry : FatDirectoryItem}
    (h : OpenFile k fd volume data copy entry) (hpos : data.pos = 0) (hsize : 0 < size)
    (hrun : fread drive ptr size 1 fd k = .ok (res, k')) : ∃ r bytes,
      fat16ReadInternal drive.disk volume.fs (fat16GetFirstCluster entry) 0 (s32 size) = some (r, bytes) ∧
      (bytes ≠ [] → ptr ≠ 0) ∧ k' = { k with memory := storeBytes k.memory ptr bytes } ∧
      res = if r < 0 then r else 1 := by
  have hone : s32 ((1 : Nat) : Int) = 1 := by decide
  have hfread := @fread_eq drive volume data entry k fd copy ⟨ptr, size, 1⟩ h hsize Nat.one_pos
  change fread drive ptr size 1 fd k = _ at hfread
  rw [hfread, hpos] at hrun
  obtain ⟨r', k₁, hloop, hdone⟩ := bind_eq_ok.mp hrun
  rw [fat16ReadElements] at hloop
  obtain ⟨⟨r, bytes⟩, k₂, hdefined, hstored⟩ := bind_eq_ok.mp hloop
  obtain ⟨hread, rfl⟩ := readInternal_run hdefined
  obtain ⟨_, k₃, hstore, hnext⟩ := bind_eq_ok.mp hstored
  have hnull : bytes ≠ [] → ptr ≠ 0 := by
    intro hne hzero
    unfold storeOut at hstore
    rw [if_pos ⟨hne, hzero⟩] at hstore
    cases hstore
  obtain rfl := storeOut_run hstore
  refine ⟨r, bytes, hread, hnull, ?_⟩
  change (if r < 0 then pure r else pure 0 : KM Int) _ = _ at hnext
  by_cases hneg : r < 0
  · rw [if_pos hneg] at hnext ⊢
    cases hnext
    rw [if_pos hneg] at hdone
    cases hdone
    exact ⟨rfl, rfl⟩
  · have hzero : ¬ (0 : Int) < 0 := Int.lt_irrefl 0
    rw [if_neg hneg] at hnext ⊢
    cases hnext
    rw [if_neg hzero] at hdone
    obtain ⟨rfl, rfl⟩ := Prod.mk.inj (Except.ok.inj hdone)
    exact ⟨rfl, hone⟩

/-- Reading all of the file in use, or nothing where it is empty. -/
theorem Using.fread {fd res : Int} {copy ptr : Nat} {entry : FatDirectoryItem} (h : Using P Ok k₀ i volume data k)
    (hopen : OpenFile k fd volume data copy entry) (hpos : data.pos = 0)
    (hrun : fread drive ptr entry.filesize.toNat 1 fd k = .ok (res, k')) : Using P Ok k₀ i volume data k' := by
  rcases Nat.eq_zero_or_pos entry.filesize.toNat with hzero | hsize
  · unfold BimbleOS.fread at hrun
    rw [if_pos (Or.inl hzero)] at hrun
    cases hrun
    exact h
  · obtain ⟨r, bytes, _, _, rfl, _⟩ := fread_once hopen hpos hsize hrun
    exact h.store

/-- **Closing the file in use** leaves the table as it was, except for the last slot, which is not closed. -/
theorem fclose_using (hr : HeapRule P Ok) (h : Using P Ok k₀ i volume data k) {res : Int}
    (hrun : fclose ((i : Int) + 1) k = .ok (res, k')) :
    P k'.heap ∧ (i < 511 → Keeps P k₀ k') ∧ (511 ≤ i → k' = k) := by
  obtain ⟨addr, heap, memory, haddr, hk⟩ := h.kernel
  by_cases hi : i < 511
  · have hslot : k.fileDescriptors i = some (openedDescriptor i addr volume data) := by
      rw [hk]
      exact Function.update_self ..
    have hget : fileGetDescriptor ((i : Int) + 1) k = .ok (some (openedDescriptor i addr volume data), k) := by
      have hin : ¬ ((i : Int) + 1 ≤ 0 ∨ (bimbleosMaxFileDescriptors : Int) ≤ (i : Int) + 1) := by
        unfold bimbleosMaxFileDescriptors
        omega
      have hindex : ((i : Int) + 1 - 1).toNat = i := by omega
      rw [fileGetDescriptor_eq, if_neg hin, hindex, hslot]
    unfold fclose at hrun
    rw [bind_of_ok hget] at hrun
    obtain ⟨data', k₁, hdata, hrun⟩ := bind_eq_ok.mp hrun
    cases hdata
    obtain ⟨code, k₂, hclose, hrun⟩ := bind_eq_ok.mp hrun
    obtain ⟨rfl, hP₂, heap₂, memory₂, rfl⟩ := fat16Close_keeps hr.client.free h.blocks _ _ _ (Keeps.refl h.heap) hclose
    have hok : (0 : Int) = bimbleosAllOk := rfl
    rw [if_pos hok] at hrun
    cases hrun
    have hP' : P (heapFree heap₂ addr) := hr.free hP₂ haddr
    refine ⟨hP', fun _ => ⟨hP', heapFree heap₂ addr, memory₂, ?_⟩, fun hle => absurd hi (by omega)⟩
    have htable : Function.update (Function.update k₀.fileDescriptors i
        (some (openedDescriptor i addr volume data))) i none = k₀.fileDescriptors := by
      rw [Function.update_idem, ← h.free, Function.update_eq_self]
    subst hk
    show { k₀ with
      heap := heapFree heap₂ addr
      memory := memory₂
      fileDescriptors := Function.update (Function.update k₀.fileDescriptors i
        (some (openedDescriptor i addr volume data))) i none } = _
    rw [htable]
  · have hnone : fclose ((i : Int) + 1) k = .ok (- EIO, k) := by
      unfold fclose
      rw [bind_of_ok (fileGetDescriptor_last (by omega))]
      rfl
    rw [hnone] at hrun
    cases hrun
    exact ⟨h.heap, fun hlt => absurd hlt hi, fun _ => rfl⟩

end Use

/-! ## Progress -/

section Progress

variable {drive : Drive} {filename : List (BitVec 8)} {volume : FatVolume} {data : FatFileDescriptor}
  {item : FatDirectoryItem} {k : Kernel} {fd : Int} {copy n size ptr : Nat} {bytes : List (BitVec 8)}

/-- An open file has a size. -/
theorem OpenFile.stat (h : OpenFile k fd volume data copy item) :
    ∃ flags, fstat fd k = .ok ((0, { flags := flags, filesize := item.filesize.toNat }), k) := by
  obtain ⟨desc, hentry, _, hdata⟩ := h.entry
  have hlow := h.low
  have hhigh := h.high
  have hfd : ¬ (fd ≤ 0 ∨ (bimbleosMaxFileDescriptors : Int) ≤ fd) := by
    unfold bimbleosMaxFileDescriptors
    omega
  refine ⟨if item.attr &&& fatFileReadOnly ≠ 0 then fileStatReadOnly else 0, ?_⟩
  unfold fstat
  rw [bind_of_ok (fileGetDescriptor_eq fd k), if_neg hfd, hentry]
  unfold descriptorData
  simp only [hdata]
  show fat16Stat data k = _
  unfold fat16Stat
  rw [h.body]
  exact bind_of_ok (deref_of_ne h.copy_ne)

/-- A file whose bytes can be read is read at once. -/
theorem OpenFile.readAll (h : OpenFile k fd volume data copy item) (hpos : data.pos = 0) (hsize : 0 < size)
    (hread : fat16ReadInternal drive.disk volume.fs (fat16GetFirstCluster item) 0 (s32 size) = some (0, bytes))
    (hptr : ptr ≠ 0) :
    fread drive ptr size 1 fd k = .ok (1, { k with memory := storeBytes k.memory ptr bytes }) := by
  have hone : s32 ((1 : Nat) : Int) = 1 := by decide
  have hzero : ¬ (0 : Int) < 0 := Int.lt_irrefl 0
  have hfread := @fread_eq drive volume data item k fd copy ⟨ptr, size, 1⟩ h hsize Nat.one_pos
  change fread drive ptr size 1 fd k = _ at hfread
  have hstart : s32 (data.pos : Int) = 0 := by rw [hpos]; rfl
  have hstore : storeOut ptr bytes k = .ok ((), { k with memory := storeBytes k.memory ptr bytes }) := by
    unfold storeOut
    rw [if_neg fun hnull => hptr hnull.2]
    rfl
  have helements : fat16ReadElements drive.disk volume.fs item size 1 0 ptr k
      = .ok (0, { k with memory := storeBytes k.memory ptr bytes }) := by
    rw [fat16ReadElements]
    refine (bind_of_ok (readInternal_of_some hread)).trans ((bind_of_ok hstore).trans ?_)
    rw [if_neg hzero]
    rfl
  rw [hfread, hstart, bind_of_ok helements, if_neg hzero, hone]
  rfl

/-- Closing a file whose blocks are held gives them back, and keeps what else is held. -/
theorem fclose_held {i addr : Nat} {ptrs : List Nat} (hi : i < 511)
    (hslot : k.fileDescriptors i = some (openedDescriptor i addr volume data)) (hbody : data.item.body = .file copy item)
    (hroom : k.Room (data.blocks ++ addr :: ptrs) n) : ∃ k', fclose ((i : Int) + 1) k = .ok (0, k') ∧
      k'.Room ptrs n ∧ k'.memory = k.memory ∧ k'.process = k.process := by
  have hget : fileGetDescriptor ((i : Int) + 1) k = .ok (some (openedDescriptor i addr volume data), k) := by
    have hin : ¬ ((i : Int) + 1 ≤ 0 ∨ (bimbleosMaxFileDescriptors : Int) ≤ (i : Int) + 1) := by
      unfold bimbleosMaxFileDescriptors
      omega
    have hindex : ((i : Int) + 1 - 1).toNat = i := by omega
    rw [fileGetDescriptor_eq, if_neg hin, hindex, hslot]
  have hblocks : data.blocks ++ addr :: ptrs = copy :: data.item.addr :: data.addr :: addr :: ptrs := by
    unfold FatFileDescriptor.blocks FatItem.blocks
    rw [hbody]
    rfl
  rw [hblocks] at hroom
  have hfreed := hroom.free.free.free
  refine ⟨{ k with
    heap := heapFree (heapFree (heapFree (heapFree k.heap copy) data.item.addr) data.addr) addr
    fileDescriptors := Function.update k.fileDescriptors i none }, ?_, ⟨hfreed.free.room, hfreed.free.holding⟩, rfl, rfl⟩
  have hclose : fat16Close data k = .ok (0, { k with
      heap := heapFree (heapFree (heapFree k.heap copy) data.item.addr) data.addr }) := by
    unfold fat16Close fat16FatItemFree
    rw [hbody]
    rfl
  have hdata : descriptorData (openedDescriptor i addr volume data) k = .ok (data, k) := rfl
  unfold fclose
  rw [bind_of_ok hget]
  refine (bind_of_ok hdata).trans ((bind_of_ok hclose).trans ?_)
  rfl

/-- Closing an open file returns, and loses no room. -/
theorem OpenFile.closes (h : OpenFile k fd volume data copy item) (hroom : k.heap.TailRoom n) :
    ∃ res k', fclose fd k = .ok (res, k') ∧ k'.heap.TailRoom n := by
  obtain ⟨desc, hentry, _, hdata⟩ := h.entry
  have hlow := h.low
  have hhigh := h.high
  have hfd : ¬ (fd ≤ 0 ∨ (bimbleosMaxFileDescriptors : Int) ≤ fd) := by
    unfold bimbleosMaxFileDescriptors
    omega
  have hclose : Total (fun k => k.heap.TailRoom n) (fat16Close data) fun _ k => k.heap.TailRoom n := by
    unfold fat16Close fat16FatItemFree
    rw [h.body]
    refine Total.bind (kfree_tail.bind fun _ => kfree_tail) fun _ => kfree_tail.bind fun _ => ?_
    exact Total.pure fun _ hk => hk
  obtain ⟨res, k₁, hrun, hroom₁⟩ := hclose k hroom
  have hrest : Total (fun k => k.heap.TailRoom n) (do
      if res = bimbleosAllOk then
        setDescriptor (desc.index - 1) none
        kfree desc.addr
        return res
      else return res : KM Int) fun _ k => k.heap.TailRoom n := by
    refine Total.ite (fun _ => ?_) fun _ => Total.pure fun _ hk => hk
    refine Total.bind (Total.modify fun _ hk => hk) fun _ => kfree_tail.bind fun _ => ?_
    exact Total.pure fun _ hk => hk
  obtain ⟨res', k', hdone, hroom'⟩ := hrest k₁ hroom₁
  refine ⟨res', k', ?_, hroom'⟩
  unfold fclose
  rw [bind_of_ok (fileGetDescriptor_eq fd k), if_neg hfd, hentry]
  unfold descriptorData
  simp only [hdata]
  rw [pure_bind, bind_of_ok hrun]
  exact hdone

end Progress

end BimbleOS
