import BimbleOS.Fs.File

/-!
# `Fs.FileReads` — several reads from one descriptor

`fat16_read` starts at the position of the descriptor and counts its elements from there, but it never
stores the new position. Every read of a sequence therefore starts where the first one did. A sequence is
read as it should be only when none of its reads succeeds (`freads_iff`).
-/

namespace BimbleOS

open Bytes CWord Window

/-- The arguments of an `fread` call. -/
structure FreadCall where
  ptr : Nat
  size : Nat
  nmemb : Nat
  deriving DecidableEq, Repr

/-- The position of a descriptor. -/
def Kernel.filePos (k : Kernel) (fd : Int) : Option Nat :=
  (k.fileDescriptors (fd - 1).toNat).bind fun desc => desc.privateData.map (·.pos)

/-- An `fread` call that returned: its result, the position before and after it, and the bytes in its
    buffer. -/
structure FreadResult where
  call : FreadCall
  res : Int
  before : Option Nat
  after : Option Nat
  bytes : List (BitVec 8)

/-- A sequence of `fread` calls that all return. -/
inductive FreadRun (drive : Drive) (fd : Int) : Kernel → List FreadResult → Kernel → Prop where
  | nil {k : Kernel} : FreadRun drive fd k [] k
  | cons {k k' k'' : Kernel} {call : FreadCall} {res : Int} {results : List FreadResult} :
      fread drive call.ptr call.size call.nmemb fd k = .ok (res, k') →
      FreadRun drive fd k' results k'' →
      FreadRun drive fd k ({
        call := call
        res := res
        before := k.filePos fd
        after := k'.filePos fd
        bytes := window k'.memory call.ptr (call.size * call.nmemb) } :: results) k''

/-- The number of bytes that a sequence asks for. -/
def freadTotal (results : List FreadResult) : Nat :=
  (results.map fun r => r.call.size * r.call.nmemb).sum

/-- What a sequence of reads should do: a successful one moves the position by what it read, another one
    leaves it, and the reads together deliver what a single one of the same length does. -/
structure FreadsOk (drive : Drive) (fd : Int) (k : Kernel) (results : List FreadResult) : Prop where
  moves : ∀ r ∈ results, r.after
    = if r.res < 0 then r.before else r.before.map (· + r.call.size * r.call.nmemb)
  concat : (∀ r ∈ results, 0 ≤ r.res) → ∀ ptr res k',
    fread drive ptr (freadTotal results) 1 fd k = .ok (res, k') → 0 ≤ res →
    (results.map FreadResult.bytes).flatten = window k'.memory ptr (freadTotal results)

/-- The descriptor `fd` is open for the file `item`. -/
structure OpenFile (k : Kernel) (fd : Int) (volume : FatVolume) (data : FatFileDescriptor) (copy : Nat)
    (item : FatDirectoryItem) : Prop where
  low : 0 < fd
  high : fd < 512
  entry : ∃ desc, k.fileDescriptors (fd - 1).toNat = some desc ∧ desc.filesystem = some volume ∧
    desc.privateData = some data
  body : data.item.body = .file copy item
  copy_ne : copy ≠ 0

/-- Reading element `i` fails: its cluster chain breaks off. -/
def ElementFails (disk : Disk) (fs : FatPrivate) (item : FatDirectoryItem) (pos size i : Nat) : Prop :=
  ∃ res bytes, fat16ReadInternal disk fs (fat16GetFirstCluster item) (s32 (pos + i * size : Nat)) (s32 size)
    = some (res, bytes) ∧ res < 0

/-- A call that reports a failure: an element cannot be read, or the number of elements is no `int`. -/
def CallFails (disk : Disk) (fs : FatPrivate) (item : FatDirectoryItem) (pos : Nat) (call : FreadCall) :
    Prop :=
  s32 call.nmemb < 0 ∨ ∃ i, i < call.nmemb ∧ ElementFails disk fs item pos call.size i

section Read

variable {drive : Drive} {disk : Disk} {fs : FatPrivate} {volume : FatVolume} {data : FatFileDescriptor}
  {item : FatDirectoryItem} {k k' : Kernel} {fd res : Int} {copy size n pos ptr : Nat}

/-- The loop over the elements: it stops at the first one that fails, and leaves the table of open files
    alone. The induction is on the number of elements. -/
theorem fat16ReadElements_run
    (hrun : fat16ReadElements disk fs item size n (s32 pos) ptr k = .ok (res, k')) :
    k'.fileDescriptors = k.fileDescriptors ∧ (res < 0 ∨ res = 0) ∧
      (res < 0 ↔ ∃ i, i < n ∧ ElementFails disk fs item pos size i) := by
  induction n generalizing pos ptr k with
  | zero =>
      cases hrun
      refine ⟨rfl, Or.inr rfl, iff_of_false (Int.lt_irrefl 0) ?_⟩
      rintro ⟨i, hi, _⟩
      exact Nat.not_lt_zero i hi
  | succ n ih =>
      have hfirst : ElementFails disk fs item pos size 0 ↔ ∃ r bytes, fat16ReadInternal disk fs
          (fat16GetFirstCluster item) (s32 pos) (s32 size) = some (r, bytes) ∧ r < 0 := by
        unfold ElementFails
        rw [Nat.zero_mul, Nat.add_zero]
      have hnext : ∀ i, ElementFails disk fs item (pos + size) size i
          ↔ ElementFails disk fs item pos size (i + 1) := by
        intro i
        have hpos : pos + size + i * size = pos + (i + 1) * size := by ring
        unfold ElementFails
        rw [hpos]
      have hsplit : (∃ i, i < n + 1 ∧ ElementFails disk fs item pos size i) ↔
          ElementFails disk fs item pos size 0 ∨
            ∃ i, i < n ∧ ElementFails disk fs item (pos + size) size i := by
        rw [Nat.exists_lt_succ_left]
        simp only [hnext]
      rw [fat16ReadElements] at hrun
      obtain ⟨⟨r, bytes⟩, k₁, hread, hstored⟩ := Exec.bind_eq_ok.mp hrun
      obtain ⟨hcluster, rfl⟩ := readInternal_run hread
      obtain ⟨_, k₂, hstore, hnextRun⟩ := Exec.bind_eq_ok.mp hstored
      have htable : k₂.fileDescriptors = k₁.fileDescriptors := by rw [storeOut_run hstore]
      rw [hsplit, hfirst, hcluster]
      change (if r < 0 then pure r else _ : KM Int) k₂ = _ at hnextRun
      by_cases hneg : r < 0
      · rw [if_pos hneg] at hnextRun
        cases hnextRun
        exact ⟨htable, Or.inl hneg, iff_of_true hneg (Or.inl ⟨_, bytes, rfl, hneg⟩)⟩
      · have hoffset : s32 (u32 (s32 pos + size)) = s32 ((pos + size : Nat) : Int) := by
          unfold s32 u32
          omega
        rw [if_neg hneg, hoffset] at hnextRun
        obtain ⟨htable', hres, hiff⟩ := ih hnextRun
        refine ⟨htable'.trans htable, hres, hiff.trans (or_iff_right ?_).symm⟩
        rintro ⟨r', bytes', heq, hneg'⟩
        cases heq
        exact hneg hneg'

/-- `fread` on an open file. -/
theorem fread_eq {call : FreadCall} (h : OpenFile k fd volume data copy item) (hsize : 0 < call.size)
    (hnmemb : 0 < call.nmemb) : fread drive call.ptr call.size call.nmemb fd k
      = (fat16ReadElements drive.disk volume.fs item call.size call.nmemb (s32 data.pos) call.ptr
          >>= fun res => if res < 0 then pure res else pure (s32 call.nmemb)) k := by
  obtain ⟨desc, hentry, hfilesystem, hdata⟩ := h.entry
  have hlow := h.low
  have hhigh := h.high
  have hargs : ¬ (call.size = 0 ∨ call.nmemb = 0 ∨ fd < 1) := by omega
  have hfd : ¬ (fd ≤ 0 ∨ (bimbleosMaxFileDescriptors : Int) ≤ fd) := by
    unfold bimbleosMaxFileDescriptors
    omega
  unfold fread
  rw [if_neg hargs, Exec.bind_of_ok (fileGetDescriptor_eq fd k), if_neg hfd, hentry]
  simp only [hfilesystem]
  unfold descriptorData
  rw [hdata]
  show fat16Read drive.disk volume data call.size call.nmemb call.ptr k = _
  unfold fat16Read
  rw [h.body]
  exact Exec.bind_of_ok (deref_of_ne h.copy_ne)

/-- **One `fread`** leaves the table of open files alone, and reports a failure exactly when `CallFails`
    says so. -/
theorem fread_run {call : FreadCall} (h : OpenFile k fd volume data copy item) (hsize : 0 < call.size)
    (hnmemb : 0 < call.nmemb)
    (hrun : fread drive call.ptr call.size call.nmemb fd k = .ok (res, k')) :
    k'.fileDescriptors = k.fileDescriptors ∧
      (res < 0 ↔ CallFails drive.disk volume.fs item data.pos call) := by
  rw [fread_eq h hsize hnmemb] at hrun
  obtain ⟨r, k₁, hloop, hrun⟩ := Exec.bind_eq_ok.mp hrun
  obtain ⟨htable, hres, hiff⟩ := fat16ReadElements_run hloop
  unfold CallFails
  by_cases hneg : r < 0
  · rw [if_pos hneg] at hrun
    cases hrun
    exact ⟨htable, iff_of_true hneg (Or.inr (hiff.mp hneg))⟩
  · rw [if_neg hneg] at hrun
    obtain ⟨rfl, rfl⟩ := Prod.mk.inj (Except.ok.inj hrun)
    exact ⟨htable, (or_iff_left fun hfail => hneg (hiff.mpr hfail)).symm⟩

/-- An open file stays open at the same position. -/
theorem OpenFile.congr (h : OpenFile k fd volume data copy item)
    (htable : k'.fileDescriptors = k.fileDescriptors) : OpenFile k' fd volume data copy item :=
  ⟨h.low, h.high, by rw [htable]; exact h.entry, h.body, h.copy_ne⟩

theorem OpenFile.filePos (h : OpenFile k fd volume data copy item) : k.filePos fd = some data.pos := by
  obtain ⟨desc, hentry, _, hdata⟩ := h.entry
  unfold Kernel.filePos
  rw [hentry, Option.bind_some, hdata]
  rfl

/-- In a sequence of reads no position changes; the reads that report a failure are those of
    `CallFails`. -/
theorem freadRun_results {results : List FreadResult} (h : OpenFile k fd volume data copy item)
    (hrun : FreadRun drive fd k results k')
    (hsizes : ∀ r ∈ results, 0 < r.call.size ∧ 0 < r.call.nmemb) :
    ∀ r ∈ results, r.before = some data.pos ∧ r.after = some data.pos ∧
      (r.res < 0 ↔ CallFails drive.disk volume.fs item data.pos r.call) := by
  induction hrun with
  | nil => exact fun r hr => absurd hr List.not_mem_nil
  | @cons k k₁ k'' call res results hcall _ ih =>
      obtain ⟨hsize, hnmemb⟩ := hsizes _ List.mem_cons_self
      obtain ⟨htable, hfails⟩ := fread_run h hsize hnmemb hcall
      have hopen := h.congr htable
      intro r hr
      rcases List.mem_cons.mp hr with rfl | hr
      · exact ⟨h.filePos, hopen.filePos, hfails⟩
      · exact ih hopen (fun r hr => hsizes r (List.mem_cons_of_mem _ hr)) r hr

/-- A read that moves the position as it should has failed: the position stays where it is. -/
theorem FreadsOk.fails {results : List FreadResult} (hok : FreadsOk drive fd k results)
    (h : OpenFile k fd volume data copy item) (hrun : FreadRun drive fd k results k')
    (hsizes : ∀ r ∈ results, 0 < r.call.size ∧ 0 < r.call.nmemb) :
    ∀ r ∈ results, CallFails drive.disk volume.fs item data.pos r.call := by
  intro r hr
  obtain ⟨hbefore, hafter, hfails⟩ := freadRun_results h hrun hsizes r hr
  rw [← hfails]
  by_contra hpos
  have hmoves := hok.moves r hr
  rw [if_neg hpos, hbefore, hafter] at hmoves
  obtain ⟨hsize, hnmemb⟩ := hsizes r hr
  have hsame : data.pos = data.pos + r.call.size * r.call.nmemb := Option.some.inj hmoves
  have hread := Nat.mul_pos hsize hnmemb
  omega

end Read

/-- **A sequence of reads is as it should be exactly when none of them succeeds**: a position that stays
    where it is is right for a failed read only. -/
theorem freads_iff {drive : Drive} {fd : Int} {k k' : Kernel} {volume : FatVolume}
    {data : FatFileDescriptor} {copy : Nat} {item : FatDirectoryItem} {results : List FreadResult}
    (h : OpenFile k fd volume data copy item) (hrun : FreadRun drive fd k results k')
    (hsizes : ∀ r ∈ results, 0 < r.call.size ∧ 0 < r.call.nmemb) :
    FreadsOk drive fd k results ↔
      ∀ r ∈ results, CallFails drive.disk volume.fs item data.pos r.call := by
  have hresults := freadRun_results h hrun hsizes
  constructor
  · intro hok
    exact hok.fails h hrun hsizes
  · intro hall
    refine ⟨fun r hr => ?_, fun hgood => ?_⟩
    · obtain ⟨hbefore, hafter, hfails⟩ := hresults r hr
      rw [if_pos (hfails.mpr (hall r hr)), hbefore, hafter]
    · cases results with
      | nil =>
          intro ptr res k₁ hsingle hres
          -- a read of no bytes is refused
          have hrefused : fread drive ptr 0 1 fd k = .ok (-EINVARG, k) := by
            unfold fread
            rw [if_pos (Or.inl rfl)]
            rfl
          have hsame := hrefused.symm.trans hsingle
          cases hsame
          exact absurd hres (by decide)
      | cons r results =>
          have hneg := (hresults r List.mem_cons_self).2.2.mpr (hall r List.mem_cons_self)
          exact absurd (hgood r List.mem_cons_self) (Int.not_le.mpr hneg)

/-- A file of 512 bytes in cluster 5; on `splitDisk` its first two bytes are 1 and 0. -/
def splitFile : FatDirectoryItem where
  filename := [0x41]
  ext := []
  attr := 0
  high16BitsFirstCluster := 0
  low16BitsFirstCluster := 5
  filesize := 512

def splitVolume : FatVolume where
  fs := smallFat
  rootDirectory := { item := [splitFile], total := 1 }

def splitDrive : Drive where
  disk := splitDisk
  filesystem := some splitVolume

/-- The descriptor of the file, at its start. -/
def splitData : FatFileDescriptor where
  addr := 0x1001000
  item := { addr := 0x1002000, body := .file 0x1003000 splitFile }

/-- A kernel with that file open as descriptor 1. -/
def splitKernel : Kernel :=
  { bootKernel with fileDescriptors := fun i => if i = 0 then some {
      addr := 0x1004000
      index := 1
      filesystem := some splitVolume
      privateData := some splitData } else none }

theorem splitKernel_open : OpenFile splitKernel 1 splitVolume splitData 0x1003000 splitFile where
  low := by decide
  high := by decide
  entry := ⟨_, rfl, rfl, rfl⟩
  body := rfl
  copy_ne := by decide

/-- One byte, read to an address on the heap. -/
def oneByte : FreadCall where
  ptr := 0x1005000
  size := 1
  nmemb := 1

/-- The first element of that read. -/
theorem splitFile_read : fat16ReadInternal splitDrive.disk splitVolume.fs (fat16GetFirstCluster splitFile)
    (s32 (splitData.pos + 0 * oneByte.size : Nat)) (s32 oneByte.size) = some (0, [1]) := by
  have hoffset : s32 ((splitData.pos + 0 * oneByte.size : Nat) : Int) = 0 := by decide
  have hsize : s32 (oneByte.size : Int) = 1 := by decide
  rw [hoffset, hsize]
  decide +kernel

theorem splitKernel_read : ∃ k',
    fread splitDrive oneByte.ptr oneByte.size oneByte.nmemb 1 splitKernel = .ok (1, k') := by
  have hloop : ∃ k', fat16ReadElements splitDrive.disk splitVolume.fs splitFile oneByte.size 1
      (s32 (splitData.pos + 0 * oneByte.size : Nat)) oneByte.ptr splitKernel = .ok (0, k') := by
    rw [fat16ReadElements, Exec.bind_of_ok (readInternal_of_some splitFile_read)]
    exact ⟨_, rfl⟩
  obtain ⟨k', hloop⟩ := hloop
  have hstart : splitData.pos + 0 * oneByte.size = splitData.pos := rfl
  have hone : s32 (oneByte.nmemb : Int) = 1 := by decide
  rw [hstart] at hloop
  refine ⟨k', ?_⟩
  rw [fread_eq splitKernel_open Nat.one_pos Nat.one_pos]
  show (fat16ReadElements splitDrive.disk splitVolume.fs splitFile oneByte.size 1 (s32 splitData.pos)
    oneByte.ptr >>= fun res => _) splitKernel = _
  rw [Exec.bind_of_ok hloop, hone]
  rfl

/-- The sequence of that one read. -/
theorem splitKernel_run : ∃ r k', FreadRun splitDrive 1 splitKernel [r] k' ∧ r.call = oneByte := by
  obtain ⟨k', hread⟩ := splitKernel_read
  exact ⟨_, k', FreadRun.cons hread FreadRun.nil, rfl⟩

theorem freads_iff_split : ∃ r k', FreadRun splitDrive 1 splitKernel [r] k' ∧
    (FreadsOk splitDrive 1 splitKernel [r] ↔
      ∀ q ∈ [r], CallFails splitDrive.disk splitVolume.fs splitFile splitData.pos q.call) := by
  obtain ⟨r, k', hrun, hcall⟩ := splitKernel_run
  refine ⟨r, k', hrun, freads_iff splitKernel_open hrun fun q hq => ?_⟩
  rw [List.mem_singleton.mp hq, hcall]
  exact ⟨Nat.one_pos, Nat.one_pos⟩

/-- One byte is read, and the position stays 0. -/
theorem fread_keeps_position :
    ¬ ∀ (drive : Drive) (fd : Int) (k k' : Kernel) (volume : FatVolume) (data : FatFileDescriptor)
      (copy : Nat) (item : FatDirectoryItem) (results : List FreadResult),
      OpenFile k fd volume data copy item → FreadRun drive fd k results k' →
      (∀ r ∈ results, 0 < r.call.size ∧ 0 < r.call.nmemb) →
      data.pos + freadTotal results ≤ item.filesize.toNat → FreadsOk drive fd k results := by
  intro h
  obtain ⟨r, k', hrun, hcall⟩ := splitKernel_run
  have hsizes : ∀ q ∈ [r], 0 < q.call.size ∧ 0 < q.call.nmemb := by
    intro q hq
    rw [List.mem_singleton.mp hq, hcall]
    exact ⟨Nat.one_pos, Nat.one_pos⟩
  have htotal : splitData.pos + freadTotal [r] ≤ splitFile.filesize.toNat := by
    have hone : freadTotal [r] = 1 := by
      unfold freadTotal
      rw [List.map_singleton, hcall]
      rfl
    rw [hone]
    decide
  have hok := h _ _ _ _ _ _ _ _ _ splitKernel_open hrun hsizes htotal
  have hfails := hok.fails splitKernel_open hrun hsizes r List.mem_cons_self
  rw [hcall] at hfails
  rcases hfails with hneg | ⟨i, hi, res, bytes, hres, hneg⟩
  · exact absurd hneg (by decide)
  · -- the one element is read without an error
    obtain rfl : i = 0 := Nat.lt_one_iff.mp hi
    have hsame := splitFile_read.symm.trans hres
    cases hsame
    exact absurd hneg (by decide)

end BimbleOS
