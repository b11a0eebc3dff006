import BimbleOS.Loader.ElfLoad
import BimbleOS.Fs.FileUse
import Mathlib.Data.List.GetD

/-!
# `Loader.ElfRuns` — what loading an ELF file does

`elf_load` either fails and returns no record, or it has read the whole file into a heap block and has
checked the header there. The kernel is changed in its heap, in the bytes in memory and in the table of open
files at most (`elfLoad_run`). Whether the header is accepted depends on the bytes of the file, and on what
lies behind them when the file is shorter than a header (`elfLoad_accepts`).

`elf_load` calls `elf_process_loaded` on the file it has read. `elfLoad_reaches` follows it up to that call, whatever
the call then does (`elfLoadWith`).
-/

namespace BimbleOS

open Bytes CWord Exec

/-! ## The header -/

/-- The checks of `elf_validate_loaded` on the bytes of a file. -/
def ElfAccepts (bytes : List (BitVec 8)) : Prop :=
  elfValidateLoaded (fun a => bytes.getD a 0) 0 = bimbleosAllOk

instance (bytes : List (BitVec 8)) : Decidable (ElfAccepts bytes) := inferInstanceAs (Decidable (_ = _))

/-- The checks look at the first 32 bytes only. -/
theorem elfValidateLoaded_congr {m m' : Mem} {a b : Nat} (h : ∀ i, i < 32 → m (a + i) = m' (b + i)) :
    elfValidateLoaded m a = elfValidateLoaded m' b := by
  have hphoff : ePhoff m a = ePhoff m' b := by
    have h0 := h 28 (by decide)
    have h1 := h 29 (by decide)
    have h2 := h 30 (by decide)
    have h3 := h 31 (by decide)
    unfold ePhoff load32
    simp only [Nat.add_assoc, h0, h1, h2, h3]
  have h0 := h 0 (by decide)
  rw [Nat.add_zero, Nat.add_zero] at h0
  unfold elfValidateLoaded elfValidSignature elfValidClass elfValidEncoding elfHasProgramHeader
  rw [hphoff, h0, h 1 (by decide), h 2 (by decide), h 3 (by decide), h 4 (by decide), h 5 (by decide)]

theorem elfValidateLoaded_cases (m : Mem) (header : Nat) :
    elfValidateLoaded m header = bimbleosAllOk ∨ elfValidateLoaded m header = -EINFORMAT := by
  unfold elfValidateLoaded
  split
  · exact Or.inl rfl
  · exact Or.inr rfl

theorem elfProcessPheader_res {m : Mem} {file phdr : Nat} : (elfProcessPheader m file phdr).1 = 0 := by
  unfold elfProcessPheader
  split
  · rfl
  · rfl

/-- The program headers are never refused. -/
theorem elfProcessPheadersLoop_res {file header left i : Nat} {m : Mem} :
    (elfProcessPheadersLoop file header left i m).1 = 0 := by
  induction left generalizing i m with
  | zero => rfl
  | succ left ih =>
      unfold elfProcessPheadersLoop
      split
      · have hok : ¬ (elfProcessPheader m file (phdrAt (elfPheader m header) i)).1 < 0 := by
          rw [elfProcessPheader_res]
          exact Int.lt_irrefl 0
        simp only [if_neg hok]
        exact ih
      · rfl

theorem elfProcessLoaded_res {m : Mem} {file : Nat} :
    (elfProcessLoaded m file).1 = elfValidateLoaded m (elfMemory m file) := by
  unfold elfProcessLoaded
  rcases elfValidateLoaded_cases m (elfMemory m file) with hok | hbad
  · have hpos : ¬ bimbleosAllOk < 0 := by decide
    simp only [hok, if_neg hpos]
    exact elfProcessPheadersLoop_res
  · have hneg : -EINFORMAT < 0 := by decide
    simp only [hbad, if_pos hneg]

/-! ## Reading the file -/

/-- What the header checks see behind the `n` bytes of a file that is shorter than a header, where the file
    has the size `size` and `k` is the kernel that reads it: the rest of the cleared block, and what was in
    memory behind it. -/
def elfTail (k : Kernel) (size n : Nat) : List (BitVec 8) :=
  Window.window (fill k.memory (heapMalloc k.heap size).1 size 0) ((heapMalloc k.heap size).1 + n) (32 - n)

/-- What `elf_load` has read from the kernel `k` on: the file's bytes at `base`, in a region the heap
    answered with, and `base` in the record. -/
structure ElfRead (drive : Drive) (filename : List (BitVec 8)) (k : Kernel) (size elfFile base : Nat)
    (bytes : List (BitVec 8)) (m : Mem) : Prop where
  content : drive.fileBytes filename = some bytes
  entry : ∃ entry, drive.entry filename = some entry ∧ size = entry.filesize.toNat
  record : elfFile ≠ 0
  pos : 0 < size
  length : bytes.length ≤ size
  answer : (heapMalloc k.heap size).1 = base
  used : base ≠ 0
  inside : base + size ≤ 4294967296
  memory : m = storeBytes (store32 (fill k.memory base size 0) (elfFile + 112) (BitVec.ofNat 32 base)) base bytes

/-- `elfReadFile` with `process` in the place of `elf_process_loaded`, and `failed` of the other results. -/
def elfReadFileWith {α : Type} (failed : Int → α) (process : Nat → KM α) (drive : Drive) (elfFile : Nat) (fd : Int) :
    KM α := do
  let (res, stat) ← fstat fd
  if res < 0 then return failed res
  else
    let memory ← kzalloc stat.filesize
    deref elfFile
    modify fun k => { k with memory := store32 k.memory (elfFile + 112) (BitVec.ofNat 32 memory) }
    let res ← fread drive memory stat.filesize 1 fd
    if res < 0 then return failed res
    else
      deref memory
      process elfFile

/-- `elfLoad` with `process` in the place of `elf_process_loaded`, where `code` is the result code. -/
def elfLoadWith {α : Type} (code : α → Int) (failed : Int → α) (process : Nat → KM α) (drive : Drive)
    (filename : List (BitVec 8)) : KM (α × Nat) := do
  let elfFile ← kzalloc sizeofElfFile
  let fd ← fopen drive filename readMode
  if fd ≤ 0 then
    let _ ← fclose 0
    return (failed (- EIO), 0)
  else
    let res ← elfReadFileWith failed process drive elfFile fd
    let _ ← fclose fd
    if code res < 0 then return (res, 0) else return (res, elfFile)

theorem elfReadFile_with {drive : Drive} {elfFile : Nat} {fd : Int} :
    elfReadFile drive elfFile fd = elfReadFileWith id kernelElfProcessLoaded drive elfFile fd := rfl

theorem elfLoad_with {drive : Drive} {filename : List (BitVec 8)} :
    elfLoad drive filename = elfLoadWith id id kernelElfProcessLoaded drive filename := rfl

/-- The block of the record is beside those of the file. -/
def RecordBeside (record base size : Nat) : Prop := record + 4096 ≤ base ∨ base + max size 4096 ≤ record

section Read

variable {P : Heap → Prop} {Ok : Nat → Prop} {drive : Drive} {filename : List (BitVec 8)} {volume : FatVolume}
  {data : FatFileDescriptor} {k₀ k k' : Kernel} {i elfFile : Nat} {res : Int}

/-- An allocation that is used has its bytes in the address space, and they are cleared. -/
theorem kzalloc_used {size ptr : Nat} (hrun : kzalloc size k = .ok (ptr, k')) (hne : ptr ≠ 0) :
    ptr + size ≤ 4294967296 ∧
      k' = { k with heap := (heapMalloc k.heap size).2, memory := fill k.memory ptr size 0 } := by
  rw [kzalloc_eq] at hrun
  split at hrun
  · cases hrun
    exact absurd rfl hne
  · split at hrun
    · cases hrun
    · cases hrun
      exact ⟨by omega, rfl⟩

/-- `elf_load` with an open file: it fails for another reason than the format, or it has read the file and comes to
    `elf_process_loaded`, whatever that is. -/
theorem elfReadFile_reaches (hr : HeapRule P Ok) (h : Using P Ok k₀ i volume data k)
    (hfile : FileAt drive filename volume data)
    (hrun : elfReadFile drive elfFile ((i : Int) + 1) k = .ok (res, k')) :
    Using P Ok k₀ i volume data k' ∧ ((res < 0 ∧ res ≠ -EINFORMAT) ∨ i < 511 ∧ ∃ size base bytes k₁,
      ElfRead drive filename k size elfFile base bytes k₁.memory ∧
      kernelElfProcessLoaded elfFile k₁ = .ok (res, k') ∧
      ∀ {α : Type} (failed : Int → α) (process : Nat → KM α),
        elfReadFileWith failed process drive elfFile ((i : Int) + 1) k = process elfFile k₁) := by
  unfold elfReadFile at hrun
  obtain ⟨⟨res₁, stat⟩, k₁, hstat, hrest⟩ := bind_eq_ok.mp hrun
  change (if res₁ < 0 then pure res₁ else _ : KM Int) k₁ = _ at hrest
  obtain ⟨rfl, hcases⟩ := fstat_using h hfile hstat
  rcases hcases with ⟨hneg, hother⟩ | ⟨copy, entry, rfl, hi, hentry, hsize, hopen⟩
  · rw [if_pos hneg] at hrest
    cases hrest
    exact ⟨h, Or.inl ⟨hneg, hother⟩⟩
  rw [if_neg (Int.lt_irrefl 0), hsize] at hrest
  obtain ⟨base, k₂, halloc, hafter⟩ := bind_eq_ok.mp hrest
  obtain ⟨_, h₂⟩ := h.alloc hr entry.filesize.isLt halloc
  have htable := kzalloc_table halloc
  obtain ⟨_, k₃, hderef, hstored⟩ := bind_eq_ok.mp hafter
  obtain ⟨hrecord, rfl⟩ := deref_run hderef
  obtain ⟨_, k₄, hstore, hread⟩ := bind_eq_ok.mp hstored
  obtain ⟨res₂, k₅, hfread, hdone⟩ := bind_eq_ok.mp hread
  obtain rfl : k₄ = { k₃ with memory := store32 k₃.memory (elfFile + 112) (BitVec.ofNat 32 base) } :=
    (Prod.mk.inj (Except.ok.inj hstore)).2.symm
  rcases Nat.eq_zero_or_pos entry.filesize.toNat with hzero | hpos
  · -- an empty file is not read
    have hinvarg : -EINVARG < 0 ∧ -EINVARG ≠ -EINFORMAT := by decide
    unfold fread at hfread
    rw [if_pos (Or.inl hzero)] at hfread
    cases hfread
    rw [if_pos hinvarg.1] at hdone
    cases hdone
    exact ⟨h₂.store, Or.inl hinvarg⟩
  have hopen' : OpenFile { k₃ with memory := store32 k₃.memory (elfFile + 112) (BitVec.ofNat 32 base) }
      ((i : Int) + 1) volume data copy entry := hopen.congr htable
  obtain ⟨r, bytes, hbytes, hnull, rfl, rfl⟩ := fread_once hopen' hfile.pos hpos hfread
  have hlen := fat16ReadLoop_length hbytes
  have hused : Using P Ok k₀ i volume data { k₃ with
      memory := storeBytes (store32 k₃.memory (elfFile + 112) (BitVec.ofNat 32 base)) base bytes } := h₂.store
  rcases fat16ReadLoop_outcome hbytes with ⟨rfl, -⟩ | ⟨rfl, -⟩
  · have hone : ¬ (if (0 : Int) < 0 then (0 : Int) else 1) < 0 := by decide
    rw [if_neg hone] at hdone
    obtain ⟨_, k₆, hderef', hprocess⟩ := bind_eq_ok.mp hdone
    obtain ⟨hbase, rfl⟩ := deref_run hderef'
    obtain ⟨rfl, rfl⟩ := Prod.mk.inj (Except.ok.inj hprocess)
    obtain ⟨hinside, hk₃⟩ := kzalloc_used halloc hbase
    have hmemory : k₃.memory = fill k₁.memory base entry.filesize.toNat 0 := by rw [hk₃]
    have hlength : bytes.length ≤ entry.filesize.toNat := by
      have hlt := entry.filesize.isLt
      unfold s32 at hlen
      omega
    refine ⟨hused.store, Or.inr ⟨hi, entry.filesize.toNat, base, bytes, _, ?_, rfl, fun failed process => ?_⟩⟩
    · refine ⟨?_, ⟨entry, hentry, rfl⟩, hrecord, hpos, hlength, (kzalloc_run halloc).1.symm, hbase, hinside, ?_⟩
      on_goal 2 => rw [hmemory]
      unfold Drive.fileBytes BimbleOS.fileBytes
      rw [hfile.filesystem, Option.bind_some, hentry, Option.bind_some, hbytes]
      rfl
    · unfold elfReadFileWith
      rw [bind_of_ok hstat]
      show (if (0 : Int) < 0 then _ else _ : KM _) k₁ = _
      rw [if_neg (Int.lt_irrefl 0), hsize, bind_of_ok halloc, bind_of_ok hderef, bind_of_ok hstore,
        bind_of_ok hfread, if_neg hone, bind_of_ok hderef']
  · have hio : (if - EIO < 0 then - EIO else 1) < 0 ∧ (if - EIO < 0 then - EIO else 1) ≠ -EINFORMAT := by
      decide
    rw [if_pos hio.1] at hdone
    cases hdone
    exact ⟨hused, Or.inl hio⟩

/-- It returns what the header checks say. -/
theorem elfReadFile_run (hr : HeapRule P Ok) (h : Using P Ok k₀ i volume data k)
    (hfile : FileAt drive filename volume data)
    (hrun : elfReadFile drive elfFile ((i : Int) + 1) k = .ok (res, k')) :
    Using P Ok k₀ i volume data k' ∧ ((res < 0 ∧ res ≠ -EINFORMAT) ∨ i < 511 ∧ ∃ size base bytes m,
      ElfRead drive filename k size elfFile base bytes m ∧
      res = elfValidateLoaded m (elfMemory m elfFile)) := by
  obtain ⟨hused, hcases⟩ := elfReadFile_reaches hr h hfile hrun
  refine ⟨hused, hcases.imp_right ?_⟩
  rintro ⟨hi, size, base, bytes, k₁, hread, hprocess, -⟩
  cases hprocess
  exact ⟨hi, size, base, bytes, _, hread, elfProcessLoaded_res⟩

/-- What an `elf_load` that returned has done. -/
inductive ElfOutcome (P : Heap → Prop) (Ok : Nat → Prop) (k : Kernel) : Int → Nat → Kernel → Prop where
  /-- It failed; the file may still be open. -/
  | failed {res : Int} {k' : Kernel} : res < 0 → res ≠ -EINFORMAT → P k'.heap →
      (∃ heap memory table, k' = { k with heap := heap, memory := memory, fileDescriptors := table }) →
      ElfOutcome P Ok k res 0 k'
  /-- The header was refused. -/
  | refused {k' : Kernel} : Keeps P k k' → ElfOutcome P Ok k (-EINFORMAT) 0 k'
  | loaded {file : Nat} {k' : Kernel} : Keeps P k k' → file ≠ 0 → Ok file → ElfOutcome P Ok k 0 file k'

/-- **A run of `elf_load`.** -/
theorem elfLoad_run (hr : HeapRule P Ok) (hP : P k.heap) (hrun : elfLoad drive filename k = .ok ((res, elfFile), k')) :
    ElfOutcome P Ok k res elfFile k' := by
  obtain ⟨record, k₁, halloc, hrest⟩ := bind_eq_ok.mp hrun
  have hkeeps₁ := kzalloc_keeps hr (by decide) k record k₁ (Keeps.refl hP) halloc
  obtain ⟨hrecord, hP₁, heap₁, memory₁, rfl⟩ := hkeeps₁
  obtain ⟨fd, k₂, hopen, hopened⟩ := bind_eq_ok.mp hrest
  have hio : - EIO < 0 ∧ - EIO ≠ -EINFORMAT := by decide
  rcases fopen_using hr hP₁ hopen with ⟨rfl, hP₂, heap₂, memory₂, rfl⟩ | ⟨i, volume, data, rfl, hfile, hused⟩
  · -- the file cannot be opened; closing descriptor 0 does nothing
    rw [if_pos (Int.le_refl 0)] at hopened
    obtain ⟨code, k₃, hclose, hdone⟩ := bind_eq_ok.mp hopened
    have hnone : fclose 0 { k with heap := heap₂, memory := memory₂ }
        = .ok (- EIO, { k with heap := heap₂, memory := memory₂ }) := rfl
    rw [hnone] at hclose
    cases hclose
    cases hdone
    exact .failed hio.1 hio.2 hP₂ ⟨heap₂, memory₂, k.fileDescriptors, rfl⟩
  · rw [if_neg (by omega)] at hopened
    obtain ⟨code, k₃, hread, hafter⟩ := bind_eq_ok.mp hopened
    obtain ⟨hused₃, hcases⟩ := elfReadFile_run hr hused hfile hread
    obtain ⟨closed, k₄, hclose, hdone⟩ := bind_eq_ok.mp hafter
    obtain ⟨hP₄, hlow, hlast⟩ := fclose_using hr hused₃ hclose
    have hkept : i < 511 → Keeps P k k₄ := by
      intro hi
      obtain ⟨_, heap, memory, rfl⟩ := hlow hi
      exact ⟨hP₄, heap, memory, rfl⟩
    rcases hcases with ⟨hneg, hother⟩ | ⟨hi, size, base, bytes, m, hfileRead, rfl⟩
    · rw [if_pos hneg] at hdone
      cases hdone
      refine .failed hneg hother hP₄ ?_
      by_cases hi : i < 511
      · obtain ⟨_, heap, memory, rfl⟩ := hkept hi
        exact ⟨heap, memory, k.fileDescriptors, rfl⟩
      · obtain rfl := hlast (by omega)
        obtain ⟨addr, heap, memory, _, rfl⟩ := hused₃.kernel
        exact ⟨heap, memory, _, rfl⟩
    · rcases elfValidateLoaded_cases m (elfMemory m record) with hok | hbad
      · rw [hok, if_neg (by decide)] at hdone
        obtain ⟨heq, rfl⟩ := Prod.mk.inj (Except.ok.inj hdone)
        obtain ⟨rfl, rfl⟩ := Prod.mk.inj heq
        exact .loaded (hkept hi) hfileRead.record hrecord
      · rw [hbad, if_pos (by decide)] at hdone
        obtain ⟨heq, rfl⟩ := Prod.mk.inj (Except.ok.inj hdone)
        obtain ⟨rfl, rfl⟩ := Prod.mk.inj heq
        exact .refused (hkept hi)

/-- A load that did not fail before the header checks has opened and read the file, and comes to
    `elf_process_loaded`, whatever that is. -/
theorem elfLoad_reaches {record : Nat} {k₁ : Kernel} (hr : HeapRule P Ok)
    (halloc : kzalloc sizeofElfFile k = .ok (record, k₁)) (hP : P k₁.heap)
    (hrun : elfLoad drive filename k = .ok ((res, elfFile), k')) (hres : res = 0 ∨ res = -EINFORMAT) :
    ∃ fd k₂ size base bytes k₃ k₄ closed, fopen drive filename readMode k₁ = .ok (fd, k₂) ∧ P k₂.heap ∧
      ElfRead drive filename k₂ size record base bytes k₃.memory ∧
      kernelElfProcessLoaded record k₃ = .ok (res, k₄) ∧ fclose fd k₄ = .ok (closed, k') ∧
      (0 ≤ res → elfFile = record) ∧
      ∀ {α : Type} (code : α → Int) (failed : Int → α) (process : Nat → KM α) (r : α),
        process record k₃ = .ok (r, k₄) → code r = res →
          elfLoadWith code failed process drive filename k = .ok ((r, elfFile), k') := by
  unfold elfLoad at hrun
  rw [bind_of_ok halloc] at hrun
  obtain ⟨fd, k₂, hopen, hopened⟩ := bind_eq_ok.mp hrun
  rcases fopen_using hr hP hopen with ⟨rfl, _⟩ | ⟨i, volume, data, rfl, hfile, hused⟩
  · rw [if_pos (Int.le_refl 0)] at hopened
    obtain ⟨code, k₃, _, hdone⟩ := bind_eq_ok.mp hopened
    cases hdone
    exact absurd hres (by decide)
  · rw [if_neg (by omega)] at hopened
    obtain ⟨code, k₄, hread, hafter⟩ := bind_eq_ok.mp hopened
    obtain ⟨_, hcases⟩ := elfReadFile_reaches hr hused hfile hread
    obtain ⟨closed, k₅, hclose, hdone⟩ := bind_eq_ok.mp hafter
    have hanswer : (res, elfFile) = (code, if code < 0 then 0 else record) ∧ k' = k₅ := by
      by_cases hneg : code < 0
      · rw [if_pos hneg] at hdone ⊢
        cases hdone
        exact ⟨rfl, rfl⟩
      · rw [if_neg hneg] at hdone ⊢
        cases hdone
        exact ⟨rfl, rfl⟩
    obtain ⟨heq, rfl⟩ := hanswer
    obtain ⟨rfl, rfl⟩ := Prod.mk.inj heq
    rcases hcases with ⟨hneg, hother⟩ | ⟨_, size, base, bytes, k₃, hfileRead, hprocess, hreach⟩
    · rcases hres with rfl | hbad
      · exact absurd hneg (Int.lt_irrefl 0)
      · exact absurd hbad hother
    · refine ⟨_, k₂, size, base, bytes, k₃, k₄, closed, hopen, hused.heap, hfileRead, hprocess, hclose, ?_, ?_⟩
      · exact fun hpos => if_neg (Int.not_lt.mpr hpos)
      · intro α code failed process r hstep hcode
        unfold elfLoadWith
        rw [bind_of_ok halloc, bind_of_ok hopen, if_neg (by omega), bind_of_ok ((hreach failed process).trans hstep),
          bind_of_ok hclose, hcode]
        split
        · rfl
        · rfl

/-- The checks have decided the result. -/
theorem elfLoad_reads {record : Nat} {k₁ : Kernel} (hr : HeapRule P Ok)
    (halloc : kzalloc sizeofElfFile k = .ok (record, k₁)) (hP : P k₁.heap)
    (hrun : elfLoad drive filename k = .ok ((res, elfFile), k')) (hres : res = 0 ∨ res = -EINFORMAT) :
    ∃ fd k₂ size base bytes m, fopen drive filename readMode k₁ = .ok (fd, k₂) ∧ P k₂.heap ∧
      ElfRead drive filename k₂ size record base bytes m ∧ res = elfValidateLoaded m (elfMemory m record) := by
  obtain ⟨fd, k₂, size, base, bytes, k₃, k₄, closed, hopen, hP₂, hread, hprocess, -, -, -⟩ :=
    elfLoad_reaches hr halloc hP hrun hres
  cases hprocess
  exact ⟨fd, k₂, size, base, bytes, _, hopen, hP₂, hread, elfProcessLoaded_res⟩

/-- The record has its block, and the file others. -/
theorem ElfRead.beside {B E : Set Nat} {size record base s : Nat} {bytes : List (BitVec 8)} {m : Mem}
    (h : ElfRead drive filename k size record base bytes m) (hshields : k.heap.Shields B E) (hs : s ∈ B)
    (hrecord : record = bimbleosHeapAddress + 4096 * s) : RecordBeside record base size := by
  have hapart := hshields.apart hs h.pos h.answer h.used h.inside
  obtain ⟨b, hb⟩ := heapMalloc_address hshields.ready h.answer h.used
  have hpos := h.pos
  unfold RecordBeside
  omega

/-- The record still holds the address of the file once that is read. -/
theorem ElfRead.elfMemory {size record base : Nat} {bytes : List (BitVec 8)} {m : Mem}
    (h : ElfRead drive filename k size record base bytes m) (hbeside : RecordBeside record base size) :
    elfMemory m record = base := by
  have hpos := h.pos
  have hlen := h.length
  have hinside := h.inside
  unfold RecordBeside at hbeside
  unfold BimbleOS.elfMemory
  rw [h.memory, load32_congr (m := store32 (fill k.memory base size 0) (record + 112) (BitVec.ofNat 32 base))
      (b := record + 112), load32_store32, BitVec.toNat_ofNat, Nat.mod_eq_of_lt (by omega)]
  exact fun i hi => if_neg (by omega)

/-- What the header checks see, where the record is beside the file: the file, and what is behind it. -/
theorem ElfRead.accepts {size record base : Nat} {bytes : List (BitVec 8)} {m : Mem}
    (h : ElfRead drive filename k size record base bytes m) (hbeside : RecordBeside record base size) :
    elfValidateLoaded m (BimbleOS.elfMemory m record) = bimbleosAllOk ↔
      ElfAccepts (bytes ++ elfTail k size bytes.length) := by
  have hbase := h.answer
  have hlen := h.length
  have hm := h.memory
  rw [h.elfMemory hbeside]
  unfold RecordBeside at hbeside
  unfold ElfAccepts
  rw [elfValidateLoaded_congr]
  intro i hi
  rw [Nat.zero_add]
  by_cases hin : i < bytes.length
  · rw [hm, List.getD_append _ _ _ _ hin]
    unfold storeBytes
    rw [if_pos (by omega), Nat.add_sub_cancel_left]
  · have hposition : base + bytes.length + (i - bytes.length) = base + i := by omega
    unfold elfTail
    rw [List.getD_append_right _ _ _ _ (by omega), Window.getD_window (by omega), hbase, hposition, hm]
    unfold storeBytes
    rw [if_neg (by omega)]
    exact store32_of_outside (by omega)

/-- The block of the record is taken from its allocation on. -/
theorem Heap.Clean.record {record : Nat} {k₁ : Kernel} (hclean : k.heap.Clean)
    (halloc : kzalloc sizeofElfFile k = .ok (record, k₁)) :
    k₁.heap.Clean ∧ (record ≠ 0 → ∃ s, s ∈ k₁.heap.taken ∧ record = bimbleosHeapAddress + 4096 * s) := by
  obtain ⟨hanswer, memory, hk₁⟩ := kzalloc_run halloc
  refine ⟨kzalloc_clean hclean (by decide) halloc, fun hne => ?_⟩
  rw [hk₁]
  obtain ⟨s, hs, hlt, htotal, hblock⟩ := hclean.malloc (by decide) (by decide) hanswer.symm hne
  have hsize : heapBlocks sizeofElfFile = 1 := by decide
  have htaken := (hblock s (Nat.le_refl s) (by omega) hlt).2.1
  exact ⟨s, ⟨by rwa [htotal], htaken⟩, hs⟩

/-- **The header checks** decide what `elf_load` returns once it has read the file, on a heap that is clean. -/
theorem elfLoad_accepts (hclean : k.heap.Clean) (hrun : elfLoad drive filename k = .ok ((res, elfFile), k'))
    (hres : res = 0 ∨ res = -EINFORMAT) : ∃ record k₁ fd k₂ entry bytes,
      kzalloc sizeofElfFile k = .ok (record, k₁) ∧ fopen drive filename readMode k₁ = .ok (fd, k₂) ∧
      drive.entry filename = some entry ∧ drive.fileBytes filename = some bytes ∧
      (res = 0 ↔ ElfAccepts (bytes ++ elfTail k₂ entry.filesize.toNat bytes.length)) := by
  obtain ⟨record, k₁, halloc, _⟩ := bind_eq_ok.mp hrun
  obtain ⟨hclean₁, hblock⟩ := hclean.record halloc
  obtain ⟨fd, k₂, size, base, bytes, m, hopen, hshields, hread, rfl⟩ :=
    elfLoad_reads (shieldRule _ _) halloc hclean₁.shields hrun hres
  obtain ⟨s, hmem, hs⟩ := hblock hread.record
  obtain ⟨entry, hentry, rfl⟩ := hread.entry
  refine ⟨record, k₁, fd, k₂, entry, bytes, halloc, hopen, hentry, hread.content, ?_⟩
  rw [← hread.accepts (hread.beside hshields hmem hs)]
  rfl

end Read

/-! ## Progress -/

/-- A file in the root directory that is no ELF file: it has a header's length at least, fits a block, and
    can be read. -/
structure RawFile (drive : Drive) (filename : List (BitVec 8)) (volume : FatVolume) (item : FatDirectoryItem)
    (bytes : List (BitVec 8)) : Prop extends RootFile drive filename volume item where
  pos : 1 ≤ item.filesize.toNat
  small : item.filesize.toNat ≤ 4096
  read : fat16ReadInternal drive.disk volume.fs (fat16GetFirstCluster item) 0 (s32 item.filesize.toNat)
    = some (0, bytes)
  header : 32 ≤ bytes.length
  refused : ¬ ElfAccepts bytes

section Progress

variable {drive : Drive} {filename : List (BitVec 8)} {volume : FatVolume} {item : FatDirectoryItem}
  {bytes : List (BitVec 8)} {k k' : Kernel} {n i : Nat} {res : Int} {elfFile : Nat}

/-- Such a file is what the path leads to. -/
theorem RawFile.content {data : FatFileDescriptor} {k₁ : Kernel} {copy : Nat}
    (h : RawFile drive filename volume item bytes) (hopens : OpensFile drive filename readMode k volume data k₁)
    (hbody : data.item.body = .file copy item) : drive.fileBytes filename = some bytes := by
  obtain ⟨entry, hentry, hdescribes⟩ := hopens.fileAt.entry
  obtain rfl := hdescribes.entry_of_file hbody
  unfold Drive.fileBytes BimbleOS.fileBytes
  rw [h.filesystem, Option.bind_some, hentry, Option.bind_some, h.read]
  rfl

/-- **`elf_load` refuses** a file that is no ELF file, once it has read it. -/
theorem RawFile.elfLoad (h : RawFile drive filename volume item bytes) (hclean : k.heap.Clean)
    (hroom : k.heap.TailRoom (n + 10)) (hfirst : FirstFree k i) (hi : i < 511) :
    ∃ k', elfLoad drive filename k = .ok ((-EINFORMAT, 0), k') ∧ k'.heap.TailRoom n := by
  obtain ⟨record, k₁, halloc, hrecord, hroom₁, _⟩ :=
    @kzalloc_small (n + 9) sizeofElfFile (by decide) (by decide) k hroom
  have htable := kzalloc_table halloc
  have hfirst₁ : FirstFree k₁ i := by
    refine ⟨hfirst.lt, ?_, fun j hj => ?_⟩
    · rw [htable]
      exact hfirst.free
    · rw [htable]
      exact hfirst.before j hj
  obtain ⟨data, copy, addr, k₂, k₃, hopens, hopen, hroom₃, hbody, hcopy, hpos, htable₃⟩ :=
    h.toRootFile.opens (Kernel.room_nil (hroom₁.mono (show n + 1 + 8 ≤ n + 9 by omega))) hfirst₁
  have hfile := OpenFile.of_table hi htable₃ hbody hcopy
  obtain ⟨flags, hstat⟩ := hfile.stat
  obtain ⟨base, k₄, halloc₄, hbase, hroom₄, _⟩ := @kzalloc_small n item.filesize.toNat h.pos h.small k₃ hroom₃.room
  have htable₄ : k₄.fileDescriptors = k₃.fileDescriptors := kzalloc_table halloc₄
  have hstored : OpenFile { k₄ with memory := store32 k₄.memory (record + 112) (BitVec.ofNat 32 base) }
      ((i : Int) + 1) volume data copy item := hfile.congr htable₄
  have hread := hstored.readAll hpos h.pos h.read hbase
  -- the header is checked, and the file is closed
  have hprocess : ∃ code m, elfReadFile drive record ((i : Int) + 1) k₃ = .ok (code, { k₄ with memory := m }) ∧
      (code = bimbleosAllOk ∨ code = -EINFORMAT) := by
    generalize hm : storeBytes (store32 k₄.memory (record + 112) (BitVec.ofNat 32 base)) base bytes = m at hread
    refine ⟨(elfProcessLoaded m record).1, (elfProcessLoaded m record).2, ?_, ?_⟩
    · unfold elfReadFile
      rw [bind_of_ok hstat]
      show (if (0 : Int) < 0 then _ else _ : KM Int) k₃ = _
      rw [if_neg (Int.lt_irrefl 0), bind_of_ok halloc₄, bind_of_ok (deref_of_ne hrecord),
        modify_bind, bind_of_ok hread]
      show (if (1 : Int) < 0 then _ else _ : KM Int) _ = _
      rw [if_neg (by decide), bind_of_ok (deref_of_ne hbase)]
      rfl
    · rw [elfProcessLoaded_res]
      exact elfValidateLoaded_cases _ _
  obtain ⟨code, m, hprocess, hcode⟩ := hprocess
  have hopen₅ : OpenFile { k₄ with memory := m } ((i : Int) + 1) volume data copy item := hfile.congr htable₄
  obtain ⟨closed, k₆, hclose, hroom₆⟩ :=
    @OpenFile.closes volume data item { k₄ with memory := m } _ copy n hopen₅ hroom₄
  have hrun : BimbleOS.elfLoad drive filename k = .ok ((code, if code < 0 then 0 else record), k₆) := by
    unfold BimbleOS.elfLoad
    rw [bind_of_ok halloc, bind_of_ok hopen, if_neg (by omega), bind_of_ok hprocess, bind_of_ok hclose]
    split
    · rfl
    · rfl
  rcases hcode with rfl | rfl
  · obtain ⟨_, _, _, _, entry, bytes', _, _, _, hbytes, haccepts⟩ := elfLoad_accepts hclean hrun (Or.inl rfl)
    obtain rfl := Option.some.inj ((h.content hopens hbody).symm.trans hbytes)
    have hnil : ∀ k size, elfTail k size bytes.length = [] := by
      intro k size
      have hheader := h.header
      unfold elfTail
      rw [Nat.sub_eq_zero_of_le hheader]
      rfl
    rw [hnil, List.append_nil] at haccepts
    exact absurd (haccepts.mp rfl) h.refused
  · exact ⟨k₆, hrun, hroom₆⟩

end Progress

end BimbleOS
