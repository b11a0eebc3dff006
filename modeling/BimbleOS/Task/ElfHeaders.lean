import BimbleOS.Task.LoadMemory

/-!
# `Task.ElfHeaders` — the program headers that are read

`elf_process_pheaders` and `process_map_elf` walk over the program header table of a file, `e_phnum` entries from
`e_phoff` on. `elf_validate_loaded` asks of the table that `e_phoff` is not 0, and compares it with nothing; so the
entries lie in the file exactly when the file says so (`elfLoad_headersInside_iff`).
-/

namespace BimbleOS

open Bytes CWord Exec

/-! ## Reads -/

/-- The program headers that the loop of `elf_process_pheaders` reads. -/
def elfPheadersRead (file header : Nat) : Nat → Nat → Mem → List Nat
  | 0, _, _ => []
  | left + 1, i, m =>
      if i < ePhnum m header then
        let phdr := phdrAt (elfPheader m header) i
        let (res, m) := elfProcessPheader m file phdr
        phdr :: if res < 0 then [] else elfPheadersRead file header left (i + 1) m
      else []

/-- The program headers that `elf_process_loaded` reads. -/
def elfLoadedRead (m : Mem) (file : Nat) : List Nat :=
  let header := elfMemory m file
  if elfValidateLoaded m header < 0 then [] else elfPheadersRead file header 65536 0 m

/-- `elf_process_loaded`, with the program headers it reads. -/
def kernelElfProcessLoadedRead (elfFile : Nat) : KM (Int × List Nat) := do
  let k ← get
  let res ← kernelElfProcessLoaded elfFile
  return (res, elfLoadedRead k.memory elfFile)

/-- `elf_load`, with the program headers it reads. -/
def elfLoadRead (drive : Drive) (filename : List (BitVec 8)) : KM ((Int × List Nat) × Nat) :=
  elfLoadWith Prod.fst (fun res => (res, [])) kernelElfProcessLoadedRead drive filename

/-- The program headers that the loop of `process_map_elf` reads. -/
def processMapElfLoopRead (m : Mem) (pageDirectory elfFile phdrs : Nat) : Nat → Nat → PageStore → List Nat
  | 0, _, _ => []
  | left + 1, i, s =>
      let phdr := phdrAt phdrs i
      let physAddress := elfPhdrPhysAddress m elfFile phdr
      let (res, s) := pagingMapTo s pageDirectory (pagingAlignToLowerPage (pVaddr m phdr))
        (pagingAlignToLowerPage physAddress)
        (pagingAlignAddress (u32 (physAddress + pMemsz m phdr : Nat))) (phdrFlags m phdr)
      phdr :: if res < 0 then [] else processMapElfLoopRead m pageDirectory elfFile phdrs left (i + 1) s

/-- The program headers that `process_map_elf` reads. -/
def processMapElfRead (m : Mem) (s : PageStore) (pageDirectory elfFile : Nat) : List Nat :=
  let header := elfMemory m elfFile
  processMapElfLoopRead m pageDirectory elfFile (elfPheader m header) (ePhnum m header) 0 s

/-! ## Headers in the file -/

/-- `n` bytes at `a` are bytes of the file of `size` bytes at `base`. -/
def InFile (base size a n : Nat) : Prop := base ≤ a ∧ a + n ≤ base + size

/-- A later memory in which the record and the header are as they were. -/
def HeaderKept (m m' : Mem) (elfFile : Nat) : Prop :=
  ∀ a, (elfFile ≤ a ∧ a < elfFile + sizeofElfFile) ∨ (elfMemory m elfFile ≤ a ∧ a < elfMemory m elfFile + 52) →
    m' a = m a

/-- The headers of a loaded file of `size` bytes are read inside the file: those that `elf_load` has read, and those
    that `process_map_elf` reads later on. -/
structure HeadersInside (size : Nat) (m : Mem) (elfFile : Nat) (read : List Nat) : Prop where
  header : InFile (elfMemory m elfFile) size (elfMemory m elfFile) 52
  processed : ∀ phdr ∈ read, InFile (elfMemory m elfFile) size phdr 32
  mapped : ∀ m' s pageDirectory, HeaderKept m m' elfFile →
    ∀ phdr ∈ processMapElfRead m' s pageDirectory elfFile, InFile (elfMemory m elfFile) size phdr 32

/-- The bytes of a file as memory that begins at 0. -/
def fileImage (bytes : List (BitVec 8)) : Mem := fun a => bytes.getD a 0

/-- The distance of a program header from the start of the file; `e_phoff` is signed. -/
def phdrOffset (bytes : List (BitVec 8)) (i : Nat) : Nat :=
  u32 ((ePhoff (fileImage bytes) 0).toInt + 32 * (i : Int))

/-- The file has room for a header and for the program header table that it says it has. -/
def HeadersFit (bytes : List (BitVec 8)) (size : Nat) : Prop :=
  52 ≤ size ∧ ∀ i, i < ePhnum (fileImage bytes) 0 → phdrOffset bytes i + 32 ≤ size

instance (bytes : List (BitVec 8)) (size : Nat) : Decidable (HeadersFit bytes size) :=
  inferInstanceAs (Decidable (_ ∧ _))

section Table

variable {m m' : Mem} {file header base size left i n phdr pageDirectory phdrs : Nat} {s : PageStore}
  {bytes : List (BitVec 8)}

/-- The program header table depends on the header only. -/
theorem table_congr {a b : Nat} (h : ∀ j, j < 52 → m' (a + j) = m (b + j)) :
    ePhoff m' a = ePhoff m b ∧ ePhnum m' a = ePhnum m b := by
  have h44 := h 44 (by decide)
  have h45 := h 45 (by decide)
  constructor
  · refine load32_congr fun j hj => ?_
    have hbyte := h (28 + j) (by omega)
    rwa [← Nat.add_assoc, ← Nat.add_assoc] at hbyte
  · unfold ePhnum load16
    rw [h44, Nat.add_assoc, Nat.add_assoc, h45]

theorem elfPheader_congr {a : Nat} (h : ∀ j, j < 52 → m' (a + j) = m (a + j)) : elfPheader m' a = elfPheader m a := by
  unfold elfPheader
  rw [(table_congr h).1]

/-- The loop reads the whole table, where the record is beside the header. The induction is on the rounds left. -/
theorem mem_elfPheadersRead (hbeside : header + 52 ≤ file ∨ file + sizeofElfFile ≤ header) :
    phdr ∈ elfPheadersRead file header left i m ↔
      ∃ j, i ≤ j ∧ j < i + left ∧ j < ePhnum m header ∧ phdr = phdrAt (elfPheader m header) j := by
  induction left generalizing i m with
  | zero =>
      constructor
      · exact fun h => absurd h List.not_mem_nil
      · rintro ⟨j, hlo, hhi, -⟩
        omega
  | succ left ih =>
      unfold elfPheadersRead
      by_cases hi : i < ePhnum m header
      · have hpos : ¬ (elfProcessPheader m file (phdrAt (elfPheader m header) i)).1 < 0 := by
          rw [elfProcessPheader_res]
          exact Int.lt_irrefl 0
        -- the rest of the loop sees the same table
        have hsame : ∀ j, j < 52 →
            (elfProcessPheader m file (phdrAt (elfPheader m header) i)).2 (header + j) = m (header + j) := by
          intro j hj
          exact elfProcessPheader_outside (by omega)
        rw [if_pos hi]
        dsimp only
        rw [if_neg hpos, List.mem_cons, ih, elfPheader_congr hsame, (table_congr hsame).2]
        constructor
        · rintro (rfl | ⟨j, hlo, hhi, hj, heq⟩)
          · exact ⟨i, Nat.le_refl i, by omega, hi, rfl⟩
          · exact ⟨j, by omega, by omega, hj, heq⟩
        · rintro ⟨j, hlo, hhi, hj, heq⟩
          rcases Nat.eq_or_lt_of_le hlo with rfl | hlt
          · exact Or.inl heq
          · exact Or.inr ⟨j, hlt, by omega, hj, heq⟩
      · rw [if_neg hi]
        constructor
        · exact fun h => absurd h List.not_mem_nil
        · rintro ⟨j, hlo, hhi, hj, -⟩
          omega

/-- `process_map_elf` reads nothing but the table. -/
theorem mem_processMapElfLoopRead (h : phdr ∈ processMapElfLoopRead m pageDirectory file phdrs left i s) :
    ∃ j, i ≤ j ∧ j < i + left ∧ phdr = phdrAt phdrs j := by
  induction left generalizing i s with
  | zero => exact absurd h List.not_mem_nil
  | succ left ih =>
      unfold processMapElfLoopRead at h
      dsimp only at h
      rcases List.mem_cons.mp h with rfl | h
      · exact ⟨i, Nat.le_refl i, by omega, rfl⟩
      · split at h
        · exact absurd h List.not_mem_nil
        · obtain ⟨j, hlo, hhi, heq⟩ := ih h
          exact ⟨j, by omega, by omega, heq⟩

/-- An entry of the table is in the file if its distance from the start says so. -/
theorem inFile_phdrAt {x : Int} (hend : base + size ≤ 4294967296) :
    InFile base size (phdrAt (u32 (base + x)) i) 32 ↔ u32 (x + 32 * (i : Int)) + 32 ≤ size := by
  unfold InFile phdrAt u32
  omega

end Table

section Loaded

variable {drive : Drive} {filename : List (BitVec 8)} {k k₁ k₂ k' : Kernel} {size record base elfFile : Nat}
  {res fd closed : Int} {bytes : List (BitVec 8)} {m : Mem}

/-- The header that was read, where the file has room for it. -/
theorem ElfRead.header (h : ElfRead drive filename k size record base bytes m)
    (hbeside : RecordBeside record base size) (hsize : 52 ≤ size) :
    ∀ j, j < 52 → m (base + j) = (fileImage bytes) (0 + j) := by
  intro j hj
  unfold RecordBeside at hbeside
  have hcleared : store32 (fill k.memory base size 0) (record + 112) (BitVec.ofNat 32 base) (base + j) = 0 := by
    rw [store32_of_outside (by omega)]
    exact if_pos (by omega)
  rw [h.memory, Nat.zero_add]
  unfold storeBytes
  by_cases hin : j < bytes.length
  · rw [if_pos (by omega), Nat.add_sub_cancel_left]
    rfl
  · rw [if_neg (by omega), hcleared]
    exact (List.getD_eq_default _ _ (by omega)).symm

theorem memoryFree : FreeRule (fun k => k.memory = m) (fun _ => True) := ⟨fun _ => Triple.modify fun _ hk => hk⟩

/-- Closing a file does not write to memory. -/
theorem fclose_memory : Triple (fun k => k.memory = m) (fclose fd) fun _ k => k.memory = m := by
  have hpure : ∀ res : Int, Triple (fun k => k.memory = m) (pure res : KM Int) fun _ k => k.memory = m := fun _ =>
    Triple.pure fun _ hk => hk
  intro k res k' hk hrun
  obtain ⟨desc, k₀, hget, hfound⟩ := bind_eq_ok.mp hrun
  rw [fileGetDescriptor_eq] at hget
  obtain rfl : k = k₀ := (Prod.mk.inj (Except.ok.inj hget)).2
  cases desc with
  | none =>
      cases hfound
      exact hk
  | some desc =>
      obtain ⟨data, k₁, hdata, hclosing⟩ := bind_eq_ok.mp hfound
      have hk₁ : k₁.memory = m := by
        cases hprivate : desc.privateData with
        | none =>
            rw [descriptorData, hprivate] at hdata
            cases hdata
        | some data =>
            rw [descriptorData, hprivate] at hdata
            cases hdata
            exact hk
      obtain ⟨code, k₂, hclose, hlast⟩ := bind_eq_ok.mp hclosing
      have hk₂ := (fat16Close_keeps memoryFree (fun _ _ => True.intro) k₁ code k₂ hk₁ hclose).2
      refine Triple.ite (fun _ => ?_) (fun _ => hpure code) k₂ res k' hk₂ hlast
      refine Triple.bind (R := fun _ k => Kernel.memory k = m) (Triple.modify fun _ hk => hk) fun _ => ?_
      exact Triple.bind (memoryFree.kfree True.intro) fun _ => hpure code

/-- What is known of an ELF file that was loaded: its header is in memory, and the program headers that were read are
    those of its table. -/
structure TableRead (bytes : List (BitVec 8)) (size : Nat) (m : Mem) (elfFile : Nat) (read : List Nat) : Prop where
  inside : elfMemory m elfFile + size ≤ 4294967296
  header : 52 ≤ size → ∀ j, j < 52 → m (elfMemory m elfFile + j) = (fileImage bytes) (0 + j)
  table : ∀ phdr, phdr ∈ read ↔ ∃ i, i < ePhnum m (elfMemory m elfFile) ∧
    phdr = phdrAt (elfPheader m (elfMemory m elfFile)) i
  present : ePhoff m (elfMemory m elfFile) ≠ 0

/-- A load that succeeds has read the table. -/
theorem elfLoad_tableRead (hclean : k.heap.Clean) (hrun : elfLoad drive filename k = .ok ((res, elfFile), k'))
    (hres : 0 ≤ res) : ∃ entry bytes read, drive.entry filename = some entry ∧
      drive.fileBytes filename = some bytes ∧ elfLoadRead drive filename k = .ok (((res, read), elfFile), k') ∧
      TableRead bytes entry.filesize.toNat k'.memory elfFile read := by
  have hzero : res = 0 := by
    cases elfLoad_run HeapRule.trivial True.intro hrun with
    | failed hneg _ _ _ => exact absurd hneg (Int.not_lt.mpr hres)
    | refused _ => exact absurd hres (by decide)
    | loaded _ _ _ => rfl
  obtain ⟨record, k₁, halloc, _⟩ := bind_eq_ok.mp hrun
  obtain ⟨hclean₁, hblock⟩ := hclean.record halloc
  obtain ⟨fd, k₂, size, base, bytes, k₃, k₄, closed, hopen, hshields, hread, hprocess, hclose, hfile, hreach⟩ :=
    elfLoad_reaches (shieldRule _ _) halloc hclean₁.shields hrun (Or.inl hzero)
  obtain rfl := hfile hres
  obtain ⟨s, hmem, hs⟩ := hblock hread.record
  obtain ⟨entry, hentry, rfl⟩ := hread.entry
  have hbeside := hread.beside hshields hmem hs
  have hpointer := hread.elfMemory hbeside
  have hstep : kernelElfProcessLoadedRead elfFile k₃ = .ok ((res, elfLoadedRead k₃.memory elfFile), k₄) := by
    unfold kernelElfProcessLoadedRead
    rw [get_bind, bind_of_ok hprocess]
    rfl
  have hreads : elfLoadRead drive filename k = .ok (((res, elfLoadedRead k₃.memory elfFile), elfFile), k') :=
    hreach Prod.fst (fun res => (res, [])) kernelElfProcessLoadedRead _ hstep rfl
  -- the memory outside the record is what was read
  have hmemory : ∀ a, a < elfFile + 116 ∨ elfFile + sizeofElfFile ≤ a → k'.memory a = k₃.memory a := by
    intro a ha
    have hclosed : k'.memory = k₄.memory := fclose_memory k₄ closed k' rfl hclose
    cases hprocess
    rw [hclosed]
    exact elfProcessLoaded_outside ha
  have hrecord : elfMemory k'.memory elfFile = base := by
    rw [← hpointer]
    unfold elfMemory
    exact congrArg BitVec.toNat (load32_congr fun i hi => hmemory _ (by omega))
  have hsame : ∀ j, j < 52 → k'.memory (base + j) = k₃.memory (base + j) := by
    intro j hj
    apply hmemory
    unfold RecordBeside at hbeside
    unfold sizeofElfFile
    omega
  have hvalid : elfValidateLoaded k₃.memory base = bimbleosAllOk := by
    have hcode : res = elfValidateLoaded k₃.memory (elfMemory k₃.memory elfFile) := by
      cases hprocess
      exact elfProcessLoaded_res
    rw [hpointer] at hcode
    exact hcode.symm.trans hzero
  refine ⟨entry, bytes, _, hentry, hread.content, hreads, ?_⟩
  refine ⟨?_, ?_, ?_, ?_⟩
  · rw [hrecord]
    exact hread.inside
  · intro hsize j hj
    rw [hrecord, hsame j hj]
    exact hread.header hbeside hsize j hj
  · intro phdr
    rw [hrecord, elfPheader_congr hsame, (table_congr hsame).2]
    unfold elfLoadedRead
    dsimp only
    rw [hpointer, hvalid, if_neg (by decide), mem_elfPheadersRead (by
      unfold RecordBeside at hbeside
      unfold sizeofElfFile
      omega)]
    constructor
    · rintro ⟨j, -, -, hj, heq⟩
      exact ⟨j, hj, heq⟩
    · rintro ⟨j, hj, heq⟩
      have hword : ePhnum k₃.memory base < 65536 := BitVec.isLt _
      exact ⟨j, Nat.zero_le j, by omega, hj, heq⟩
  · rw [hrecord, (table_congr hsame).1]
    intro hphoff
    have hnone : elfHasProgramHeader k₃.memory base = false := by
      unfold elfHasProgramHeader
      rw [hphoff]
      rfl
    unfold elfValidateLoaded at hvalid
    rw [hnone, Bool.and_false] at hvalid
    exact absurd hvalid (by decide)

/-- Where the table was read, the headers are inside the file exactly when the file has room for them. -/
theorem TableRead.headersInside_iff {read : List Nat} (h : TableRead bytes size m elfFile read) :
    HeadersInside size m elfFile read ↔ HeadersFit bytes size := by
  have hpheader : elfPheader m (elfMemory m elfFile)
      = u32 (elfMemory m elfFile + (ePhoff m (elfMemory m elfFile)).toInt) := if_neg h.present
  -- an entry is inside by its place in the file
  have hentry (hsize : 52 ≤ size) (i : Nat) :
      InFile (elfMemory m elfFile) size (phdrAt (elfPheader m (elfMemory m elfFile)) i) 32
        ↔ phdrOffset bytes i + 32 ≤ size := by
    rw [hpheader, inFile_phdrAt h.inside, (table_congr (h.header hsize)).1]
    rfl
  constructor
  · intro hinside
    have hsize : 52 ≤ size := by
      have hheader := hinside.header.2
      omega
    refine ⟨hsize, fun i hi => ?_⟩
    rw [← (table_congr (h.header hsize)).2] at hi
    exact (hentry hsize i).mp (hinside.processed _ ((h.table _).mpr ⟨i, hi, rfl⟩))
  · rintro ⟨hsize, hfit⟩
    have hread : ∀ i, i < ePhnum m (elfMemory m elfFile) →
        InFile (elfMemory m elfFile) size (phdrAt (elfPheader m (elfMemory m elfFile)) i) 32 := by
      intro i hi
      rw [(table_congr (h.header hsize)).2] at hi
      exact (hentry hsize i).mpr (hfit i hi)
    refine ⟨⟨Nat.le_refl _, by omega⟩, fun phdr hphdr => ?_, fun m' s d hkept phdr hphdr => ?_⟩
    · obtain ⟨i, hi, rfl⟩ := (h.table phdr).mp hphdr
      exact hread i hi
    · have hrecord : elfMemory m' elfFile = elfMemory m elfFile := by
        refine congrArg BitVec.toNat (load32_congr fun i hi => hkept _ (Or.inl ?_))
        unfold sizeofElfFile
        omega
      have hheader : ∀ j, j < 52 → m' (elfMemory m elfFile + j) = m (elfMemory m elfFile + j) := by
        intro j hj
        exact hkept _ (Or.inr (by omega))
      unfold processMapElfRead at hphdr
      dsimp only at hphdr
      rw [hrecord, elfPheader_congr hheader, (table_congr hheader).2] at hphdr
      obtain ⟨i, -, hi, rfl⟩ := mem_processMapElfLoopRead hphdr
      exact hread i (by omega)

end Loaded

/-- **Program headers inside the file.** A file that `elf_load` accepts has its headers read inside its bytes exactly
    when it has room for a header and for the table that it says it has. -/
theorem elfLoad_headersInside_iff {drive : Drive} {filename : List (BitVec 8)} {k k' : Kernel} {res : Int}
    {elfFile : Nat} (hclean : k.heap.Clean) (hrun : elfLoad drive filename k = .ok ((res, elfFile), k'))
    (hres : 0 ≤ res) : ∃ entry bytes read, drive.entry filename = some entry ∧
      drive.fileBytes filename = some bytes ∧ elfLoadRead drive filename k = .ok (((res, read), elfFile), k') ∧
      (HeadersInside entry.filesize.toNat k'.memory elfFile read ↔ HeadersFit bytes entry.filesize.toNat) := by
  obtain ⟨entry, bytes, read, hentry, hbytes, hreads, htable⟩ := elfLoad_tableRead hclean hrun hres
  exact ⟨entry, bytes, read, hentry, hbytes, hreads, htable.headersInside_iff⟩

/-! A file whose table is one entry longer than the file. -/

/-- The header says that there are two program headers from 52 on, and the file ends behind the first one. -/
def shortElf : List (BitVec 8) := [
  0x7f, 0x45, 0x4c, 0x46, 1, 1, 0, 0, 0, 0, 0, 0, 0, 0, 0, 0,
  2, 0, 3, 0, 1, 0, 0, 0, 0x54, 0, 0x40, 0, 52, 0, 0, 0, 0, 0, 0, 0,
  0, 0, 0, 0, 52, 0, 32, 0, 2, 0, 0, 0, 0, 0, 0, 0,
  1, 0, 0, 0, 0, 0, 0, 0, 0, 0, 0x40, 0, 0, 0, 0, 0,
  84, 0, 0, 0, 0x54, 0, 0, 0, 5, 0, 0, 0, 0, 0x10, 0, 0]

/-- It lies in cluster 5. -/
def shortElfFile : FatDirectoryItem where
  filename := [0x41]
  ext := []
  attr := 0
  high16BitsFirstCluster := 0
  low16BitsFirstCluster := 5
  filesize := 84

def shortElfDrive : Drive where
  disk := { sector := fun lba i => if lba = 13 then shortElf.getD i 0 else 0 }
  filesystem := some { fs := smallFat, rootDirectory := { item := [shortElfFile], total := 1 } }

/-- It is accepted. -/
theorem shortElf_loads : ∃ elfFile k', elfLoad shortElfDrive splitPath bootKernel = .ok ((0, elfFile), k') := by
  obtain ⟨⟨res, elfFile⟩, k', hrun, hres⟩ : ∃ r k', elfLoad shortElfDrive splitPath bootKernel = .ok (r, k') ∧
    decide (r.1 = 0) = true := exists_of_check (by decide +kernel)
  obtain rfl : res = 0 := of_decide_eq_true hres
  exact ⟨elfFile, k', hrun⟩

theorem elfLoad_headersInside_iff_short : ∃ elfFile k' entry bytes read,
    elfLoad shortElfDrive splitPath bootKernel = .ok ((0, elfFile), k') ∧
    shortElfDrive.entry splitPath = some entry ∧ shortElfDrive.fileBytes splitPath = some bytes ∧
    elfLoadRead shortElfDrive splitPath bootKernel = .ok (((0, read), elfFile), k') ∧
    (HeadersInside entry.filesize.toNat k'.memory elfFile read ↔ HeadersFit bytes entry.filesize.toNat) := by
  obtain ⟨elfFile, k', hrun⟩ := shortElf_loads
  obtain ⟨entry, bytes, read, hrest⟩ := elfLoad_headersInside_iff bootKernel_clean hrun (Int.le_refl 0)
  exact ⟨elfFile, k', entry, bytes, read, hrun, hrest⟩

/-- The second program header is read from behind the file. -/
theorem elfLoad_headers_behind :
    ¬ ∀ (drive : Drive) (filename : List (BitVec 8)) (k k' : Kernel) (res : Int) (elfFile : Nat) (read : List Nat)
        (entry : FatDirectoryItem), k.heap.Clean → elfLoad drive filename k = .ok ((res, elfFile), k') → 0 ≤ res →
      elfLoadRead drive filename k = .ok (((res, read), elfFile), k') → drive.entry filename = some entry →
      HeadersInside entry.filesize.toNat k'.memory elfFile read := by
  intro h
  obtain ⟨elfFile, k', hrun⟩ := shortElf_loads
  obtain ⟨entry, bytes, read, hentry, hbytes, hreads, htable⟩ :=
    elfLoad_tableRead bootKernel_clean hrun (Int.le_refl 0)
  have hfit := htable.headersInside_iff.mp (h _ _ _ _ _ _ _ _ bootKernel_clean hrun (Int.le_refl 0) hreads hentry)
  have hfile : shortElfDrive.entry splitPath = some shortElfFile := by decide +kernel
  have hcontent : shortElfDrive.fileBytes splitPath = some shortElf := by decide +kernel
  obtain rfl := Option.some.inj (hfile.symm.trans hentry)
  obtain rfl := Option.some.inj (hcontent.symm.trans hbytes)
  exact absurd hfit (by decide +kernel)

end BimbleOS
