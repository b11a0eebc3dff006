import BimbleOS.Loader.ElfRuns
import BimbleOS.Task.ProcessTerminate

/-!
# `Task.ProcessData` — loading a program's data

`process_load_data` tries the file as an ELF file and falls back to a raw binary. Every return of it is one
of three (`DataOutcome`). The ELF path sets the tag of the union in `struct Process`, the binary path does
not: the tag names the member that was written exactly when the file is an ELF file
(`processLoadData_tag_iff`).
-/

namespace BimbleOS

open Bytes CWord Exec

/-- The kernel with another content of one process structure. -/
def Kernel.setProcess (k : Kernel) (process : Nat) (p : Process) : Kernel :=
  { k with process := Function.update k.process process p }

theorem modifyProcess_eq {process : Nat} {f : Process → Process} {k : Kernel} :
    modifyProcess process f k = .ok ((), k.setProcess process (f (k.process process))) := rfl

/-- The process with the record of an ELF file. -/
def Process.withElf (p : Process) (elfFile : Nat) : Process :=
  { p with filetype := processFiletypeElf, image := elfFile, member := some .elfFile }

/-- The process with a raw image. -/
def Process.withBinary (p : Process) (ptr size : Nat) : Process :=
  { p with image := ptr, member := some .ptr, size := size }

/-- What a `process_load_data` that returned has done. -/
inductive DataOutcome (P : Heap → Prop) (Ok : Nat → Prop) (drive : Drive) (filename : List (BitVec 8)) (k : Kernel)
    (process : Nat) : Int → Kernel → Prop where
  /-- It failed; the file may still be open. -/
  | failed {res : Int} {k' : Kernel} : res < 0 → P k'.heap →
      (∃ heap memory table, k' = { k with heap := heap, memory := memory, fileDescriptors := table }) →
      DataOutcome P Ok drive filename k process res k'
  | elf {elfFile : Nat} {k₁ k' : Kernel} : elfLoad drive filename k = .ok ((0, elfFile), k₁) →
      elfFile ≠ 0 → Ok elfFile →
      Keeps P (k.setProcess process ((k.process process).withElf elfFile)) k' →
      DataOutcome P Ok drive filename k process 0 k'
  | binary {ptr size : Nat} {k₁ k' : Kernel} : elfLoad drive filename k = .ok ((-EINFORMAT, 0), k₁) →
      ptr ≠ 0 → Ok ptr →
      Keeps P (k.setProcess process ((k.process process).withBinary ptr size)) k' →
      DataOutcome P Ok drive filename k process 0 k'

section Runs

variable {P : Heap → Prop} {Ok : Nat → Prop} {drive : Drive} {filename : List (BitVec 8)} {process : Nat}
  {volume : FatVolume} {data : FatFileDescriptor} {k₀ k k' : Kernel} {i : Nat} {res : Int}

/-- Writing to a process structure while a file is in use. -/
theorem Using.setProcess {p : Process} (h : Using P Ok k₀ i volume data k) :
    Using P Ok (k₀.setProcess process p) i volume data (k.setProcess process p) := by
  obtain ⟨addr, heap, memory, haddr, rfl⟩ := h.kernel
  exact ⟨h.heap, h.lt, h.free, h.blocks, addr, heap, memory, haddr, rfl⟩

/-- `process_load_binary` where it returns. -/
theorem processLoadBinary_run (hr : HeapRule P Ok) (hP : P k.heap)
    (hrun : processLoadBinary drive filename process k = .ok (res, k')) :
    (res < 0 ∧ Keeps P k k') ∨ res = 0 ∧ ∃ ptr size, ptr ≠ 0 ∧ Ok ptr ∧
      Keeps P (k.setProcess process ((k.process process).withBinary ptr size)) k' := by
  have hnomem : -ENOMEM < 0 := by decide
  have hio : - EIO < 0 := by decide
  obtain ⟨fd, k₁, hopen, hopened⟩ := bind_eq_ok.mp hrun
  rcases fopen_using hr hP hopen with ⟨rfl, _⟩ | ⟨i, volume, data, rfl, hfile, hused⟩
  · cases hopened
  rw [if_neg (by omega)] at hopened
  obtain ⟨⟨res₁, stat⟩, k₂, hstat, hrest⟩ := bind_eq_ok.mp hopened
  change (if res₁ ≠ bimbleosAllOk then throw .uninitialised else _ : KM Int) k₂ = _ at hrest
  obtain ⟨hsame, hcases⟩ := fstat_using hused hfile hstat
  subst hsame
  rcases hcases with ⟨hneg, _⟩ | ⟨copy, entry, rfl, hi, hentry, hsize, hopenFile⟩
  · have hbad : res₁ ≠ bimbleosAllOk := by
      rintro rfl
      exact absurd hneg (by decide)
    rw [if_pos hbad] at hrest
    cases hrest
  have hok : ¬ (0 : Int) ≠ bimbleosAllOk := not_not_intro rfl
  rw [if_neg hok, hsize] at hrest
  obtain ⟨ptr, k₃, halloc, hafter⟩ := bind_eq_ok.mp hrest
  obtain ⟨hptr, hused₃⟩ := hused.alloc hr entry.filesize.isLt halloc
  by_cases hnull : ptr = 0
  · rw [if_pos hnull] at hafter
    obtain ⟨closed, k₄, hclose, hdone⟩ := bind_eq_ok.mp hafter
    obtain ⟨_, hlow, _⟩ := fclose_using hr hused₃ hclose
    cases hdone
    exact Or.inl ⟨hnomem, hlow hi⟩
  rw [if_neg hnull] at hafter
  obtain ⟨read, k₄, hread, hchecked⟩ := bind_eq_ok.mp hafter
  have htable := kzalloc_table halloc
  have hused₄ := hused₃.fread (hopenFile.congr htable) hfile.pos hread
  by_cases hone : read ≠ 1
  · rw [if_pos hone] at hchecked
    obtain ⟨_, k₅, hfree, hclosing⟩ := bind_eq_ok.mp hchecked
    cases hfree
    obtain ⟨closed, k₆, hclose, hdone⟩ := bind_eq_ok.mp hclosing
    obtain ⟨_, hlow, _⟩ := fclose_using hr (hused₄.dealloc hr hptr) hclose
    cases hdone
    exact Or.inl ⟨hio, hlow hi⟩
  · rw [if_neg hone] at hchecked
    obtain ⟨_, k₅, hwrite, hclosing⟩ := bind_eq_ok.mp hchecked
    have hk₅ : k₅ = k₄.setProcess process ((k₄.process process).withBinary ptr entry.filesize.toNat) :=
      (Prod.mk.inj (Except.ok.inj hwrite)).2.symm
    have hprocess : k₄.process = k.process := by
      obtain ⟨_, _, _, _, hk₄⟩ := hused₄.kernel
      rw [hk₄]
    rw [hprocess] at hk₅
    subst hk₅
    obtain ⟨closed, k₆, hclose, hdone⟩ := bind_eq_ok.mp hclosing
    obtain ⟨_, hlow, _⟩ := fclose_using hr hused₄.setProcess hclose
    cases hdone
    exact Or.inr ⟨rfl, ptr, entry.filesize.toNat, hnull, hptr, hlow hi⟩

/-- **A run of `process_load_data`.** -/
theorem processLoadData_run (hr : HeapRule P Ok) (hP : P k.heap)
    (hrun : processLoadData drive filename process k = .ok (res, k')) :
    DataOutcome P Ok drive filename k process res k' := by
  obtain ⟨res₁, k₁, helf, hrest⟩ := bind_eq_ok.mp hrun
  obtain ⟨⟨code, elfFile⟩, k₂, hload, hset⟩ := bind_eq_ok.mp helf
  change (if code < 0 then pure code else _ : KM Int) k₂ = _ at hset
  cases elfLoad_run hr hP hload with
  | failed hneg hother hP₂ hk₂ =>
      rw [if_pos hneg] at hset
      cases hset
      rw [if_neg hother] at hrest
      cases hrest
      exact .failed hneg hP₂ hk₂
  | refused hkeeps =>
      have hneg : -EINFORMAT < 0 := by decide
      rw [if_pos hneg] at hset
      cases hset
      rw [if_pos rfl] at hrest
      obtain ⟨hP₁, heap, memory, rfl⟩ := hkeeps
      rcases processLoadBinary_run hr hP₁ hrest with ⟨hneg, hP', heap', memory', rfl⟩ |
        ⟨rfl, ptr, size, hne, hptr, hP', heap', memory', rfl⟩
      · exact .failed hneg hP' ⟨heap', memory', k.fileDescriptors, rfl⟩
      · exact .binary hload hne hptr ⟨hP', heap', memory', rfl⟩
  | loaded hkeeps hne helfFile =>
      rw [if_neg (Int.lt_irrefl 0)] at hset
      obtain ⟨hP₂, heap, memory, rfl⟩ := hkeeps
      cases hset
      have hok : ¬ (0 : Int) = -EINFORMAT := by decide
      rw [if_neg hok] at hrest
      cases hrest
      exact .elf hload hne helfFile ⟨hP₂, heap, memory, rfl⟩

end Runs

/-- `process_map_memory` where it returns. -/
theorem kernelProcessMapMemory_run {process : Nat} {k k' : Kernel} {res : Int}
    (hrun : kernelProcessMapMemory process k = .ok (res, k')) : ∃ member pages,
      (k.process process).task ≠ 0 ∧ unionMember (k.process process).filetype = some member ∧
      processMapMemory k.memory k.pages (k.tasks.task (k.process process).task).pageDirectory (k.process process)
        = some (res, pages) ∧
      k' = { k with
        unionReads := k.unionReads ++ [(member, (k.process process).member)]
        pages := pages } := by
  obtain ⟨pageDirectory, k₁, hdirectory, hrest⟩ := bind_eq_ok.mp hrun
  obtain ⟨_, _, hget, hfollow⟩ := bind_eq_ok.mp hdirectory
  cases hget
  obtain ⟨_, k₃, hderef, hdone⟩ := bind_eq_ok.mp hfollow
  obtain ⟨htask, hsame⟩ := deref_run hderef
  rw [hsame] at hdone
  cases hdone
  rw [get_bind] at hrest
  cases hmember : unionMember (k.process process).filetype with
  | none =>
      rw [hmember] at hrest
      cases hrest
  | some member =>
      rw [hmember] at hrest
      obtain ⟨image, k₄, hread, hmap⟩ := bind_eq_ok.mp hrest
      cases hread
      cases hresult : processMapMemory k.memory k.pages (k.tasks.task (k.process process).task).pageDirectory
          (k.process process) with
      | none =>
          rw [hresult] at hmap
          cases hmap
      | some r =>
          rw [hresult] at hmap
          obtain ⟨code, pages⟩ := r
          cases hmap
          exact ⟨member, pages, htask, rfl, rfl, rfl⟩

/-! ## The tag of the union -/

/-- The tag of a process names the member of the union that was written last. -/
structure TagLaw (p : Process) : Prop where
  elf : p.filetype = processFiletypeElf ↔ p.member = some .elfFile
  binary : p.filetype = processFiletypeBinary ↔ p.member = some .ptr

/-- All reads of unions between `k` and `k'` are of the member that was written last. -/
def ReadsAgree (k k' : Kernel) : Prop :=
  ∃ reads, k'.unionReads = k.unionReads ++ reads ∧ ∀ q ∈ reads, q.2 = some q.1

/-- Two processes with one tag and one member. -/
def SameTag (p p' : Process) : Prop := p'.filetype = p.filetype ∧ p'.member = p.member

/-- The functions that read the union of a process read the member that was written. -/
structure ReadersLaw (process : Nat) (p : Process) : Prop where
  init : ∀ task res k k', SameTag p (k.process process) →
    Kernel.taskInit task process k = .ok (res, k') → ReadsAgree k k'
  map : ∀ res k k', SameTag p (k.process process) →
    kernelProcessMapMemory process k = .ok (res, k') → ReadsAgree k k'
  free : ∀ res k k', SameTag p (k.process process) →
    processFreeProgramData process k = .ok (res, k') → ReadsAgree k k'

section Tag

variable {drive : Drive} {filename : List (BitVec 8)} {process : Nat} {k k' : Kernel} {res : Int} {p : Process}

theorem ReadsAgree.none (h : k'.unionReads = k.unionReads) : ReadsAgree k k' :=
  ⟨[], h.trans (List.append_nil _).symm, fun _ hq => absurd hq List.not_mem_nil⟩

theorem ReadsAgree.one (member : ImageMember) (h : k'.unionReads = k.unionReads ++ [(member, some member)]) :
    ReadsAgree k k' :=
  ⟨_, h, fun q hq => by rw [List.mem_singleton.mp hq]⟩

/-- `paging_new` touches no process. -/
theorem pagingNew_processes {flags : BitVec 32} {f : Nat → Process} {reads : List (ImageMember × Option ImageMember)} :
    Triple (fun k => k.process = f ∧ k.unionReads = reads) (pagingNew flags)
      fun _ k => k.process = f ∧ k.unionReads = reads := by
  have halloc : ∀ size, Triple (fun k => k.process = f ∧ k.unionReads = reads) (kzalloc size)
      fun _ k => k.process = f ∧ k.unionReads = reads := by
    intro size k ptr k' hk hrun
    obtain ⟨_, memory, rfl⟩ := kzalloc_run hrun
    exact hk
  have hloop : ∀ directory left i, Triple (fun k => k.process = f ∧ k.unionReads = reads)
      (pagingNewLoop flags directory left i) fun _ k => k.process = f ∧ k.unionReads = reads := by
    intro directory left
    induction left with
    | zero => exact fun i => Triple.pure fun _ hk => hk
    | succ left ih =>
        intro i
        refine Triple.bind (halloc _) fun entry => Triple.bind deref_keeps fun _ => Triple.const fun _ => ?_
        refine Triple.bind deref_keeps fun _ => Triple.const fun _ => ?_
        exact Triple.bind (Triple.modify fun _ hk => hk) fun _ => ih (i + 1)
  refine Triple.bind (halloc _) fun directory => Triple.bind (hloop _ _ _) fun _ => ?_
  refine Triple.bind (halloc _) fun chunk => Triple.bind deref_keeps fun _ => Triple.const fun _ => ?_
  exact Triple.bind (Triple.modify fun _ hk => hk) fun _ => Triple.pure fun _ hk => hk

/-- `elf_close` reads no union. -/
theorem elfClose_reads {file : Nat} (hrun : elfClose file k = .ok ((), k')) : k'.unionReads = k.unionReads := by
  unfold elfClose at hrun
  split at hrun
  · cases hrun
    rfl
  · cases hrun
    rfl

/-- **Where the tag is right**, every later read is. -/
theorem TagLaw.readers (h : TagLaw p) : ReadersLaw process p where
  init := by
    intro task res k k' hsame hrun
    obtain ⟨pageDirectory, k₁, hnew, hrest⟩ := bind_eq_ok.mp hrun
    obtain ⟨hprocess, hreads⟩ := pagingNew_processes k pageDirectory k₁ ⟨rfl, rfl⟩ hnew
    by_cases hnull : pageDirectory = 0
    · rw [if_pos hnull] at hrest
      cases hrest
      exact ReadsAgree.none hreads
    rw [if_neg hnull] at hrest
    obtain ⟨ip, k₂, hentry, hdone⟩ := bind_eq_ok.mp hrest
    cases hdone
    unfold Kernel.entryPoint at hentry
    change (if (k₁.process process).filetype = processFiletypeElf then _ else _ : KM (BitVec 32)) k₁ = _ at hentry
    by_cases helf : (k₁.process process).filetype = processFiletypeElf
    · rw [if_pos helf] at hentry
      cases hentry
      have hmember : (k₁.process process).member = some .elfFile := by
        rw [hprocess] at helf ⊢
        rw [hsame.2, ← h.elf, ← hsame.1]
        exact helf
      refine ReadsAgree.one .elfFile ?_
      show k₁.unionReads ++ [(.elfFile, (k₁.process process).member)] = _
      rw [hmember, hreads]
    · rw [if_neg helf] at hentry
      cases hentry
      exact ReadsAgree.none hreads
  map := by
    intro res k k' hsame hrun
    obtain ⟨member, pages, _, hmember, _, rfl⟩ := kernelProcessMapMemory_run hrun
    refine ReadsAgree.one member ?_
    have hwritten : (k.process process).member = some member := by
      rw [hsame.2]
      rw [hsame.1] at hmember
      unfold unionMember at hmember
      split at hmember
      · next helf =>
        cases hmember
        exact h.elf.mp helf
      · split at hmember
        · next hbinary =>
          cases hmember
          exact h.binary.mp hbinary
        · cases hmember
    rw [hwritten]
  free := by
    intro res k k' hsame hrun
    unfold processFreeProgramData at hrun
    change (if (k.process process).filetype = processFiletypeBinary then processFreeBinaryData process
      else if (k.process process).filetype = processFiletypeElf then processFreeElfData process
      else pure (-EINVARG) : KM Int) k = _ at hrun
    by_cases hbinary : (k.process process).filetype = processFiletypeBinary
    · rw [if_pos hbinary] at hrun
      have hwritten : (k.process process).member = some .ptr := by
        rw [hsame.2, ← h.binary, ← hsame.1]
        exact hbinary
      refine ReadsAgree.one .ptr ?_
      obtain ⟨_, k₁, hread, hfree⟩ := bind_eq_ok.mp hrun
      cases hread
      obtain ⟨_, k₂, hkfree, hdone⟩ := bind_eq_ok.mp hfree
      cases hkfree
      cases hdone
      rw [← hwritten]
    rw [if_neg hbinary] at hrun
    by_cases helf : (k.process process).filetype = processFiletypeElf
    · rw [if_pos helf] at hrun
      have hwritten : (k.process process).member = some .elfFile := by
        rw [hsame.2, ← h.elf, ← hsame.1]
        exact helf
      refine ReadsAgree.one .elfFile ?_
      obtain ⟨image, k₁, hread, hclose⟩ := bind_eq_ok.mp hrun
      cases hread
      obtain ⟨_, k₂, hclosed, hdone⟩ := bind_eq_ok.mp hclose
      cases hdone
      rw [elfClose_reads hclosed, ← hwritten]
    · rw [if_neg helf] at hrun
      cases hrun
      exact ReadsAgree.none rfl

end Tag

/-! ## Progress -/

section Progress

variable {drive : Drive} {filename : List (BitVec 8)} {volume : FatVolume} {item : FatDirectoryItem}
  {bytes : List (BitVec 8)} {k k' : Kernel} {n i process : Nat}

theorem FirstFree.congr (h : FirstFree k i) (htable : k'.fileDescriptors = k.fileDescriptors) : FirstFree k' i :=
  ⟨h.lt, by rw [htable]; exact h.free, fun j hj => by rw [htable]; exact h.before j hj⟩

/-- A raw file is loaded as a binary; the block with its bytes is held. -/
theorem RawFile.loadBinary (h : RawFile drive filename volume item bytes) (hroom : k.heap.TailRoom (n + 9))
    (hfirst : FirstFree k i) (hi : i < 511) :
    ∃ k' ptr m, processLoadBinary drive filename process k = .ok (0, k') ∧ k'.Room [ptr] n ∧
      k'.memory = storeBytes m ptr bytes ∧ (k'.process process).image = ptr := by
  obtain ⟨data, copy, addr, _, k₁, _, hopen, hroom₁, hbody, hcopy, hpos, htable₁⟩ :=
    h.toRootFile.opens (Kernel.room_nil (hroom.mono (show n + 1 + 8 ≤ n + 9 by omega))) hfirst
  have hfile := OpenFile.of_table hi htable₁ hbody hcopy
  obtain ⟨flags, hstat⟩ := hfile.stat
  rw [List.append_nil] at hroom₁
  obtain ⟨ptr, k₂, halloc, hptr, hroom₂⟩ :=
    @kzalloc_room (addr :: data.blocks) n item.filesize.toNat h.pos h.small k₁ hroom₁
  have hfile₂ : OpenFile k₂ ((i : Int) + 1) volume data copy item := hfile.congr (kzalloc_table halloc)
  have hread := hfile₂.readAll hpos h.pos h.read hptr
  -- the structure is filled in, and the file is closed
  generalize hk₃ : Kernel.setProcess { k₂ with memory := storeBytes k₂.memory ptr bytes } process
    ((k₂.process process).withBinary ptr item.filesize.toNat) = k₃
  have hheld : k₃.Room (data.blocks ++ [addr, ptr]) n := by
    have hperm := (List.Perm.swap addr ptr data.blocks).trans (@List.perm_append_comm _ [addr, ptr] data.blocks)
    rw [← hk₃]
    exact ⟨(hroom₂.perm hperm).room, (hroom₂.perm hperm).holding⟩
  have hslot : k₃.fileDescriptors i = some (openedDescriptor i addr volume data) := by
    rw [← hk₃]
    show k₂.fileDescriptors i = _
    rw [kzalloc_table halloc, htable₁]
    exact Function.update_self ..
  obtain ⟨k₄, hclose, hroom₄, hmemory, hprocess⟩ :=
    @fclose_held volume data item _ copy n i addr [ptr] hi hslot hbody hheld
  have himage : (k₄.process process).image = ptr := by
    rw [hprocess, ← hk₃]
    show (Function.update k₂.process process _ process).image = ptr
    rw [Function.update_self]
    rfl
  have hstored : k₄.memory = storeBytes k₂.memory ptr bytes := by
    rw [hmemory, ← hk₃]
    rfl
  rw [← hk₃] at hclose
  refine ⟨k₄, ptr, k₂.memory, ?_, hroom₄, hstored, himage⟩
  have hok : ¬ (0 : Int) ≠ bimbleosAllOk := not_not_intro rfl
  have hone : ¬ (1 : Int) ≠ 1 := not_not_intro rfl
  unfold processLoadBinary
  rw [bind_of_ok hopen, if_neg (by omega), bind_of_ok hstat]
  show (if (0 : Int) ≠ bimbleosAllOk then _ else _ : KM Int) k₁ = _
  rw [if_neg hok, bind_of_ok halloc, if_neg hptr, bind_of_ok hread, if_neg hone, bind_of_ok modifyProcess_eq]
  refine (bind_of_ok hclose).trans ?_
  rfl

/-- **`process_load_data` loads a raw file**, into a block that is held. -/
theorem RawFile.loadData (h : RawFile drive filename volume item bytes) (hclean : k.heap.Clean)
    (hroom : k.heap.TailRoom (n + 19)) (hfirst : FirstFree k i) (hi : i < 511) :
    ∃ k' ptr size m, processLoadData drive filename process k = .ok (0, k') ∧ k'.Room [ptr] n ∧ ptr ≠ 0 ∧
      k'.memory = storeBytes m ptr bytes ∧
      Keeps (fun _ => True) (k.setProcess process ((k.process process).withBinary ptr size)) k' := by
  obtain ⟨k₁, hload, hroom₁⟩ := h.elfLoad hclean (hroom.mono (show n + 9 + 10 ≤ n + 19 by omega)) hfirst hi
  have htable : k₁.fileDescriptors = k.fileDescriptors := by
    cases elfLoad_run HeapRule.trivial True.intro hload with
    | failed _ hother => exact absurd rfl hother
    | refused hkeeps =>
        obtain ⟨_, heap, memory, rfl⟩ := hkeeps
        rfl
  obtain ⟨k₂, image, m, hbinary, hroom₂, hmemory, himage⟩ :=
    @RawFile.loadBinary drive filename volume item bytes k₁ n i process h hroom₁
    (hfirst.congr htable) hi
  have helf : processLoadElf drive filename process k = .ok (-EINFORMAT, k₁) := by
    unfold processLoadElf
    rw [bind_of_ok hload]
    rfl
  have hrun : processLoadData drive filename process k = .ok (0, k₂) := by
    unfold processLoadData
    rw [bind_of_ok helf, if_pos rfl]
    exact hbinary
  -- the outcome is not the one of an ELF file
  generalize hres : (0 : Int) = res at hrun
  cases processLoadData_run HeapRule.trivial True.intro hrun with
  | failed hneg => omega
  | elf hsame =>
      have hcode : (0 : Int) = -EINFORMAT :=
        (Prod.mk.inj (Prod.mk.inj (Except.ok.inj (hsame.symm.trans hload))).1).1
      exact absurd hcode (by decide)
  | @binary ptr size _ _ _ hne _ hkeeps =>
      obtain rfl : image = ptr := by
        obtain ⟨_, heap, memory, hk₂⟩ := hkeeps
        rw [← himage, hk₂]
        show (Function.update k.process process _ process).image = ptr
        rw [Function.update_self]
        rfl
      exact ⟨k₂, _, _, m, hrun, hroom₂, hne, hmemory, hkeeps⟩

end Progress

section Tag

variable {drive : Drive} {filename : List (BitVec 8)} {process : Nat} {k k' : Kernel} {res : Int} {p : Process}

/-- **The tag is right exactly for ELF files.** A process structure that was just cleared gets its program
    from a file; afterwards its tag names the member of the union that was written, and all later reads agree
    with it, exactly when the file starts with an ELF header that the kernel accepts. -/
theorem processLoadData_tag_iff (hclean : k.heap.Clean) (hfresh : k.process process = {})
    (hrun : processLoadData drive filename process k = .ok (res, k')) (hres : 0 ≤ res) :
    ∃ record k₁ fd k₂ entry bytes, kzalloc sizeofElfFile k = .ok (record, k₁) ∧
      fopen drive filename readMode k₁ = .ok (fd, k₂) ∧
      drive.entry filename = some entry ∧ drive.fileBytes filename = some bytes ∧
      (TagLaw (k'.process process) ∧ ReadersLaw process (k'.process process) ↔
        ElfAccepts (bytes ++ elfTail k₂ entry.filesize.toNat bytes.length)) := by
  cases processLoadData_run HeapRule.trivial True.intro hrun with
  | failed hneg => omega
  | @elf elfFile k₁ k' hload hne _ hkeeps =>
      obtain ⟨record, k₁, fd, k₂, entry, bytes, halloc, hopen, hentry, hbytes, haccepts⟩ :=
        elfLoad_accepts hclean hload (Or.inl rfl)
      refine ⟨record, k₁, fd, k₂, entry, bytes, halloc, hopen, hentry, hbytes, iff_of_true ?_ (haccepts.mp rfl)⟩
      obtain ⟨_, heap, memory, rfl⟩ := hkeeps
      have hlaw : TagLaw (Process.withElf {} elfFile) :=
        ⟨iff_of_true rfl rfl, iff_of_false (by decide : ¬ processFiletypeElf = processFiletypeBinary)
          (by decide : ¬ some ImageMember.elfFile = some ImageMember.ptr)⟩
      have hprocess : (k.setProcess process ((k.process process).withElf elfFile)).process process
          = Process.withElf {} elfFile := by
        rw [← hfresh]
        exact Function.update_self ..
      simp only [hprocess]
      exact ⟨hlaw, hlaw.readers⟩
  | @binary ptr size k₁ k' hload hne _ hkeeps =>
      obtain ⟨record, k₁, fd, k₂, entry, bytes, halloc, hopen, hentry, hbytes, haccepts⟩ :=
        elfLoad_accepts hclean hload (Or.inr rfl)
      refine ⟨record, k₁, fd, k₂, entry, bytes, halloc, hopen, hentry, hbytes, iff_of_false ?_ ?_⟩
      · -- the raw image is in the union, and the tag still says that it is a record
        obtain ⟨_, heap, memory, rfl⟩ := hkeeps
        have hprocess : (k.setProcess process ((k.process process).withBinary ptr size)).process process
            = Process.withBinary {} ptr size := by
          rw [← hfresh]
          exact Function.update_self ..
        simp only [hprocess]
        rintro ⟨hlaw, _⟩
        exact absurd (hlaw.elf.mp rfl) (by decide : ¬ some ImageMember.ptr = some ImageMember.elfFile)
      · rw [← haccepts]
        decide

end Tag

/-- The file on `splitDrive` is no ELF file. -/
theorem splitDrive_rawFile : RawFile splitDrive splitPath splitVolume splitFile (1 :: List.replicate 511 0) where
  toRootFile := splitDrive_rootFile
  pos := by decide
  small := by decide
  read := by decide +kernel
  header := by
    rw [List.length_cons, List.length_replicate]
    omega
  refused := by decide +kernel

/-- Loading it into the first process structure. -/
theorem splitDrive_loads : ∃ process k k' ptr size, process ≠ 0 ∧ k.heap.Clean ∧ k.process process = {} ∧
    processLoadData splitDrive splitPath process k = .ok (0, k') ∧ ptr ≠ 0 ∧
    Keeps (fun _ => True) (k.setProcess process ((k.process process).withBinary ptr size)) k' := by
  have hblocks : 20 + heapBlocks sizeofProcess < 25600 := by decide
  obtain ⟨process, k, halloc, hne, hroom, _⟩ := @kzalloc_tail 20 sizeofProcess (by decide) bootKernel
    ⟨bootKernel_tailRoom hblocks, fun hzero => absurd hzero (by decide)⟩
  obtain ⟨_, memory, hk⟩ := kzalloc_run halloc
  have hclean : k.heap.Clean := kzalloc_clean bootKernel_clean (by decide) halloc
  have hfresh : k.process process = {} := by
    rw [hk]
    rfl
  have hfirst : FirstFree k 0 := by
    rw [hk]
    exact ⟨by decide, rfl, fun j hj => absurd hj (Nat.not_lt_zero j)⟩
  obtain ⟨k', ptr, size, _, hrun, _, hptr, _, hkeeps⟩ :=
    @RawFile.loadData splitDrive splitPath splitVolume splitFile _ k 1 0
    process splitDrive_rawFile hclean hroom hfirst (by decide)
  exact ⟨process, k, k', ptr, size, hne, hclean, hfresh, hrun, hptr, hkeeps⟩

theorem processLoadData_tag_iff_raw : ∃ process k k', processLoadData splitDrive splitPath process k = .ok (0, k') ∧
    ∃ record k₁ fd k₂ entry bytes, kzalloc sizeofElfFile k = .ok (record, k₁) ∧
      fopen splitDrive splitPath readMode k₁ = .ok (fd, k₂) ∧
      splitDrive.entry splitPath = some entry ∧ splitDrive.fileBytes splitPath = some bytes ∧
      (TagLaw (k'.process process) ∧ ReadersLaw process (k'.process process) ↔
        ElfAccepts (bytes ++ elfTail k₂ entry.filesize.toNat bytes.length)) := by
  obtain ⟨process, k, k', _, _, _, hclean, hfresh, hrun, _⟩ := splitDrive_loads
  exact ⟨process, k, k', hrun, processLoadData_tag_iff hclean hfresh hrun (Int.le_refl 0)⟩

/-- The tag of a raw image says that it is the record of an ELF file. -/
theorem processLoadData_mistags : ¬ ∀ (drive : Drive) (filename : List (BitVec 8)) (process : Nat) (k k' : Kernel)
    (res : Int), k.heap.Clean → k.process process = {} →
    processLoadData drive filename process k = .ok (res, k') → 0 ≤ res →
    TagLaw (k'.process process) ∧ ReadersLaw process (k'.process process) := by
  intro h
  obtain ⟨process, k, k', ptr, size, _, hclean, hfresh, hrun, _, _, heap, memory, rfl⟩ := splitDrive_loads
  obtain ⟨hlaw, _⟩ := h splitDrive splitPath process k _ 0 hclean hfresh hrun (Int.le_refl 0)
  have hprocess : (k.setProcess process ((k.process process).withBinary ptr size)).process process
      = Process.withBinary {} ptr size := by
    rw [← hfresh]
    exact Function.update_self ..
  have htag := hlaw.elf
  simp only [hprocess] at htag
  exact absurd (htag.mp rfl) (by decide : ¬ some ImageMember.ptr = some ImageMember.elfFile)

end BimbleOS
