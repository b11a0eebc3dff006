import BimbleOS.Fs.FileBlocks
import BimbleOS.Task.LoadFailure
import BimbleOS.Lib.Trace
import BimbleOS.Task.ProcessEnd
import BimbleOS.Task.ProgramPages

/-!
# `Task.ProcessLeaks` — what is left of a process

From `process_load` to `process_terminate` a process leaves something behind. Nothing ever frees the process
structure, nor the path that `fopen` has parsed. The end of a program frees an address out of the file's first bytes
where the file is no ELF file; that may be any block of the heap. But wherever it is, a block that was free before is
taken afterwards, or one that was taken is free.
-/

namespace BimbleOS

open Bytes CWord Exec Transition

/-! ## The root of the path -/

section Rooted

variable {drive : Drive} {filename modeStr : List (BitVec 8)} {k k' : Kernel} {fd res : Int} {file process : Nat}

/-- An `fopen` that opens a file has allocated the root of its path before all else. -/
theorem fopen_opened (hrun : fopen drive filename modeStr k = .ok (fd, k')) (hfd : fd ≠ 0) :
    ∃ root k₁, kzalloc sizeofPathRoot k = .ok (root, k₁) ∧ root ≠ 0 ∧
      ∀ (P : Heap → Prop) (Ok : Nat → Prop), HeapRule P Ok → P k₁.heap → ∃ (i : Nat) (volume : FatVolume)
        (data : FatFileDescriptor), fd = i + 1 ∧ FileAt drive filename volume data ∧ Using P Ok k₁ i volume data k' := by
  have hpath : ¬ PathRejected filename := by
    intro h
    rw [fopen_rejected h] at hrun
    exact hfd (Prod.mk.inj (Except.ok.inj hrun)).1.symm
  obtain ⟨root, k₁, halloc, hroot, hafter⟩ := fopen_rooted hpath hrun
  refine ⟨root, k₁, halloc, hroot, ?_⟩
  intro P Ok hr hP
  rcases hafter P Ok hr hP with ⟨hzero, _⟩ | ⟨i, volume, data, hi, husing⟩
  · exact absurd hzero hfd
  rcases fopen_using HeapRule.trivial True.intro hrun with ⟨hzero, _⟩ | ⟨j, volume', data', hj, hfile, husing'⟩
  · exact absurd hzero hfd
  obtain rfl : j = i := by omega
  -- both describe what is in the table of open files
  obtain ⟨addr, _, _, _, hk⟩ := husing.kernel
  obtain ⟨addr', _, _, _, hk'⟩ := husing'.kernel
  have hentry : k'.fileDescriptors j = some (openedDescriptor j addr volume data) := by
    rw [hk]
    exact Function.update_self ..
  have hentry' : k'.fileDescriptors j = some (openedDescriptor j addr' volume' data') := by
    rw [hk']
    exact Function.update_self ..
  have hsame := Option.some.inj (hentry.symm.trans hentry')
  obtain rfl : volume = volume' := Option.some.inj (congrArg FileDescriptor.filesystem hsame)
  obtain rfl : data = data' := Option.some.inj (congrArg FileDescriptor.privateData hsame)
  exact ⟨j, volume, data, hi, hfile, husing⟩

/-- An `elf_load` that gets as far as the header has allocated a record and the root of the path, and then keeps what
    a client of the heap keeps. -/
theorem elfLoad_rooted (hrun : elfLoad drive filename k = .ok ((res, file), k')) (hres : res = 0 ∨ res = -EINFORMAT) :
    ∃ record k₁ root k₂, kzalloc sizeofElfFile k = .ok (record, k₁) ∧ kzalloc sizeofPathRoot k₁ = .ok (root, k₂) ∧
      root ≠ 0 ∧ (res = 0 → file = record ∧ record ≠ 0) ∧
      ∀ (P : Heap → Prop) (Ok : Nat → Prop), HeapRule P Ok → P k₂.heap → Keeps P k₂ k' := by
  obtain ⟨record, k₁, halloc, hrest⟩ := bind_eq_ok.mp hrun
  obtain ⟨fd, k₃, hopen, hopened⟩ := bind_eq_ok.mp hrest
  by_cases hfd : fd ≤ 0
  · rw [if_pos hfd] at hopened
    obtain ⟨code, k₄, _, hdone⟩ := bind_eq_ok.mp hopened
    cases hdone
    exact absurd hres (by decide)
  rw [if_neg hfd] at hopened
  obtain ⟨code, k₄, hread, hafter⟩ := bind_eq_ok.mp hopened
  obtain ⟨closed, k₅, hclose, hdone⟩ := bind_eq_ok.mp hafter
  have hlast : k₅ = k' ∧ res = code ∧ (res = 0 → file = record) := by
    by_cases hneg : code < 0
    · rw [if_pos hneg] at hdone
      cases hdone
      exact ⟨rfl, rfl, fun hzero => absurd hneg (by omega)⟩
    · rw [if_neg hneg] at hdone
      cases hdone
      exact ⟨rfl, rfl, fun _ => rfl⟩
  obtain ⟨rfl, rfl, hfile⟩ := hlast
  obtain ⟨root, k₂, hroot, hne, hopens⟩ := fopen_opened hopen (by omega)
  have hdoneRead : ∀ (P : Heap → Prop) (Ok : Nat → Prop), HeapRule P Ok → P k₂.heap →
      Keeps P k₂ k₅ ∧ record ≠ 0 := by
    intro P Ok hr hP
    obtain ⟨i, volume, data, rfl, hat, husing⟩ := hopens P Ok hr hP
    obtain ⟨husing₄, hcases⟩ := elfReadFile_run hr husing hat hread
    rcases hcases with ⟨hneg, hother⟩ | ⟨hi, size, base, bytes, m, hread, _⟩
    · rcases hres with hzero | hbad
      · omega
      · exact absurd hbad hother
    · exact ⟨(fclose_using hr husing₄ hclose).2.1 hi, hread.record⟩
  refine ⟨record, k₁, root, k₂, halloc, hroot, hne, ?_, fun P Ok hr hP => (hdoneRead P Ok hr hP).1⟩
  intro hzero
  exact ⟨hfile hzero, (hdoneRead _ _ HeapRule.trivial True.intro).2⟩

/-- What loading the data of a program leaves from the root on: the program's image, which is the record or was
    allocated later. -/
theorem processLoadData_rooted (hrun : processLoadData drive filename process k = .ok (0, k')) :
    ∃ record k₁ root k₂, kzalloc sizeofElfFile k = .ok (record, k₁) ∧ kzalloc sizeofPathRoot k₁ = .ok (root, k₂) ∧
      root ≠ 0 ∧ ∀ (P : Heap → Prop) (Ok : Nat → Prop), HeapRule P Ok → P k₂.heap → Ok record →
        P k'.heap ∧ Ok (k'.process process).image := by
  obtain ⟨res, k₃, helf, hrest⟩ := bind_eq_ok.mp hrun
  obtain ⟨⟨code, elfFile⟩, k₄, hload, hset⟩ := bind_eq_ok.mp helf
  change (if code < 0 then pure code else _ : KM Int) k₄ = _ at hset
  cases elfLoad_run HeapRule.trivial True.intro hload with
  | failed hneg hother =>
      rw [if_pos hneg] at hset
      cases hset
      rw [if_neg hother] at hrest
      cases hrest
      exact absurd hneg (by decide)
  | refused =>
      rw [if_pos (by decide)] at hset
      cases hset
      rw [if_pos rfl] at hrest
      obtain ⟨record, k₁, root, k₂, halloc, hroot, hne, _, hafter⟩ := elfLoad_rooted hload (Or.inr rfl)
      refine ⟨record, k₁, root, k₂, halloc, hroot, hne, fun P Ok hr hP _ => ?_⟩
      have hP₃ := (hafter P Ok hr hP).1
      rcases processLoadBinary_run hr hP₃ hrest with ⟨hneg, _⟩ | ⟨_, ptr, size, _, hptr, hP', _, _, rfl⟩
      · exact absurd hneg (by decide)
      · refine ⟨hP', ?_⟩
        have hself : (k₃.setProcess process ((k₃.process process).withBinary ptr size)).process process
            = (k₃.process process).withBinary ptr size := Function.update_self ..
        show Ok ((k₃.setProcess process ((k₃.process process).withBinary ptr size)).process process).image
        rw [hself]
        exact hptr
  | loaded =>
      rw [if_neg (Int.lt_irrefl 0)] at hset
      cases hset
      rw [if_neg (by decide)] at hrest
      cases hrest
      obtain ⟨record, k₁, root, k₂, halloc, hroot, hne, hrecord, hafter⟩ := elfLoad_rooted hload (Or.inl rfl)
      obtain ⟨rfl, _⟩ := hrecord rfl
      refine ⟨elfFile, k₁, root, k₂, halloc, hroot, hne, fun P Ok hr hP hok => ⟨(hafter P Ok hr hP).1, ?_⟩⟩
      have hself : (k₄.setProcess process ((k₄.process process).withElf elfFile)).process process
          = (k₄.process process).withElf elfFile := Function.update_self ..
      show Ok ((k₄.setProcess process ((k₄.process process).withElf elfFile)).process process).image
      rw [hself]
      exact hok

end Rooted

/-! ## From the start of a process to its end -/

/-- What a process does while it lives: its calls, and its own writes to memory. -/
inductive ProcessCall where
  | malloc (size : Nat)
  | free (ptr : Nat)
  | injectArguments (rootArgument : Nat)
  | writes (memory : Mem)

/-- A call that returns. -/
inductive ProcessStep (process : Nat) : Kernel → ProcessCall → Kernel → Prop where
  | malloc {k k' : Kernel} {size ptr : Nat} (hsize : size < 4294967296)
      (hrun : processMalloc process size k = .ok (ptr, k')) : ProcessStep process k (.malloc size) k'
  | free {k k' : Kernel} {ptr : Nat} (hrun : processFree process ptr k = .ok ((), k')) :
      ProcessStep process k (.free ptr) k'
  | injectArguments {k k' : Kernel} {rootArgument : Nat} {res : Int}
      (hrun : processInjectArguments process rootArgument k = .ok (res, k')) :
      ProcessStep process k (.injectArguments rootArgument) k'
  | writes {k : Kernel} (memory : Mem) : ProcessStep process k (.writes memory) { k with memory := memory }

section Life

variable {P : Heap → Prop} {Ok : Nat → Prop} {drive : Drive} {filename : List (BitVec 8)} {process image : Nat}
  {k k' k₀ k₁ k₂ k₃ : Kernel} {call : ProcessCall} {calls : List (Kernel × ProcessCall)}

theorem Owns.step (hr : ReadyRule P Ok) (h : Owns P Ok process image k) (hstep : ProcessStep process k call k') :
    Owns P Ok process image k' := by
  cases hstep with
  | malloc hsize hrun => exact processMalloc_owns hr hsize k _ k' h hrun
  | free hrun => exact processFree_owns hr k _ k' h hrun
  | injectArguments hrun => exact processInjectArguments_owns hr k _ k' h hrun
  | writes memory => exact h.setHeap h.heap

/-- **The whole life of a process**: its calls keep what it owns. -/
theorem Owns.run (hr : ReadyRule P Ok) (h : Owns P Ok process image k)
    (hcalls : Trace (ProcessStep process) k calls k') : Owns P Ok process image k' := by
  have hpres : ∀ s e s', Owns P Ok process image s → True → ProcessStep process s e s' → Owns P Ok process image s' :=
    fun _ _ _ h _ hstep => h.step hr hstep
  exact (Trace.invariant hpres h hcalls fun _ _ => True.intro).2

/-- An answer of the heap is a block that was free and is taken now, or the null pointer. -/
theorem kzalloc_block {size ptr : Nat} (hclean : k.heap.Clean) (h₁ : 1 ≤ size) (h₂ : size ≤ 0xFFFFF000)
    (hrun : kzalloc size k = .ok (ptr, k')) : ptr = 0 ∨ kfreeBlock ptr ∈ k'.heap.taken \ k.heap.taken := by
  by_cases hnull : ptr = 0
  · exact Or.inl hnull
  · exact Or.inr (kzalloc_fresh hclean h₁ h₂ hrun hnull)

/-- What was taken since `T` stays closed. -/
theorem kzalloc_more {size ptr : Nat} {T : Set Nat} (hclean : k.heap.Clean) (hclosed : k.heap.Closed (k.heap.taken \ T))
    (hT : T ⊆ k.heap.taken) (hsize : size < 4294967296) (hrun : kzalloc size k = .ok (ptr, k')) :
    k'.heap.Clean ∧ k'.heap.Closed (k'.heap.taken \ T) ∧ k.heap.taken ⊆ k'.heap.taken := by
  obtain ⟨_, memory, rfl⟩ := kzalloc_run hrun
  exact ⟨(cleanRule.malloc hclean hsize).1, hclosed.more hclean hT hsize,
    fun b hb => (hclean.ready.malloc_taken hsize hb).1⟩

/-- **From the start of a process to its end.** Its structure, the record of its file and the root of its path are
    allocated. `image` and `wild` are the pointers that are freed with the program. -/
theorem process_life (hready : k₀.heap.Ready) (hload : processLoad drive filename k₀ = .ok ((0, process), k₁))
    (hcalls : Trace (ProcessStep process) k₁ calls k₂) (hend : processTerminate process k₂ = .ok (0, k₃)) :
    ∃ (kProcess kRecord kRoot : Kernel) (record root image wild : Nat) (ptrs : List Nat),
      kzalloc sizeofProcess k₀ = .ok (process, kProcess) ∧ process ≠ 0 ∧
      kzalloc sizeofElfFile (kProcess.setProcess process {}) = .ok (record, kRecord) ∧
      kzalloc sizeofPathRoot kRecord = .ok (root, kRoot) ∧ root ≠ 0 ∧
      (∀ ptr ∈ ptrs, ptr = image ∨ ptr = wild) ∧ (∀ ptr ∈ ptrs, kfreeBlock ptr ∉ k₃.heap.taken) ∧
      ∀ (P : Heap → Prop) (Ok : Nat → Prop), ReadyRule P Ok → P kRoot.heap → Ok record →
        Ok image ∧ ((∀ ptr ∈ ptrs, Ok ptr) → P k₃.heap) := by
  obtain ⟨kProcess, kData, hprocess, hne, hdata, hheap, _, howns⟩ := processLoad_owns hready hload
  obtain ⟨record, kRecord, root, kRoot, hrecord, hroot, hrootNe, hafter⟩ := processLoadData_rooted hdata
  obtain ⟨t₁, t₂, t₃, hloop, hfreed, htask, hunlink⟩ := processTerminate_run hend
  rcases processFreeProgramData_pointers hfreed with ⟨hneg, _⟩ | ⟨_, reads, rfl⟩
  · exact absurd hneg (Int.lt_irrefl 0)
  have hptrs : ∀ ptr ∈ t₁.programPointers process, ptr = (t₁.process process).image ∨
      ptr = elfMemory t₁.memory (t₁.process process).image := fun ptr hptr => Kernel.mem_programPointers hptr
  generalize t₁.programPointers process = ptrs at htask hptrs
  have hroot₀ : kRoot.heap.Ready := by
    obtain ⟨_, _, rfl⟩ := kzalloc_run hprocess
    obtain ⟨_, _, rfl⟩ := kzalloc_run hrecord
    obtain ⟨_, _, rfl⟩ := kzalloc_run hroot
    exact (heapMalloc_ready (heapMalloc_ready (heapMalloc_ready hready).1).1).1
  -- what the process owns when its allocations are gone
  have howned : ∀ (P : Heap → Prop) (Ok : Nat → Prop), ReadyRule P Ok → P kRoot.heap → Ok record →
      Ok (kData.process process).image ∧ Owns P Ok process (kData.process process).image t₁ := by
    intro P Ok hr hP hok
    obtain ⟨hP', himage⟩ := hafter P Ok hr.toHeapRule hP hok
    exact ⟨himage, processTerminateAllocations_owns hr k₂ _ t₁ ((howns.of_answers hr hP' hheap).run hr hcalls) hloop⟩
  obtain ⟨_, hready₁⟩ := howned _ _ readyRule hroot₀ True.intro
  refine ⟨kProcess, kRecord, kRoot, record, root, (kData.process process).image,
    elfMemory t₁.memory (t₁.process process).image, ptrs, hprocess, hne, hrecord, hroot, hrootNe, ?_, ?_, ?_⟩
  · intro ptr hptr
    rw [← hready₁.image]
    exact hptrs ptr hptr
  · intro ptr hptr
    exact terminated_free (hready₁.heap.freeAll ptrs) (hready₁.heap.freeAll_self hptr) htask hunlink
  · intro P Ok hr hP hok
    obtain ⟨himage, howns₁⟩ := howned P Ok hr hP hok
    refine ⟨himage, fun hall => ?_⟩
    have howns₂ : Owns P Ok process (kData.process process).image
        { t₁ with heap := t₁.heap.freeAll ptrs, unionReads := reads } :=
      howns₁.change (hr.freeAll howns₁.heap hall) rfl (SameDirs.refl howns₁.dirs) howns₁.image rfl rfl howns₁.slots
    exact howns₂.terminated hr htask hunlink

end Life

/-- Where `elf_close` misses the blocks that were taken when the process had its structure, the structure stays. Where
    it hits one of the blocks that were taken before, that block is free. Where it hits the structure, the root of the
    path stays. -/
theorem process_life_changes {drive : Drive} {filename : List (BitVec 8)} {process : Nat} {k₀ k₁ k₂ k₃ : Kernel}
    {calls : List (Kernel × ProcessCall)} (hclean : k₀.heap.Clean)
    (hload : processLoad drive filename k₀ = .ok ((0, process), k₁))
    (hcalls : Trace (ProcessStep process) k₁ calls k₂) (hend : processTerminate process k₂ = .ok (0, k₃)) :
    ∃ b, (b ∉ k₀.heap.taken ∧ b ∈ k₃.heap.taken) ∨ (b ∈ k₀.heap.taken ∧ b ∉ k₃.heap.taken) := by
  obtain ⟨kProcess, kRecord, kRoot, record, root, image, wild, ptrs, hprocess, hne, hrecord, hroot, hrootNe, hptrs,
    hfreed, hkeeps⟩ := process_life hclean.ready hload hcalls hend
  obtain ⟨hclean₁, b, hb₀, hb₁⟩ := kzalloc_taken hclean (by decide) (by decide) hprocess hne
  obtain ⟨_, hclosed₁, hsub₁⟩ := kzalloc_more hclean k₀.heap.closed_none subset_rfl (by decide) hprocess
  have hclean₁' : (kProcess.setProcess process {}).heap.Clean := hclean₁
  obtain ⟨hclean₂, hclosed₂, hsub₂⟩ := kzalloc_more hclean₁' hclosed₁ hsub₁ (by decide) hrecord
  have hblock := kzalloc_block hclean₁' (by decide) (by decide) hrecord
  obtain ⟨hclean₃, c, hc₂, hc₃⟩ := kzalloc_taken hclean₂ (by decide) (by decide) hroot hrootNe
  -- with the structure's blocks in the shield, `image` is elsewhere
  have hrule₁ := shieldedRule kProcess.heap.taken { b | b ∈ kProcess.heap.taken ∧ ¬ kProcess.heap.table.HasNext b }
  obtain ⟨hrecordOk₁, hkept₂⟩ := kzalloc_keeps hrule₁.toHeapRule (by decide) (kProcess.setProcess process {}) record
    kRecord (Keeps.refl hclean₁.shields) hrecord
  obtain ⟨_, hkept₃⟩ := kzalloc_keeps hrule₁.toHeapRule (by decide) kRecord root kRoot (Keeps.refl hkept₂.1) hroot
  obtain ⟨himage, hstays⟩ := hkeeps _ _ hrule₁ hkept₃.1 hrecordOk₁
  by_cases hhit : ∃ ptr ∈ ptrs, kfreeBlock ptr ∈ kProcess.heap.taken
  · obtain ⟨ptr, hptr, hin⟩ := hhit
    obtain rfl : ptr = wild := by
      rcases hptrs ptr hptr with rfl | hwild
      · exact absurd hin himage
      · exact hwild
    by_cases hold : kfreeBlock ptr ∈ k₀.heap.taken
    · exact ⟨_, Or.inr ⟨hold, hfreed ptr hptr⟩⟩
    · -- the root of the path is in the shield, the structure and the record are not
      have hclosed₃ : kRoot.heap.Closed (kRecord.heap.taken \ k₀.heap.taken) := by
        obtain ⟨_, _, rfl⟩ := kzalloc_run hroot
        exact hclosed₂.malloc hclean₂.ready (by decide)
      have hrule := shieldedRule (kRoot.heap.taken \ (kRecord.heap.taken \ k₀.heap.taken)) ∅
      have hrecordOk : Misses (kRoot.heap.taken \ (kRecord.heap.taken \ k₀.heap.taken)) record := by
        intro hmem
        rcases hblock with rfl | hnew
        · have hbound := hmem.1.1
          have htotal := hclean₃.ready.total
          rw [kfreeBlock_null] at hbound
          omega
        · exact hmem.2 ⟨hnew.1, fun hin => hnew.2 (hsub₁ hin)⟩
      obtain ⟨himage₃, hstays₃⟩ := hkeeps _ _ hrule (hclosed₃.shields hclean₃) hrecordOk
      have hend₃ := hstays₃ fun q hq => by
        rcases hptrs q hq with rfl | rfl
        · exact himage₃
        · exact fun hmem => hmem.2 ⟨hsub₂ hin, hold⟩
      have hleft := hend₃.taken ⟨hc₃, fun hmem => hc₂ hmem.1⟩
      exact ⟨c, Or.inl ⟨fun hmem => hc₂ (hsub₂ (hsub₁ hmem)), hleft⟩⟩
  · have hend₁ := hstays fun ptr hptr hin => hhit ⟨ptr, hptr, hin⟩
    exact ⟨b, Or.inl ⟨hb₀, hend₁.taken hb₁⟩⟩

/-- **A process never leaves the heap as it found it.** -/
theorem processTerminate_leaks {drive : Drive} {filename : List (BitVec 8)} {process : Nat} {k₀ k₁ k₂ k₃ : Kernel}
    {calls : List (Kernel × ProcessCall)} (hclean : k₀.heap.Clean)
    (hload : processLoad drive filename k₀ = .ok ((0, process), k₁))
    (hcalls : Trace (ProcessStep process) k₁ calls k₂) (hend : processTerminate process k₂ = .ok (0, k₃)) :
    k₃.heap.taken ≠ k₀.heap.taken := by
  intro hsame
  obtain ⟨b, hchanged⟩ := process_life_changes hclean hload hcalls hend
  rw [hsame] at hchanged
  rcases hchanged with ⟨hfree, htaken⟩ | ⟨htaken, hfree⟩
  · exact hfree htaken
  · exact hfree htaken

/-! A process that is started and ended while another one is alive. -/

def secondKernel : Kernel := { bootKernel with processes := fun i => if i = 1 then 0x2000 else 0 }

theorem secondKernel_other : secondKernel.processes 1 ≠ 0 := by
  show (0x2000 : Nat) ≠ 0
  decide

theorem secondKernel_prefix : ∃ r k, loadPrefix heapElfDrive splitPath 0 secondKernel = .ok (r, k) ∧
    segmentCheck heapElf r k = true :=
  exists_of_check (by decide +kernel)

/-- It is loaded, allocates a byte and gives it back, and ends. -/
theorem secondKernel_life : ∃ k₁ ptr calls k₂ k₃, processLoad heapElfDrive splitPath secondKernel
      = .ok ((0, 0x1000000), k₁) ∧
    Trace (ProcessStep 0x1000000) k₁ calls k₂ ∧ calls.map Prod.snd = [.malloc 1, .free ptr] ∧ ptr ≠ 0 ∧
    processTerminate 0x1000000 k₂ = .ok (0, k₃) := by
  obtain ⟨r, k₄, hsteps, hcheck⟩ := secondKernel_prefix
  obtain ⟨hplaced, hcount⟩ := segmentCheck_blocks hcheck
  have hclean : secondKernel.heap.Clean := bootKernel_clean
  have hfirst : FirstSlot secondKernel 0 := ⟨by decide, rfl, fun j hj => absurd hj (Nat.not_lt_zero j)⟩
  obtain ⟨k₁, hload, hblocks, hshelter, hsegment⟩ :=
    segment_loads_of heapElf_segment hclean hfirst hsteps hplaced (by omega)
  obtain ⟨slot, hslot, hplacedAt, hprocesses⟩ := processLoad_placed hclean.ready hload
  have hother : (1 : Nat) ≠ slot := by
    rintro rfl
    exact secondKernel_other hslot.free
  have hends : k₁.CanTerminate 0x1000000 := by
    refine ⟨by decide, hplacedAt.task_ne, hplacedAt.directory_ne, Or.inr hsegment.filetype, ?_, 1, by decide, ?_, ?_⟩
    · rw [hplacedAt.id]
      exact hslot.lt
    · rw [hplacedAt.id]
      exact hother
    · rw [hprocesses, Function.update_of_ne hother]
      exact secondKernel_other
  -- its two calls
  obtain ⟨b, _, _, _, hmalloc⟩ := processMalloc_one hshelter.shields.ready (Nat.le_refl 1) (by decide) (by omega)
    hplacedAt.task_ne (processFindFreeAllocationIndex_none (processLoad_fresh hclean.ready hload).1)
  have hptr : runAddress ⟨b, 1⟩ = 0x1000000 + 4096 * b := rfl
  have hmallocated : k₁.Terminating 0x1000000
      (k₁.afterMalloc 0x1000000 1 ⟨b, 1⟩ 0 (fill k₁.memory (runAddress ⟨b, 1⟩) 1 0)) := by
    refine ⟨rfl, rfl, Function.update (k₁.process 0x1000000).allocations 0 ⟨runAddress ⟨b, 1⟩, 1⟩, ?_⟩
    simp only [Kernel.afterMalloc, Function.update_self]
  obtain ⟨_, k₂, hfree, hfreed⟩ :=
    @processFree_total k₁ 0x1000000 (runAddress ⟨b, 1⟩) hplacedAt.task_ne _ hmallocated
  obtain ⟨k₃, hend, _⟩ := processTerminate_ok (hfreed.canTerminate hends)
  refine ⟨k₁, _, _, k₂, k₃, hload, (Trace.nil.snoc (.malloc (by decide) hmalloc)).snoc (.free hfree), rfl, ?_, hend⟩
  omega

theorem processTerminate_leaks_second : ∃ k₁ ptr calls k₂ k₃,
    processLoad heapElfDrive splitPath secondKernel = .ok ((0, 0x1000000), k₁) ∧
    Trace (ProcessStep 0x1000000) k₁ calls k₂ ∧ calls.map Prod.snd = [.malloc 1, .free ptr] ∧ ptr ≠ 0 ∧
    processTerminate 0x1000000 k₂ = .ok (0, k₃) ∧ k₃.heap.taken ≠ secondKernel.heap.taken := by
  obtain ⟨k₁, ptr, calls, k₂, k₃, hload, hcalls, hevents, hptr, hend⟩ := secondKernel_life
  have hclean : secondKernel.heap.Clean := bootKernel_clean
  exact ⟨k₁, ptr, calls, k₂, k₃, hload, hcalls, hevents, hptr, hend, processTerminate_leaks hclean hload hcalls hend⟩

/-- The end of a process does not give back its structure. -/
theorem processTerminate_keeps_structure : ¬ ∀ (drive : Drive) (filename : List (BitVec 8)) (process : Nat)
    (k₀ k₁ k₂ k₃ : Kernel) (calls : List (Kernel × ProcessCall)), k₀.heap.Clean →
    (∃ i, i < bimbleosMaxProcesses ∧ k₀.processes i ≠ 0) → processLoad drive filename k₀ = .ok ((0, process), k₁) →
    Trace (ProcessStep process) k₁ calls k₂ → processTerminate process k₂ = .ok (0, k₃) →
    k₃.heap.taken = k₀.heap.taken := by
  intro h
  obtain ⟨k₁, _, calls, k₂, k₃, hload, hcalls, _, _, hend⟩ := secondKernel_life
  have hclean : secondKernel.heap.Clean := bootKernel_clean
  obtain ⟨b, hchanged⟩ := process_life_changes hclean hload hcalls hend
  have hsame := h _ _ _ secondKernel k₁ k₂ k₃ calls hclean ⟨1, by decide, secondKernel_other⟩ hload hcalls hend
  rw [hsame] at hchanged
  rcases hchanged with ⟨hfree, htaken⟩ | ⟨htaken, hfree⟩
  · exact hfree htaken
  · exact hfree htaken

end BimbleOS
