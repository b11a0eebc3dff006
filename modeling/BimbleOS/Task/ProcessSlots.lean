import Mathlib.Order.CompletePartialOrder
import BimbleOS.Lib.Trace
import BimbleOS.Task.LoadFrame
import BimbleOS.Task.ProcessMemory

/-!
# `Task.ProcessSlots` — `processes[]` over runs of `process_load_switch` and `process_terminate`

Every slot that is in use holds a process with the slot's number and with a task of its own (`SlotsLaw`). A process
keeps the blocks that were taken in its load; the end of another process gives back blocks of that one, and the two
pointers that `elf_close` reads. For a raw image these are bytes of the file. The law holds in every run in which
`elf_close` spares the blocks of the other processes (`processSlots_law`).
-/

namespace BimbleOS

open Bytes CWord Exec Transition

/-! ## The end of a process that has allocated nothing -/

section Terminate

variable {process left i : Nat} {k k' : Kernel} {res : Int}

/-- Freeing the null pointer of an empty table changes nothing. -/
theorem processFree_null (hready : k.heap.Ready) (htask : (k.process process).task ≠ 0)
    (hslots : (k.process process).allocations = fun _ => {}) : processFree process 0 k = .ok ((), k) := by
  have hempty : ∀ i, (k.process process).allocations i = {} := fun i => by rw [hslots]
  have hfind : processGetAllocationByAddr (k.process process) 0 = some {} := by
    obtain ⟨j, _, _, hfind⟩ := @processGetAllocationByAddr_of_slot 0 (k.process process) (by decide)
    rwa [hempty, hempty] at hfind
  have hmap : pagingMapTo k.pages (k.directoryOf process) 0 0 (pagingAlignAddress (u32 ((0 + 0 : Nat) : Int))) 0x00
      = (0, k.pages) := rfl
  have hunjoin := @processAllocationUnjoin_null (k.process process) fun i _ _ => hempty i
  rw [processFree_of_ok hfind htask hmap, hready.free_null, hunjoin, Function.update_eq_self]

theorem processTerminateAllocations_empty (hready : k.heap.Ready) (htask : (k.process process).task ≠ 0)
    (hslots : (k.process process).allocations = fun _ => {}) : processTerminateAllocations process k = .ok (0, k) := by
  have hloop : ∀ left i, processTerminateLoop process left i k = .ok ((), k) := by
    intro left
    induction left with
    | zero => exact fun i => rfl
    | succ left ih =>
        intro i
        have hptr : ((k.process process).allocations i).ptr = 0 := by rw [hslots]
        rw [processTerminateLoop, get_bind, hptr, bind_of_ok (processFree_null hready htask hslots)]
        exact ih (i + 1)
  unfold processTerminateAllocations
  rw [bind_of_ok (hloop _ 0)]
  rfl

/-- **A run of `process_terminate`** of a process that has allocated nothing. -/
theorem processTerminate_empty (hready : k.heap.Ready) (htask : (k.process process).task ≠ 0)
    (hslots : (k.process process).allocations = fun _ => {}) (hrun : processTerminate process k = .ok (res, k')) :
    (res < 0 ∧ k' = k) ∨ ∃ reads k₁, Kernel.taskFree (k.process process).task { k with
        heap := heapFree (k.heap.freeAll (k.programPointers process)) (k.process process).stack
        unionReads := reads } = .ok ((), k₁) ∧ processUnlink process k₁ = .ok ((), k') := by
  unfold processTerminate at hrun
  obtain ⟨_, k₀, hderef, hrest⟩ := bind_eq_ok.mp hrun
  obtain ⟨_, rfl⟩ := deref_run hderef
  rw [bind_of_ok (processTerminateAllocations_empty hready htask hslots), if_neg (Int.lt_irrefl 0)] at hrest
  obtain ⟨res₁, k₂, hdata, hafter⟩ := bind_eq_ok.mp hrest
  rcases processFreeProgramData_pointers hdata with ⟨hneg, rfl⟩ | ⟨rfl, reads, rfl⟩
  · rw [if_pos hneg] at hafter
    cases hafter
    exact Or.inl ⟨hneg, rfl⟩
  rw [if_neg (Int.lt_irrefl 0), get_bind] at hafter
  obtain ⟨_, k₃, hstack, hstacked⟩ := bind_eq_ok.mp hafter
  cases hstack
  rw [get_bind] at hstacked
  obtain ⟨_, k₄, hfree, hfreed⟩ := bind_eq_ok.mp hstacked
  obtain ⟨_, k₅, hunlink, hdone⟩ := bind_eq_ok.mp hfreed
  cases hdone
  exact Or.inr ⟨reads, k₄, hfree, hunlink⟩

end Terminate

/-! ## What a process owns -/

/-- The blocks `B` were taken in the load of `process`; the end of the process gives back blocks of `B`, apart from its
    program. -/
structure OwnBlocks (k : Kernel) (B : Set Nat) (process : Nat) : Prop where
  taken : B ⊆ k.heap.taken
  self : kfreeBlock process ∈ B
  task_ne : (k.process process).task ≠ 0
  slots : (k.process process).allocations = fun _ => {}
  page : k.directoryOf process % 4096 = 0
  inner : ∃ S image, S ⊆ B ∧ k.heap.Closed S ∧ Owns (fun _ => True) (fun ptr => kfreeBlock ptr ∈ S) process image k

section Own

variable {drive : Drive} {filename : List (BitVec 8)} {k k' : Kernel} {B : Set Nat} {process q : Nat}

theorem OwnBlocks.task (h : OwnBlocks k B q) : kfreeBlock (k.process q).task ∈ k.heap.taken := by
  obtain ⟨S, _, hS, _, howns⟩ := h.inner
  exact h.taken (hS howns.task)

/-- The pages of its directory are taken. -/
theorem OwnBlocks.within (h : OwnBlocks k B q) : k.pages.Within k.heap.takenPages (k.directoryOf q) := by
  obtain ⟨S, _, hS, _, howns⟩ := h.inner
  have hmem : ∀ a, a % 4096 = 0 → kfreeBlock a ∈ S → a ∈ k.heap.takenPages := fun a ha hb => ⟨ha, h.taken (hS hb)⟩
  refine ⟨hmem _ h.page howns.pages.chunk, hmem _ (howns.dirs.aligned _ rfl) howns.pages.directory, fun i hi => ?_⟩
  exact hmem _ (PageStore.table_aligned ..) (howns.pages.table i hi)

theorem OwnBlocks.dirs (h : OwnBlocks k B q) : DirsOk k.pages (· = k.directoryOf q) := by
  obtain ⟨_, _, _, _, howns⟩ := h.inner
  exact howns.dirs

/-- What leaves the process and its blocks alone. -/
theorem OwnBlocks.frame (h : OwnBlocks k B q) (hprocess : k'.process q = k.process q)
    (htask : (k.tasks.task (k.process q).task).SameBut (k'.tasks.task (k.process q).task))
    (hpages : SameDirs (· = k.directoryOf q) k.pages k'.pages) (htaken : B ⊆ k'.heap.taken)
    (hclosed : ∀ S, S ⊆ B → k.heap.Closed S → k'.heap.Closed S) : OwnBlocks k' B q := by
  have hdirectory : k'.directoryOf q = k.directoryOf q := by
    obtain ⟨next, prev, hsame⟩ := htask
    unfold Kernel.directoryOf
    rw [hprocess, hsame]
  obtain ⟨S, image, hS, hSclosed, howns⟩ := h.inner
  refine ⟨htaken, h.self, ?_, ?_, ?_, S, image, hS, hclosed S hS hSclosed, ?_⟩
  · rw [hprocess]
    exact h.task_ne
  · rw [hprocess]
    exact h.slots
  · rw [hdirectory]
    exact h.page
  · refine ⟨True.intro, ?_, ?_, ?_, ?_, ?_, fun i _ => Or.inl ?_⟩
    · rw [hprocess]
      exact howns.image
    · rw [hprocess]
      exact howns.stack
    · rw [hprocess]
      exact howns.task
    · rw [hdirectory]
      exact howns.pages.same hpages rfl
    · rw [hdirectory]
      exact hpages.ok
    · rw [hprocess, h.slots]

/-- **A load leaves the other processes alone.** -/
theorem OwnBlocks.load (h : OwnBlocks k B q) (hclean : k.heap.Clean) (hq : q ≠ 0) (hload : LoadKeeps process k k') :
    q ≠ process ∧ OwnBlocks k' B q := by
  have hne : q ≠ process := by
    rintro rfl
    exact (hload.fresh.resolve_left hq) (h.taken h.self)
  have hkept := hload.heap _ _ (keptReadyRule k.heap.taken k.heap) hclean.shields.kept
  refine ⟨hne, h.frame (hload.others q hne) (hload.task _ h.task) (hload.pages _ h.dirs h.within) ?_ ?_⟩
  · exact h.taken.trans hkept.shields.taken
  · exact fun S hS hclosed => hclosed.kept (hS.trans h.taken) hkept

/-- **What a new process owns** are the blocks that were taken in its load. -/
theorem processLoad_ownBlocks (hclean : k.heap.Clean) (hrun : processLoad drive filename k = .ok ((0, process), k')) :
    OwnBlocks k' (k'.heap.taken \ k.heap.taken) process := by
  obtain ⟨k₁, k₂, halloc, hne, hdata, hheap, hnonzero, howns⟩ := processLoad_owns hclean.ready hrun
  have hfresh := kzalloc_fresh hclean (by decide) (by decide) halloc hne
  have hclean₁ : (k₁.setProcess process {}).heap.Clean :=
    show k₁.heap.Clean from kzalloc_clean hclean (by decide) halloc
  have hsub₁ : k.heap.taken ⊆ k₁.heap.taken := by
    obtain ⟨_, _, rfl⟩ := kzalloc_run halloc
    exact fun b hb => (hclean.ready.malloc_taken (by decide) hb).1
  have hclean₂ := (processLoadData_keeps cleanRule hclean₁ hdata).1
  have hsub₂ : k₁.heap.taken ⊆ k₂.heap.taken :=
    (processLoadData_keeps (shieldRule k₁.heap.taken _) hclean₁.shields hdata).1.taken
  have hsizes : ∀ size ∈ processSizes, size < 4294967296 := by
    intro size hsize
    have hrange := processSizes_range size hsize
    omega
  obtain ⟨_, hsub, hclosed⟩ := hclean₂.after k₂.heap.closed_none subset_rfl hsizes
  have hnew := hclean₂.answers_new (fun size hsize => by have hrange := processSizes_range size hsize; omega) hnonzero
  rw [← hheap] at hsub hclosed hnew
  have haligned := hclean₂.ready.answers_aligned processSizes _ howns.pages.chunk
  have hready₁ := processLoad_fresh hclean.ready hrun
  refine ⟨Set.sdiff_subset, ⟨hsub (hsub₂ hfresh.1), hfresh.2⟩, hready₁.2, hready₁.1, haligned, _, _, ?_, hclosed,
    howns.imp True.intro hnew⟩
  exact fun b hb => ⟨hb.1, fun hin => hb.2 (hsub₂ (hsub₁ hin))⟩

end Own

/-! ## The law of the slots -/

/-- The kernel; as ghosts, the blocks that were taken in the load of each process, and `processes[]` before the last
    call. -/
structure SlotState where
  kernel : Kernel
  own : Nat → Set Nat
  before : Nat → Nat

inductive SlotCall where
  | loadSwitch (filename : List (BitVec 8))
  | terminate (process : Nat)

/-- A call that returns. -/
inductive SlotStep (drive : Drive) : SlotState → SlotCall → SlotState → Prop where
  | loaded {s : SlotState} {filename : List (BitVec 8)} {process : Nat} {k : Kernel}
      (hrun : processLoadSwitch drive filename s.kernel = .ok ((0, process), k)) :
      SlotStep drive s (.loadSwitch filename)
        ⟨k, Function.update s.own process (k.heap.taken \ s.kernel.heap.taken), s.kernel.processes⟩
  | failed {s : SlotState} {filename : List (BitVec 8)} {process : Nat} {res : Int} {k : Kernel} (hres : res ≠ 0)
      (hrun : processLoadSwitch drive filename s.kernel = .ok ((res, process), k)) :
      SlotStep drive s (.loadSwitch filename) ⟨k, s.own, s.kernel.processes⟩
  | terminated {s : SlotState} {process : Nat} {res : Int} {k : Kernel} (hlive : s.kernel.Live process)
      (hrun : processTerminate process s.kernel = .ok (res, k)) :
      SlotStep drive s (.terminate process) ⟨k, s.own, s.kernel.processes⟩

/-- A slot that is in use holds a process with its number and with a task of its own, no process is in two slots, the
    current process is in a slot, and the last call has changed one slot at most. -/
structure SlotsLaw (s : SlotState) : Prop where
  placed : ∀ i, i < bimbleosMaxProcesses → s.kernel.processes i ≠ 0 → Placed (s.kernel.processes i) i s.kernel
  apart : ∀ i j, i < bimbleosMaxProcesses → j < bimbleosMaxProcesses → s.kernel.processes i ≠ 0 →
    s.kernel.processes i = s.kernel.processes j → i = j
  current : s.kernel.currentProcess = 0 ∨ s.kernel.Live s.kernel.currentProcess
  one : ∃ i, ∀ j, j ≠ i → s.kernel.processes j = s.before j

/-- `elf_close` gives back no block that was taken in the load of another process. -/
def SlotCall.Spares (s : SlotState) : SlotCall → Prop
  | .loadSwitch _ => True
  | .terminate process => ∀ q, s.kernel.Live q → q ≠ process → ∀ ptr ∈ s.kernel.programPointers process,
      Disjoint (s.kernel.heap.blocksFrom ptr) (s.own q)

/-- Nothing is loaded yet. -/
structure SlotStart (s : SlotState) : Prop where
  clean : s.kernel.heap.Clean
  empty : ∀ i, s.kernel.processes i = 0
  current : s.kernel.currentProcess = 0
  before : s.before = s.kernel.processes

/-- The law, and what it rests on: the processes own blocks that are apart. -/
structure SlotInv (s : SlotState) : Prop where
  clean : s.kernel.heap.Clean
  law : SlotsLaw s
  own : ∀ q, s.kernel.Live q → OwnBlocks s.kernel (s.own q) q
  disjoint : ∀ p q, s.kernel.Live p → s.kernel.Live q → p ≠ q → Disjoint (s.own p) (s.own q)

section Runs

variable {drive : Drive} {filename : List (BitVec 8)} {k k₁ k' : Kernel} {B : Set Nat} {process q i : Nat}
  {s s' : SlotState} {c : SlotCall} {res : Int} {reads : List (ImageMember × Option ImageMember)}

theorem Placed.frame (h : Placed q i k) (hprocess : k'.process q = k.process q)
    (htask : (k.tasks.task (k.process q).task).SameBut (k'.tasks.task (k.process q).task)) : Placed q i k' := by
  obtain ⟨next, prev, hsame⟩ := htask
  refine ⟨?_, ?_, ?_, ?_⟩
  · rw [hprocess]
    exact h.id
  · rw [hprocess]
    exact h.task_ne
  · rw [hprocess, hsame]
    exact h.owner
  · unfold Kernel.directoryOf
    rw [hprocess, hsame]
    exact h.directory_ne

theorem Kernel.live_of_slot (hi : i < bimbleosMaxProcesses) (hused : k.processes i ≠ 0) : k.Live (k.processes i) :=
  ⟨hused, i, hi, rfl⟩

theorem OwnBlocks.switch (h : OwnBlocks k B q) {current : Nat} : OwnBlocks { k with currentProcess := current } B q :=
  h.frame rfl (Task.SameBut.refl _) (SameDirs.refl h.dirs) h.taken fun _ _ hclosed => hclosed

/-- **A load that fails** changes no slot. -/
theorem SlotInv.failed (h : SlotInv s) (hres : res ≠ 0)
    (hrun : processLoadSwitch drive filename s.kernel = .ok ((res, process), k)) :
    SlotInv ⟨k, s.own, s.kernel.processes⟩ := by
  obtain ⟨k₁, hload, hk⟩ := processLoadSwitch_run hrun
  rw [if_neg hres] at hk
  subst hk
  obtain ⟨ptr, hkeeps, hcase⟩ := (processLoad_loadRun h.clean.ready hload).keeps h.clean
  have hsame : k.processes = s.kernel.processes := by
    rcases hcase with ⟨_, hsame⟩ | ⟨_, hzero⟩
    · exact hsame
    · exact absurd (congrArg Prod.fst hzero) hres
  have hlive : ∀ q, k.Live q ↔ s.kernel.Live q := by
    intro q
    unfold Kernel.Live
    rw [hsame]
  have hown : ∀ q, s.kernel.Live q → q ≠ ptr ∧ OwnBlocks k (s.own q) q :=
    fun q hq => (h.own q hq).load h.clean hq.1 hkeeps
  refine ⟨hkeeps.heap _ _ cleanReadyRule h.clean, ⟨fun i hi hused => ?_, ?_, ?_, 0, fun j _ => ?_⟩, ?_, ?_⟩
  · have hslot : s.kernel.processes i ≠ 0 := by rwa [← hsame]
    have hq := Kernel.live_of_slot hi hslot
    simp only [hsame]
    exact (h.law.placed i hi hslot).frame (hkeeps.others _ (hown _ hq).1) (hkeeps.task _ (h.own _ hq).task)
  · simp only [hsame]
    exact h.law.apart
  · simp only [hlive, hkeeps.currentProcess]
    exact h.law.current
  · simp only [hsame]
  · exact fun q hq => (hown q ((hlive q).mp hq)).2
  · exact fun p q hp hq => h.disjoint p q ((hlive p).mp hp) ((hlive q).mp hq)

/-- **A load that succeeds** fills one slot. -/
theorem SlotInv.loaded (h : SlotInv s)
    (hrun : processLoadSwitch drive filename s.kernel = .ok ((0, process), k)) :
    SlotInv ⟨k, Function.update s.own process (k.heap.taken \ s.kernel.heap.taken), s.kernel.processes⟩ := by
  obtain ⟨k₁, hload, hk⟩ := processLoadSwitch_run hrun
  rw [if_pos rfl] at hk
  subst hk
  obtain ⟨ptr, hkeeps, hcase⟩ := (processLoad_loadRun h.clean.ready hload).keeps h.clean
  obtain ⟨hne, rfl⟩ : process ≠ 0 ∧ process = ptr := by
    rcases hcase with ⟨hneg, _⟩ | ⟨hne, hsame⟩
    · exact absurd hneg (Int.lt_irrefl 0)
    · obtain rfl : process = ptr := congrArg Prod.snd hsame
      exact ⟨hne, rfl⟩
  obtain ⟨slot, hfirst, hplaced, hprocesses⟩ := processLoad_placed h.clean.ready hload
  have hnew := processLoad_ownBlocks h.clean hload
  have hown : ∀ q, s.kernel.Live q → q ≠ process ∧ OwnBlocks k₁ (s.own q) q :=
    fun q hq => (h.own q hq).load h.clean hq.1 hkeeps
  have hlive : ∀ q, k₁.Live q ↔ s.kernel.Live q ∨ q = process := fun q => live_update hfirst hne q hprocesses
  have hslot : k₁.processes slot = process := by
    rw [hprocesses]
    exact Function.update_self ..
  have hother : ∀ i, i ≠ slot → k₁.processes i = s.kernel.processes i := by
    intro i hi
    rw [hprocesses]
    exact Function.update_of_ne hi _ _
  have hself : ∀ f : Nat → Set Nat, ∀ B, Function.update f process B process = B := fun f B => Function.update_self ..
  have hrest : ∀ q, s.kernel.Live q → ∀ B, Function.update s.own process B q = s.own q :=
    fun q hq B => Function.update_of_ne (hown q hq).1 _ _
  have hpartition : ∀ q, s.kernel.Live q → Disjoint (s.own q) (k₁.heap.taken \ s.kernel.heap.taken) := by
    intro q hq
    exact Set.disjoint_left.mpr fun b hb hin => hin.2 ((h.own q hq).taken hb)
  refine ⟨hkeeps.heap _ _ cleanReadyRule h.clean, ⟨fun i hi hused => ?_, fun i j hi hj hused heq => ?_, ?_, slot, hother⟩,
    fun q hq => ?_, fun p q hp hq hpq => ?_⟩
  · by_cases his : i = slot
    · subst his
      rw [show ({ k₁ with currentProcess := process } : Kernel).processes i = process from hslot]
      exact hplaced.frame rfl (Task.SameBut.refl _)
    · have hold : s.kernel.processes i ≠ 0 := by rwa [← hother i his]
      have hq := Kernel.live_of_slot hi hold
      rw [show ({ k₁ with currentProcess := process } : Kernel).processes i = s.kernel.processes i from hother i his]
      exact (h.law.placed i hi hold).frame (hkeeps.others _ (hown _ hq).1) (hkeeps.task _ (h.own _ hq).task)
  · -- the new process is in no other slot
    have hnone : ∀ j, j < bimbleosMaxProcesses → j ≠ slot → k₁.processes j ≠ process := by
      intro j hj hjs heq
      rw [hother j hjs] at heq
      have hlive : s.kernel.Live process := ⟨hne, j, hj, heq⟩
      exact (hown process hlive).1 rfl
    change k₁.processes i ≠ 0 at hused
    change k₁.processes i = k₁.processes j at heq
    by_cases his : i = slot
    · by_contra hij
      subst his
      exact hnone j hj (Ne.symm hij) (heq.symm.trans hslot)
    by_cases hjs : j = slot
    · subst hjs
      exact absurd (heq.trans hslot) (hnone i hi his)
    · rw [hother i his] at hused heq
      rw [hother j hjs] at heq
      exact h.law.apart i j hi hj hused heq
  · exact Or.inr ((hlive process).mpr (Or.inr rfl))
  · show OwnBlocks _ (Function.update s.own process _ q) q
    rcases (hlive q).mp hq with hq | rfl
    · rw [hrest q hq]
      exact (hown q hq).2.switch
    · rw [hself]
      exact hnew.switch
  · show Disjoint (Function.update s.own process _ p) (Function.update s.own process _ q)
    rcases (hlive p).mp hp with hp' | rfl
    · rcases (hlive q).mp hq with hq' | rfl
      · rw [hrest p hp', hrest q hq']
        exact h.disjoint p q hp' hq' hpq
      · rw [hrest p hp', hself]
        exact hpartition p hp'
    · rcases (hlive q).mp hq with hq' | rfl
      · rw [hself, hrest q hq']
        exact (hpartition q hq').symm
      · exact absurd rfl hpq

/-- What the end of `process` keeps of the heap: its program is freed first, then pointers into its own blocks. -/
theorem OwnBlocks.terminated (h : OwnBlocks k B process) (hclean : k.heap.Clean)
    (hfree : Kernel.taskFree (k.process process).task { k with
      heap := heapFree (k.heap.freeAll (k.programPointers process)) (k.process process).stack
      unionReads := reads } = .ok ((), k₁)) (hunlink : processUnlink process k₁ = .ok ((), k')) :
    k'.heap.Clean ∧ ∃ S, S ⊆ B ∧ (k.heap.freeAll (k.programPointers process)).Kept
      ((k.heap.freeAll (k.programPointers process)).taken \ S) k'.heap := by
  obtain ⟨S, image, hS, hclosed, howns⟩ := h.inner
  have hshields := hclosed.shields_freeAll hclean (k.programPointers process)
  have hclean₁ := hclean.freeAll (k.programPointers process)
  generalize k.heap.freeAll (k.programPointers process) = heap at hfree hshields hclean₁
  have hfreed : Owns (fun _ => True) (fun ptr => kfreeBlock ptr ∈ S) process image
      { k with heap := heap, unionReads := reads } :=
    howns.change True.intro rfl (SameDirs.refl howns.dirs) howns.image rfl rfl howns.slots
  refine ⟨?_, S, hS, ?_⟩
  · exact (hfreed.imp hclean₁ fun _ _ => True.intro).terminated cleanReadyRule hfree hunlink
  · refine (hfreed.imp hshields.kept fun ptr hptr => ?_).terminated (keptReadyRule (heap.taken \ S) heap) hfree hunlink
    exact fun hmem => hmem.2 hptr

/-- Another process, whose blocks the program spares, keeps its blocks. -/
theorem OwnBlocks.spared {B' : Set Nat} {ptrs : List Nat} (h : OwnBlocks k B q) (hclean : k.heap.Clean)
    (hspares : ∀ ptr ∈ ptrs, Disjoint (k.heap.blocksFrom ptr) B) (hdisjoint : Disjoint B B')
    (hkept : (k.heap.freeAll ptrs).Kept ((k.heap.freeAll ptrs).taken \ B') k'.heap) (hprocess : k'.process = k.process)
    (hpages : k'.pages = k.pages) (htask : ∀ a, (k.tasks.task a).SameBut (k'.tasks.task a)) : OwnBlocks k' B q := by
  have hreach : ∀ b ∈ B, ∀ ptr ∈ ptrs, b ∉ k.heap.blocksFrom ptr :=
    fun b hb ptr hptr hin => Set.disjoint_left.mp (hspares ptr hptr) hin hb
  have hinner : B ⊆ (k.heap.freeAll ptrs).taken \ B' := by
    intro b hb
    exact ⟨hclean.ready.freeAll_kept (h.taken hb) (hreach b hb), Set.disjoint_left.mp hdisjoint hb⟩
  apply h.frame
  · rw [hprocess]
  · exact htask _
  · rw [hpages]
    exact SameDirs.refl h.dirs
  · exact hinner.trans hkept.shields.taken
  · intro S hS hclosed
    exact (hclosed.freeAll hclean.ready fun b hb => hreach b (hS hb)).kept (hS.trans hinner) hkept

/-- Emptying the slot of `process`. -/
theorem SlotsLaw.unlinked (h : SlotsLaw s) (hlive : s.kernel.Live process)
    (hprocesses : k.processes = Function.update s.kernel.processes (s.kernel.process process).id 0)
    (hcurrent : (k.currentProcess = s.kernel.currentProcess ∧ k.currentProcess ≠ process) ∨ k.Live k.currentProcess)
    (hprocess : k.process = s.kernel.process) (htask : ∀ a, (s.kernel.tasks.task a).SameBut (k.tasks.task a)) :
    SlotsLaw ⟨k, s.own, s.kernel.processes⟩ ∧ ∀ q, k.Live q → s.kernel.Live q ∧ q ≠ process := by
  obtain ⟨hne, slot, hslot, hat⟩ := hlive
  have hplaced := h.placed slot hslot (hat ▸ hne)
  rw [hat] at hplaced
  rw [hplaced.id] at hprocesses
  have hempty : k.processes slot = 0 := by
    rw [hprocesses]
    exact Function.update_self ..
  have hother : ∀ i, i ≠ slot → k.processes i = s.kernel.processes i := by
    intro i hi
    rw [hprocesses]
    exact Function.update_of_ne hi _ _
  -- a slot that is in use is another one
  have hold : ∀ i, k.processes i ≠ 0 → i ≠ slot ∧ k.processes i = s.kernel.processes i := by
    intro i hused
    have his : i ≠ slot := by
      rintro rfl
      exact hused hempty
    exact ⟨his, hother i his⟩
  refine ⟨⟨fun i hi hused => ?_, fun i j hi hj hused heq => ?_, ?_, slot, hother⟩, ?_⟩
  · have hsame := (hold i hused).2
    have hbefore : s.kernel.processes i ≠ 0 := hsame ▸ hused
    simp only [hsame]
    exact (h.placed i hi hbefore).frame (by rw [hprocess]) (htask _)
  · have hi' := (hold i hused).2
    have hj' := (hold j fun hzero => hused (heq.trans hzero)).2
    exact h.apart i j hi hj (hi' ▸ hused) (hi'.symm.trans (heq.trans hj'))
  · rcases hcurrent with ⟨hsame, hnot⟩ | hnew
    · rcases h.current with hzero | ⟨hlive, i, hi, hiat⟩
      · exact Or.inl (hsame.trans hzero)
      · refine Or.inr ⟨hsame ▸ hlive, i, hi, ?_⟩
        have his : i ≠ slot := by
          rintro rfl
          exact hnot (hsame.trans (hiat.symm.trans hat))
        exact (hother i his).trans (hiat.trans hsame.symm)
    · exact Or.inr hnew
  · rintro q ⟨hq, i, hi, rfl⟩
    obtain ⟨his, hsame⟩ := hold i hq
    refine ⟨⟨hq, i, hi, hsame.symm⟩, fun heq => his ?_⟩
    exact h.apart i slot hi hslot (hsame ▸ hq) (hsame.symm.trans (heq.trans hat.symm))

/-- **The end of a process** empties its slot, and leaves what the others own. -/
theorem SlotInv.terminated (h : SlotInv s) (hspares : SlotCall.Spares s (.terminate process))
    (hlive : s.kernel.Live process) (hrun : processTerminate process s.kernel = .ok (res, k)) :
    SlotInv ⟨k, s.own, s.kernel.processes⟩ := by
  have hprocess := h.own process hlive
  rcases processTerminate_empty h.clean.ready hprocess.task_ne hprocess.slots hrun with ⟨_, rfl⟩ |
    ⟨reads, k₁, hfree, hunlink⟩
  · exact ⟨h.clean, ⟨h.law.placed, h.law.apart, h.law.current, 0, fun _ _ => rfl⟩, h.own, h.disjoint⟩
  obtain ⟨hclean, S, hS, hkept⟩ := hprocess.terminated h.clean hfree hunlink
  obtain ⟨heap, rfl⟩ := kernelTaskFree_frame hfree
  obtain ⟨current, hk, hcurrent⟩ := processUnlink_frame hunlink
  have htask : ∀ a, (s.kernel.tasks.task a).SameBut (k.tasks.task a) := by
    intro a
    rw [hk]
    exact taskFree_sameBut _ _ a
  have hprocesses : k.process = s.kernel.process := by rw [hk]
  have hpages : k.pages = s.kernel.pages := by rw [hk]
  have hslots : k.processes = Function.update s.kernel.processes (s.kernel.process process).id 0 := by rw [hk]
  have hat : k.currentProcess = current := by rw [hk]
  rw [← hat] at hcurrent
  obtain ⟨hlaw, hrest⟩ := h.law.unlinked hlive hslots hcurrent hprocesses htask
  refine ⟨hclean, hlaw, fun q hq => ?_, fun p q hp hq => h.disjoint p q (hrest p hp).1 (hrest q hq).1⟩
  obtain ⟨hq', hqp⟩ := hrest q hq
  have hdisjoint : Disjoint (s.own q) S := (h.disjoint q process hq' hlive hqp).mono_right hS
  exact (h.own q hq').spared h.clean (hspares q hq' hqp) hdisjoint hkept hprocesses hpages htask

theorem SlotInv.step (h : SlotInv s) (hspares : c.Spares s) (hstep : SlotStep drive s c s') : SlotInv s' := by
  cases hstep with
  | loaded hrun => exact h.loaded hrun
  | failed hres hrun => exact h.failed hres hrun
  | terminated hlive hrun => exact h.terminated hspares hlive hrun

theorem SlotStart.inv (h : SlotStart s) : SlotInv s := by
  have hnone : ∀ q, ¬ s.kernel.Live q := by
    rintro q ⟨hq, i, _, rfl⟩
    exact hq (h.empty i)
  refine ⟨h.clean, ⟨fun i _ hused => absurd (h.empty i) hused, fun i j _ _ hused => absurd (h.empty i) hused,
    Or.inl h.current, 0, fun j _ => ?_⟩, fun q hq => absurd hq (hnone q), fun p q hp => absurd hp (hnone p)⟩
  rw [h.before]

end Runs

/-- **The slots of `processes[]`** in every run of `process_load_switch` and `process_terminate` in which `elf_close`
    gives back no block of another process. -/
theorem processSlots_law {drive : Drive} {s₀ s : SlotState} {tr : List (SlotState × SlotCall)} (h₀ : SlotStart s₀)
    (hrun : Trace (SlotStep drive) s₀ tr s) (hspares : ∀ q ∈ tr, SlotCall.Spares q.1 q.2) :
    Throughout SlotsLaw tr s :=
  (Trace.invariant (fun _ _ _ h hspares hstep => h.step hspares hstep) h₀.inv hrun hspares).imp fun _ h => h.law

end BimbleOS
