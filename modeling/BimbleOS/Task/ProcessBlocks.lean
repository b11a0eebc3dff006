import BimbleOS.Memory.HeapOwners
import BimbleOS.Task.Isolation
import BimbleOS.Task.LoadRuns
import BimbleOS.Task.ProcessArguments

/-!
# `Task.ProcessBlocks` — the blocks that the end of a process gives back

A process that was loaded has a stack, a task and a page directory, and later allocations. What its end gives back is
this, and the program: `Owns` says that all of it but the program may be given back. A load leaves it so
(`processLoad_owns`), and every call of the process keeps it.
-/

namespace BimbleOS

open Bytes CWord Exec

/-- A pointer of an allocation: the slot is empty, or the pointer may be given back. -/
def SlotOk (Ok : Nat → Prop) (ptr : Nat) : Prop := ptr = 0 ∨ (Ok ptr ∧ ptr < 4294967296)

/-- What the end of a process gives back, apart from its program at `image`, may be given back. -/
structure Owns (P : Heap → Prop) (Ok : Nat → Prop) (process image : Nat) (k : Kernel) : Prop where
  heap : P k.heap
  image : (k.process process).image = image
  stack : Ok (k.process process).stack
  task : Ok (k.process process).task
  pages : Freeable Ok k.pages (k.directoryOf process)
  dirs : DirsOk k.pages (· = k.directoryOf process)
  slots : ∀ i, i < bimbleosMaxProgramAllocations → SlotOk Ok ((k.process process).allocations i).ptr

section Calls

variable {P : Heap → Prop} {Ok : Nat → Prop} {process image size ptr d : Nat} {k k' : Kernel}

/-- A change of the heap, of entries in the tables, and of the fields that no one gives back. -/
theorem Owns.change (h : Owns P Ok process image k) (hP : P k'.heap) (htasks : k'.tasks = k.tasks)
    (hpages : SameDirs (· = k.directoryOf process) k.pages k'.pages) (himage : (k'.process process).image = image)
    (hstack : (k'.process process).stack = (k.process process).stack)
    (htask : (k'.process process).task = (k.process process).task)
    (hslots : ∀ i, i < bimbleosMaxProgramAllocations → SlotOk Ok ((k'.process process).allocations i).ptr) :
    Owns P Ok process image k' := by
  have hdirectory : k'.directoryOf process = k.directoryOf process := by
    unfold Kernel.directoryOf
    rw [htasks, htask]
  refine ⟨hP, himage, hstack ▸ h.stack, htask ▸ h.task, ?_, ?_, hslots⟩
  · rw [hdirectory]
    exact h.pages.same hpages rfl
  · rw [hdirectory]
    exact hpages.ok

/-- More pointers may be given back. -/
theorem Owns.imp {P' : Heap → Prop} {Ok' : Nat → Prop} (h : Owns P Ok process image k) (hP : P' k.heap)
    (hok : ∀ ptr, Ok ptr → Ok' ptr) : Owns P' Ok' process image k where
  heap := hP
  image := h.image
  stack := hok _ h.stack
  task := hok _ h.task
  pages := ⟨hok _ h.pages.chunk, hok _ h.pages.directory, fun i hi => hok _ (h.pages.table i hi)⟩
  dirs := h.dirs
  slots := fun i hi => (h.slots i hi).imp_right fun hslot => ⟨hok _ hslot.1, hslot.2⟩

theorem Owns.setHeap (h : Owns P Ok process image k) {heap : Heap} {memory : Mem} (hP : P heap) :
    Owns P Ok process image { k with heap := heap, memory := memory } :=
  h.change hP rfl (SameDirs.refl h.dirs) h.image rfl rfl h.slots

/-- Giving back the pointer of a slot. -/
theorem Owns.kfree (hr : ReadyRule P Ok) (h : Owns P Ok process image k) (hptr : SlotOk Ok ptr) :
    P (heapFree k.heap ptr) := by
  rcases hptr with rfl | ⟨hok, _⟩
  · rw [(hr.ready h.heap).free_null]
    exact h.heap
  · exact hr.free h.heap hok

theorem processPageDirectory_keeps {I : Kernel → Prop} :
    Triple I (processPageDirectory process) fun d k => d = k.directoryOf process ∧ I k := by
  intro k d k' hI hrun
  rw [processPageDirectory_eq] at hrun
  split at hrun
  · cases hrun
  · cases hrun
    exact ⟨rfl, hI⟩

/-- Mapping pages of the process. -/
theorem Owns.kernelMapTo {virt phys physEnd : Nat} {flags : BitVec 32} (hvirt : virt < 4294967296) :
    Triple (fun k => d = k.directoryOf process ∧ Owns P Ok process image k)
      (kernelMapTo d virt phys physEnd flags) fun _ => Owns P Ok process image := by
  intro k res k' hk hrun
  obtain ⟨rfl, h⟩ := hk
  rw [kernelMapTo_eq] at hrun
  cases hrun
  exact h.change h.heap rfl (SameDirs.mapTo h.dirs rfl hvirt) h.image rfl rfl h.slots

/-- Another table of allocations. -/
theorem Owns.setSlots (h : Owns P Ok process image k) {slots : Nat → ProcessAllocation}
    (hslots : ∀ i, i < bimbleosMaxProgramAllocations → SlotOk Ok (slots i).ptr) :
    Owns P Ok process image (k.setProcess process { k.process process with allocations := slots }) := by
  have hself : (k.setProcess process { k.process process with allocations := slots }).process process
      = { k.process process with allocations := slots } := Function.update_self ..
  refine h.change h.heap rfl (SameDirs.refl h.dirs) ?_ ?_ ?_ ?_
  · rw [hself]
    exact h.image
  · rw [hself]
  · rw [hself]
  · rw [hself]
    exact hslots

/-- An answer of the heap fits a slot. -/
theorem kzalloc_owns (hr : ReadyRule P Ok) (hsize : size < 4294967296) :
    Triple (Owns P Ok process image) (kzalloc size) fun ptr k => SlotOk Ok ptr ∧ Owns P Ok process image k := by
  intro k ptr k' h hrun
  obtain ⟨hptr, memory, rfl⟩ := kzalloc_run hrun
  obtain ⟨hP, hok⟩ := hr.malloc h.heap hsize
  refine ⟨?_, h.setHeap hP⟩
  rw [hptr]
  rcases (@heapMalloc_ready size k.heap (hr.ready h.heap)).2 with hzero | ⟨_, _, _, hlt⟩
  · exact Or.inl hzero
  · exact Or.inr ⟨hok, hlt⟩

theorem kfree_owns (hr : ReadyRule P Ok) (hptr : SlotOk Ok ptr) :
    Triple (Owns P Ok process image) (kfree ptr) fun _ => Owns P Ok process image :=
  Triple.modify fun _ h => h.setHeap (h.kfree hr hptr)

theorem SlotOk.lt (h : SlotOk Ok ptr) : ptr < 4294967296 := by
  rcases h with rfl | ⟨_, hlt⟩
  · decide
  · exact hlt

/-- **`process_malloc`** -/
theorem processMalloc_owns (hr : ReadyRule P Ok) (hsize : size < 4294967296) :
    Triple (Owns P Ok process image) (processMalloc process size) fun _ => Owns P Ok process image := by
  have hfail : ∀ ptr, SlotOk Ok ptr → Triple (Owns P Ok process image) (kfree ptr >>= fun _ => pure 0)
      fun (_ : Nat) => Owns P Ok process image := by
    intro ptr hptr
    exact Triple.bind (kfree_owns hr hptr) fun _ => Triple.pure fun _ hk => hk
  unfold processMalloc
  refine Triple.bind (kzalloc_owns hr hsize) fun ptr => Triple.const fun hptr => ?_
  refine Triple.ite (fun _ => Triple.pure fun _ hk => hk) fun _ => ?_
  refine Triple.get_bind fun k₁ h₁ => Triple.pre (P := Owns P Ok process image) (fun k hk => hk ▸ h₁) ?_
  refine Triple.ite (fun _ => hfail ptr hptr) fun _ => ?_
  refine Triple.bind processPageDirectory_keeps fun d => Triple.bind (Owns.kernelMapTo hptr.lt) fun res => ?_
  refine Triple.ite (fun _ => hfail ptr hptr) fun _ => ?_
  refine Triple.bind (Triple.modify fun k h => ?_) fun _ => Triple.pure fun _ hk => hk
  refine h.setSlots fun i hi => ?_
  generalize (processFindFreeAllocationIndex (k₁.process process)).toNat = j
  by_cases hij : i = j
  · rw [hij, Function.update_self]
    exact hptr
  · rw [Function.update_of_ne hij]
    exact h.slots i hi

/-- **`process_free`** gives back a pointer of the table, or nothing. -/
theorem processFree_owns (hr : ReadyRule P Ok) :
    Triple (Owns P Ok process image) (processFree process ptr) fun _ => Owns P Ok process image := by
  unfold processFree
  refine Triple.get_bind fun k₁ h₁ => Triple.pre (P := Owns P Ok process image) (fun k hk => hk ▸ h₁) ?_
  cases hfind : processGetAllocationByAddr (k₁.process process) ptr with
  | none => exact Triple.pure fun _ hk => hk
  | some a =>
      obtain ⟨i, hi, rfl, hsame⟩ := processGetAllocationByAddr_some hfind
      have hptr : SlotOk Ok ptr := hsame ▸ h₁.slots i hi
      refine Triple.bind processPageDirectory_keeps fun d => ?_
      refine Triple.bind (Owns.kernelMapTo (h₁.slots i hi).lt) fun res => ?_
      refine Triple.ite (fun _ => Triple.pure fun _ hk => hk) fun _ => ?_
      refine Triple.bind (Triple.modify fun k h => ?_) fun _ => kfree_owns hr hptr
      refine h.setSlots fun j hj => ?_
      split
      · exact Or.inl rfl
      · exact h.slots j hj

/-- **`process_inject_arguments`** -/
theorem processInjectArguments_owns (hr : ReadyRule P Ok) {rootArgument : Nat} :
    Triple (Owns P Ok process image) (processInjectArguments process rootArgument) fun _ => Owns P Ok process image := by
  apply processInjectArguments_keeps
  refine ⟨fun size hsize => processMalloc_owns hr hsize, fun k m h => h.setHeap h.heap, fun k argc argv h => ?_⟩
  refine h.change h.heap rfl (SameDirs.refl h.dirs) ?_ ?_ ?_ ?_
  · simpa only [Function.update_self] using h.image
  · simp only [Function.update_self]
  · simp only [Function.update_self]
  · simpa only [Function.update_self] using h.slots

end Calls

/-! ## Loading -/

/-- How a load leaves its process. -/
structure Placed (process slot : Nat) (k : Kernel) : Prop where
  id : (k.process process).id = slot
  task_ne : (k.process process).task ≠ 0
  owner : (k.tasks.task (k.process process).task).process = process
  directory_ne : k.directoryOf process ≠ 0

section Load

variable {P : Heap → Prop} {Ok : Nat → Prop} {drive : Drive} {filename : List (BitVec 8)} {process slot : Nat}
  {k k' : Kernel}

/-- What `process_load` asks for behind the data of the program: the stack, the task and its page directory. -/
def processSizes : List Nat := bimbleosUserProgramStackSize :: Kernel.sizeofTask :: pagingNewSizes

theorem processSizes_range : ∀ size ∈ processSizes, 1 ≤ size ∧ size ≤ 16384 := by
  intro size hsize
  rcases List.mem_cons.mp hsize with rfl | hsize
  · decide
  rcases List.mem_cons.mp hsize with rfl | hsize
  · decide
  · have hone := pagingNewSizes_one size hsize
    omega

/-- **Behind the data of the program**, `process_load` only asks for what the process owns. -/
theorem processFill_owns (hready : k.heap.Ready) (hfresh : (k.process process).allocations = fun _ => {})
    (hrun : processFill drive filename process slot k = .ok (0, k')) :
    ∃ k₁, processLoadData drive filename process k = .ok (0, k₁) ∧ k'.heap = heapAfter k₁.heap processSizes ∧
      0 ∉ heapAnswers k₁.heap processSizes ∧ Owns (fun heap => heap = k'.heap)
        (fun ptr => ptr ∈ heapAnswers k₁.heap processSizes) process (k₁.process process).image k' := by
  obtain ⟨res₁, k₁, hdata, hrest⟩ := bind_eq_ok.mp hrun
  obtain ⟨hready₁, _, _, _, p₁, _, hslots, htable, hk₁⟩ := processLoadData_keeps readyRule.toHeapRule hready hdata
  by_cases hneg : res₁ < 0
  · rw [if_pos hneg] at hrest
    cases hrest
    exact absurd hneg (by decide)
  obtain ⟨_, rfl⟩ := htable (by omega)
  rw [if_neg hneg] at hrest
  have hempty : (k₁.process process).allocations = fun _ => {} := by
    rw [hk₁, ← hfresh, ← hslots]
    exact congrArg Process.allocations (Function.update_self ..)
  refine ⟨k₁, hdata, ?_⟩
  obtain ⟨stack, k₂, hstack, hplace⟩ := bind_eq_ok.mp hrest
  obtain ⟨hptr, memory₂, hk₂⟩ := kzalloc_run hstack
  by_cases hnull : stack = 0
  · rw [if_pos hnull] at hplace
    cases hplace
  rw [if_neg hnull] at hplace
  have hready₂ : k₂.heap.Ready := by
    rw [hk₂]
    exact (heapMalloc_ready hready₁).1
  obtain ⟨task, d, directory, tables, ip, heap, memory, pages₀, pages, reads, htask, _, _, hmade, hheap, hanswers, hnonzero,
    hmap, hk'⟩ := processFill_place readyRule hready₂ hplace
  -- all that was asked for, in order
  have hall : heapAnswers k₁.heap processSizes = stack :: task :: directory :: (tables ++ [d]) := by
    rw [hk₂] at hanswers
    rw [processSizes, heapAnswers_cons, ← hptr]
    exact congrArg (List.cons stack) hanswers
  have hafter : k'.heap = heapAfter k₁.heap processSizes := by
    rw [hk₂] at hheap
    rw [processSizes, heapAfter_cons, hk']
    exact hheap
  have hmem : ∀ a, a ∈ task :: directory :: (tables ++ [d]) → a ∈ heapAnswers k₁.heap processSizes := by
    intro a ha
    rw [hall]
    exact List.mem_cons_of_mem stack ha
  have hmade' : MadeDirectory (fun ptr => ptr ∈ heapAnswers k₁.heap processSizes) k₂.pages pages₀ d directory tables :=
    ⟨hmade.spec, hmade.length, hmade.own, fun b hb => hmem b (List.mem_cons_of_mem task hb), hmade.ne⟩
  have hself : k'.process process = (k₁.process process).placed stack slot task := by
    have hprocess : k₂.process = k₁.process := by rw [hk₂]
    rw [hk', ← hprocess]
    exact Function.update_self ..
  have hdirectory : k'.directoryOf process = d := by
    have hstored : (k₂.tasks.store task (taskInit process d ip)).task task = taskInit process d ip :=
      Function.update_self ..
    obtain ⟨next, prev, hnew⟩ := taskNewLink_sameBut (k₂.tasks.store task (taskInit process d ip)) task task
    rw [hstored] at hnew
    unfold Kernel.directoryOf
    rw [hself, hk']
    exact congrArg Task.pageDirectory hnew
  have hpages : k'.pages = pages := by rw [hk']
  have hsame := processMapMemory_same hmade.dirsOk rfl hmap
  refine ⟨hafter, ?_, rfl, ?_, ?_, ?_, ?_, ?_, fun i _ => Or.inl ?_⟩
  · rw [hall]
    exact List.not_mem_cons_of_ne_of_not_mem (Ne.symm hnull) hnonzero
  · rw [hself]
    rfl
  · rw [hself, hall]
    exact List.mem_cons_self
  · rw [hself]
    exact hmem task List.mem_cons_self
  · rw [hdirectory, hpages]
    exact hmade'.freeable.same hsame rfl
  · rw [hdirectory, hpages]
    exact hsame.ok
  · rw [hself]
    show ((k₁.process process).allocations i).ptr = 0
    rw [hempty]

/-- **The slot, the structure and the task** of a process that was loaded. -/
theorem processLoad_placed (hready : k.heap.Ready) (hrun : processLoad drive filename k = .ok ((0, process), k')) :
    ∃ slot, FirstSlot k slot ∧ Placed process slot k' ∧ k'.processes = Function.update k.processes slot process := by
  obtain ⟨slot, k₁, hfirst, halloc, _, hfilled⟩ := processLoad_zero hrun
  obtain ⟨_, memory₁, rfl⟩ := kzalloc_run halloc
  obtain ⟨k₂, hfill, rfl⟩ := hfilled _ _ readyRule (heapMalloc_ready hready).1
  refine ⟨slot, hfirst, ?_⟩
  cases hfill with
  | early hneg => exact absurd hneg (by decide)
  | @mapped k₃ heap memory pages₀ pages p stack task d directory tables ip reads hdata hp _ _ htask _ _ hmade hmap =>
      have hself : ∀ f : Nat → Process, Function.update f process p process = p := fun f => Function.update_self ..
      have hptask : p.task = task := by rw [hp]; rfl
      have hstored : (k.tasks.store task (taskInit process d ip)).task task = taskInit process d ip :=
        Function.update_self ..
      obtain ⟨next, prev, hnew⟩ := taskNewLink_sameBut (k.tasks.store task (taskInit process d ip)) task task
      rw [hstored] at hnew
      refine ⟨⟨?_, ?_, ?_, ?_⟩, rfl⟩
      · simp only [hself]
        rw [hp]
        rfl
      · simp only [hself, hptask]
        exact htask
      · simp only [hself, hptask]
        exact congrArg Task.process hnew
      · unfold Kernel.directoryOf
        simp only [hself, hptask]
        exact fun hzero => hmade.ne ((congrArg Task.pageDirectory hnew).symm.trans hzero)

/-- The data of the program, and from there on what the process owns. -/
theorem processLoad_owns (hready : k.heap.Ready) (hrun : processLoad drive filename k = .ok ((0, process), k')) :
    ∃ k₁ k₂, kzalloc sizeofProcess k = .ok (process, k₁) ∧ process ≠ 0 ∧
      processLoadData drive filename process (k₁.setProcess process {}) = .ok (0, k₂) ∧
      k'.heap = heapAfter k₂.heap processSizes ∧ 0 ∉ heapAnswers k₂.heap processSizes ∧
      Owns (fun heap => heap = k'.heap) (fun ptr => ptr ∈ heapAnswers k₂.heap processSizes) process
        (k₂.process process).image k' := by
  obtain ⟨slot, k₁, k₃, _, halloc, hne, hfill, hk'⟩ := processLoad_fill hrun
  have hready₁ : (k₁.setProcess process {}).heap.Ready := by
    obtain ⟨_, _, rfl⟩ := kzalloc_run halloc
    exact (heapMalloc_ready hready).1
  have hcleared : (k₁.setProcess process {}).process process = {} := Function.update_self ..
  obtain ⟨k₂, hdata, hheap, hnonzero, h⟩ := processFill_owns hready₁ (by rw [hcleared]) hfill
  have hsame : k'.heap = k₃.heap := by rw [hk']
  refine ⟨k₁, k₂, halloc, hne, hdata, hsame.trans hheap, hnonzero, ?_⟩
  rw [hk']
  exact h.change rfl rfl (SameDirs.refl h.dirs) h.image rfl rfl h.slots

/-- What a client keeps of a process that was loaded. -/
theorem Owns.of_answers {heap : Heap} {image : Nat} (hr : ReadyRule P Ok) (hP : P heap)
    (hheap : k.heap = heapAfter heap processSizes)
    (h : Owns (fun heap => heap = k.heap) (fun ptr => ptr ∈ heapAnswers heap processSizes) process image k) :
    Owns P Ok process image k := by
  have hsizes : ∀ size ∈ processSizes, size < 4294967296 := by
    intro size hsize
    have hrange := processSizes_range size hsize
    omega
  obtain ⟨hP', hok⟩ := hr.series hP hsizes
  exact h.imp (hheap ▸ hP') hok

end Load

end BimbleOS
