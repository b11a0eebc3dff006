import BimbleOS.Memory.PagingRuns
import BimbleOS.Task.ElfMapping
import BimbleOS.Task.ProcessData

/-!
# `Task.LoadRuns` — what `process_load` leaves

Loading a program takes a slot, a process structure, the data of the file, a stack and a task with a page
directory, and then maps the program. Every run of `process_load` is one of `LoadOutcome`; from the process
structure on the heap changes as its clients change it (`processLoad_keeps`). `task_new` never returns an
error: where an allocation fails it follows the null pointer.
-/

namespace BimbleOS

open Bytes CWord Exec

/-- A fact about the kernel's heap that a client keeps. -/
structure ReadyRule (P : Heap → Prop) (Ok : Nat → Prop) : Prop extends HeapRule P Ok where
  ready : ∀ {heap : Heap}, P heap → heap.Ready

/-- A clean heap that shields the blocks of `B`. -/
theorem shieldedRule (B E : Set Nat) : ReadyRule (Heap.Shields B E) (Misses B) where
  toHeapRule := shieldRule B E
  ready := fun h => h.ready

theorem readyRule : ReadyRule Heap.Ready (fun _ => True) where
  malloc := fun h _ => ⟨(heapMalloc_ready h).1, True.intro⟩
  free := fun h _ => h.free
  ready := id

theorem cleanReadyRule : ReadyRule Heap.Clean (fun _ => True) where
  toHeapRule := cleanRule
  ready := fun h => h.ready

/-! ## Page directories -/

/-- All pages of a directory may be given back. -/
structure Freeable (Ok : Nat → Prop) (s : PageStore) (d : Nat) : Prop where
  chunk : Ok d
  directory : Ok (s.directory d)
  table : ∀ i, i < 1024 → Ok (s.table (s.directory d) i)

section Directory

variable {P : Heap → Prop} {Ok : Nat → Prop} {ds : Nat → Prop} {k k' : Kernel} {s s' : PageStore} {d directory : Nat}
  {tables : List Nat} {flags : BitVec 32}

theorem Freeable.same (h : Freeable Ok s d) (hsame : SameDirs ds s s') (hd : ds d) : Freeable Ok s' d where
  chunk := h.chunk
  directory := by
    rw [hsame.directory d hd]
    exact h.directory
  table := fun i hi => by
    rw [hsame.table d i hd hi]
    exact h.table i hi

/-- A directory that was just made. -/
theorem NewDirectory.freeable (h : NewDirectory s s' flags d directory tables) (hlen : tables.length = 1024)
    (hblocks : ∀ b ∈ directory :: (tables ++ [d]), Ok b) : Freeable Ok s' d := by
  obtain ⟨hd, hdirectory, htables⟩ := h.within hlen
  exact ⟨hblocks _ hd, hblocks _ hdirectory, fun i hi => hblocks _ (htables i hi)⟩

/-- It is a directory with tables of its own. -/
theorem NewDirectory.alone (h : NewDirectory s s' flags d directory tables) (hlen : tables.length = 1024)
    (hblocks : OwnPages (directory :: (tables ++ [d]))) : DirsOk s' (· = d) := by
  have hnone : DirsOk s fun _ => False := ⟨fun _ hd => hd.elim, fun _ _ _ _ hd => hd.elim, fun _ _ _ hd => hd.elim⟩
  have hfree : ∀ b ∈ directory :: (tables ++ [d]), b ∉ (∅ : Set Nat) := fun _ _ hb => hb
  have hok := h.dirsOk hlen hblocks hnone (fun _ hb => hb.elim) (fun _ hd => hd.elim) hfree
  simpa only [false_or] using hok

/-- **`paging_free`** gives back the pages of the directory. -/
theorem pagingFree_keeps (hr : HeapRule P Ok) (h : Freeable Ok k.pages d) :
    Triple (Keeps P k) (pagingFree d) fun _ => Keeps P k := by
  have hloop : ∀ left i, i + left ≤ 1024 → Triple (Keeps P k) (pagingFreeLoop d left i) fun _ => Keeps P k := by
    intro left
    induction left with
    | zero => exact fun i _ => Triple.pure fun _ hk => hk
    | succ left ih =>
        intro i hi
        rw [pagingFreeLoop]
        refine Triple.get_bind fun k₁ hk₁ => ?_
        obtain ⟨hP, heap, memory, rfl⟩ := hk₁
        refine Triple.pre ?_ (Triple.bind (kfree_keeps hr (h.table i (by omega))) fun _ => ih (i + 1) (by omega))
        rintro _ rfl
        exact ⟨hP, heap, memory, rfl⟩
  unfold pagingFree
  refine Triple.bind deref_keeps fun _ => Triple.const fun _ => ?_
  refine Triple.bind (hloop 1024 0 (by omega)) fun _ => ?_
  refine Triple.get_bind fun k₁ hk₁ => ?_
  obtain ⟨hP, heap, memory, rfl⟩ := hk₁
  refine Triple.pre ?_ (Triple.bind (kfree_keeps hr h.directory) fun _ => kfree_keeps hr h.chunk)
  rintro _ rfl
  exact ⟨hP, heap, memory, rfl⟩

end Directory

/-! ## `task_new` -/

/-- The page directory that `paging_new` made, in pages that were answered by the heap. -/
structure MadeDirectory (Ok : Nat → Prop) (s s' : PageStore) (d directory : Nat) (tables : List Nat) : Prop where
  spec : NewDirectory s s' (pagingIsPresent ||| pagingAccessFromAll) d directory tables
  length : tables.length = 1024
  own : OwnPages (directory :: (tables ++ [d]))
  ok : ∀ b ∈ directory :: (tables ++ [d]), Ok b
  ne : d ≠ 0

theorem MadeDirectory.freeable {Ok : Nat → Prop} {s s' : PageStore} {d directory : Nat} {tables : List Nat}
    (h : MadeDirectory Ok s s' d directory tables) : Freeable Ok s' d := h.spec.freeable h.length h.ok

theorem MadeDirectory.dirsOk {Ok : Nat → Prop} {s s' : PageStore} {d directory : Nat} {tables : List Nat}
    (h : MadeDirectory Ok s s' d directory tables) : DirsOk s' (· = d) := h.spec.alone h.length h.own

section Task

variable {P : Heap → Prop} {Ok : Nat → Prop} {process : Nat} {k k' : Kernel}

theorem pagingNew_made (hr : ReadyRule P Ok) (hP : P k.heap) {d : Nat}
    (hrun : pagingNew (pagingIsPresent ||| pagingAccessFromAll) k = .ok (d, k')) :
    ∃ directory tables heap memory pages, P heap ∧ MadeDirectory Ok k.pages pages d directory tables ∧
      heap = heapAfter k.heap pagingNewSizes ∧ heapAnswers k.heap pagingNewSizes = directory :: (tables ++ [d]) ∧
      0 ∉ directory :: (tables ++ [d]) ∧
      k' = { k with heap := heap, memory := memory, pages := pages } := by
  obtain ⟨directory, tables, memory, hlen, hanswers, hnull, rfl⟩ := pagingNew_run hrun
  have hsizes : ∀ size ∈ pagingNewSizes, size < 4294967296 := fun size hsize => by
    have hone := (pagingNewSizes_one size hsize).2
    omega
  obtain ⟨hP', hok⟩ := hr.series hP hsizes
  have hown := ownPages_answers (hr.ready hP) hnull
  rw [hanswers] at hok hown hnull
  refine ⟨directory, tables, _, memory, _, hP', ?_, rfl, hanswers, hnull, rfl⟩
  refine ⟨newDirectory_spec (by decide) hlen hown, hlen, hown, hok, fun hzero => hnull ?_⟩
  rw [hzero]
  exact List.mem_cons_of_mem _ (List.mem_append_right _ (List.mem_singleton.mpr rfl))

/-- **A run of `task_new`**: the new task is linked behind the others. -/
theorem taskNew_run (hr : ReadyRule P Ok) (hP : P k.heap) {r : Except Int Nat}
    (hrun : Kernel.taskNew process k = .ok (r, k')) :
    ∃ task d directory tables ip heap memory pages reads, r = .ok task ∧ task ≠ 0 ∧ Ok task ∧ P heap ∧
      MadeDirectory Ok k.pages pages d directory tables ∧
      heap = heapAfter k.heap (Kernel.sizeofTask :: pagingNewSizes) ∧
      heapAnswers k.heap (Kernel.sizeofTask :: pagingNewSizes) = task :: directory :: (tables ++ [d]) ∧
      0 ∉ task :: directory :: (tables ++ [d]) ∧
      k' = { k with
        heap := heap
        memory := memory
        pages := pages
        tasks := taskNewLink (k.tasks.store task (taskInit process d ip)) task
        unionReads := k.unionReads ++ reads } := by
  obtain ⟨task, k₁, halloc, hrest⟩ := bind_eq_ok.mp hrun
  obtain ⟨htask, hP₁, _⟩ := kzalloc_keeps hr.toHeapRule (by decide) k task k₁ (Keeps.refl hP) halloc
  obtain ⟨hptr, memory₁, rfl⟩ := kzalloc_run halloc
  by_cases hnull : task = 0
  · -- `task_free` follows the null pointer
    subst hnull
    cases hrest
  rw [if_neg hnull] at hrest
  obtain ⟨res, k₂, hinit, hlink⟩ := bind_eq_ok.mp hrest
  obtain ⟨d, k₃, hnew, hfill⟩ := bind_eq_ok.mp hinit
  obtain ⟨directory, tables, heap, memory, pages, hP₃, hmade, hheap, hanswers, hpages, rfl⟩ :=
    pagingNew_made hr hP₁ hnew
  rw [if_neg hmade.ne] at hfill
  obtain ⟨ip, k₄, hentry, hstore⟩ := bind_eq_ok.mp hfill
  have hreads : ∃ reads, k₄ = { k with
      heap := heap
      memory := memory
      pages := pages
      unionReads := k.unionReads ++ reads } := by
    unfold Kernel.entryPoint at hentry
    change (if (k.process process).filetype = processFiletypeElf then _ else _ : KM (BitVec 32)) _ = _ at hentry
    split at hentry
    · cases hentry
      exact ⟨_, rfl⟩
    · cases hentry
      exact ⟨[], by rw [List.append_nil]⟩
  obtain ⟨reads, rfl⟩ := hreads
  cases hstore
  have hok : ¬ (0 : Int) ≠ bimbleosAllOk := not_not_intro rfl
  rw [if_neg hok] at hlink
  cases hlink
  refine ⟨task, d, directory, tables, ip, heap, memory, pages, reads, rfl, hnull, htask, hP₃, hmade, ?_, ?_, ?_, rfl⟩
  · rw [heapAfter_cons]
    exact hheap
  · rw [heapAnswers_cons, ← hptr]
    exact congrArg (List.cons task) hanswers
  · exact List.not_mem_cons_of_ne_of_not_mem (Ne.symm hnull) hpages

end Task

/-! ## `process_map_memory` -/

section Map

variable {m : Mem} {s s' : PageStore} {ds : Nat → Prop} {d elfFile phdrs left i : Nat} {p : Process} {res : Int}

theorem processMapElfLoop_maps (h : DirsOk s ds) (hd : ds d) :
    MapsThrough ds d s (processMapElfLoop m d elfFile phdrs left i s).2 := by
  induction left generalizing i s with
  | zero => exact MapsThrough.refl h
  | succ left ih =>
      rw [processMapElfLoop_succ]
      split
      · have hfirst : MapsThrough ds d s (s.setPhdr m elfFile (phdrAt phdrs i) d) :=
          MapsThrough.mapRange h hd phdrVirt_aligned.2
        exact hfirst.trans (ih hfirst.ok)
      · exact MapsThrough.refl h

/-- **Mapping a program** changes what one directory maps. -/
theorem processMapMemory_maps (h : DirsOk s ds) (hd : ds d) (hmap : processMapMemory m s d p = some (res, s')) :
    MapsThrough ds d s s' := by
  obtain ⟨⟨res₁, s₁⟩, hmapped, heq⟩ := Option.map_eq_some_iff.mp hmap
  have hfirst : MapsThrough ds d s s₁ := by
    split at hmapped
    · have helf : (processMapElf m s d p.image).2 = s₁ := congrArg Prod.snd (Option.some.inj hmapped)
      rw [← helf]
      exact processMapElfLoop_maps h hd
    · split at hmapped
      · have hbinary : (processMapBinary s d p).2 = s₁ := congrArg Prod.snd (Option.some.inj hmapped)
        rw [← hbinary]
        exact MapsThrough.mapTo h hd (show bimbleosProgramVirtualAddress < 4294967296 by decide)
      · cases hmapped
  change (if res₁ < 0 then (res₁, s₁) else _) = _ at heq
  split at heq
  · cases heq
    exact hfirst
  · have hs : (pagingMapTo s₁ d bimbleosProgramVirtualStackAddressEnd p.stack
        (pagingAlignAddress (u32 (p.stack + bimbleosUserProgramStackSize : Nat)))
        (pagingIsPresent ||| pagingAccessFromAll ||| pagingIsWriteable)).2 = s' := congrArg Prod.snd heq
    have hend : bimbleosProgramVirtualStackAddressEnd < 4294967296 := by decide
    rw [← hs]
    exact hfirst.trans (MapsThrough.mapTo hfirst.ok hd hend)

/-- The tables stay. -/
theorem processMapMemory_same (h : DirsOk s ds) (hd : ds d) (hmap : processMapMemory m s d p = some (res, s')) :
    SameDirs ds s s' := (processMapMemory_maps h hd hmap).toSameDirs

end Map

/-! ## `process_load` -/

/-- Slot `i` is the first empty one. -/
structure FirstSlot (k : Kernel) (i : Nat) : Prop where
  lt : i < bimbleosMaxProcesses
  free : k.processes i = 0
  before : ∀ j, j < i → k.processes j ≠ 0

theorem FirstSlot.unique {k : Kernel} {i j : Nat} (h : FirstSlot k i) (h' : FirstSlot k j) : i = j := by
  by_contra hne
  rcases Nat.lt_or_gt_of_ne hne with hlt | hgt
  · exact h'.before i hlt h.free
  · exact h.before j hgt h'.free

/-- The process structure with its stack and its slot. -/
def Process.withStack (p : Process) (stack slot : Nat) : Process := { p with stack := stack, id := slot }

/-- The process structure with its stack, its slot and its task. -/
def Process.placed (p : Process) (stack slot task : Nat) : Process := { p.withStack stack slot with task := task }

/-- What filling a process structure has done. -/
inductive FillOutcome (P : Heap → Prop) (Ok : Nat → Prop) (drive : Drive) (filename : List (BitVec 8))
    (process slot : Nat) (k : Kernel) : Int → Kernel → Prop where
  /-- There is no file, no memory, or no program in the file. -/
  | early {res : Int} {heap : Heap} {memory : Mem} {table : Nat → Option FileDescriptor} {p : Process} : res < 0 →
      P heap → p.task = (k.process process).task →
      FillOutcome P Ok drive filename process slot k res { k with
        heap := heap
        memory := memory
        fileDescriptors := table
        process := Function.update k.process process p }
  /-- The program was mapped, or could not be mapped. -/
  | mapped {res : Int} {k₁ : Kernel} {heap : Heap} {memory : Mem} {pages₀ pages : PageStore} {p : Process}
      {stack task d directory : Nat} {tables : List Nat} {ip : BitVec 32}
      {reads : List (ImageMember × Option ImageMember)} :
      processLoadData drive filename process k = .ok (0, k₁) → p = (k₁.process process).placed stack slot task →
      stack ≠ 0 → Ok stack → task ≠ 0 → Ok task → P heap → MadeDirectory Ok k.pages pages₀ d directory tables →
      processMapMemory memory pages₀ d p = some (res, pages) →
      FillOutcome P Ok drive filename process slot k res { k with
        heap := heap
        memory := memory
        pages := pages
        tasks := taskNewLink (k.tasks.store task (taskInit process d ip)) task
        process := Function.update k.process process p
        unionReads := k.unionReads ++ reads }

section Load

variable {P : Heap → Prop} {Ok : Nat → Prop} {drive : Drive} {filename : List (BitVec 8)} {process slot : Nat}
  {k k' : Kernel} {res : Int}

/-- The data of a program changes the heap, the bytes, and its own structure. -/
theorem processLoadData_keeps (hr : HeapRule P Ok) (hP : P k.heap)
    (hrun : processLoadData drive filename process k = .ok (res, k')) : P k'.heap ∧
      ∃ heap memory table p, p.task = (k.process process).task ∧ p.allocations = (k.process process).allocations ∧
        (0 ≤ res → table = k.fileDescriptors ∧ res = 0) ∧ k' = { k with
          heap := heap
          memory := memory
          fileDescriptors := table
          process := Function.update k.process process p } := by
  have hsame : Function.update k.process process (k.process process) = k.process := Function.update_eq_self ..
  cases processLoadData_run hr hP hrun with
  | failed hneg hP' hk' =>
      obtain ⟨heap, memory, table, rfl⟩ := hk'
      refine ⟨hP', heap, memory, table, k.process process, rfl, rfl, fun hres => absurd hneg (by omega), ?_⟩
      rw [hsame]
  | @elf elfFile _ _ _ _ _ hkeeps =>
      obtain ⟨hP', heap, memory, rfl⟩ := hkeeps
      exact ⟨hP', heap, memory, k.fileDescriptors, (k.process process).withElf elfFile, rfl, rfl,
        fun _ => ⟨rfl, rfl⟩, rfl⟩
  | @binary ptr size _ _ _ _ _ hkeeps =>
      obtain ⟨hP', heap, memory, rfl⟩ := hkeeps
      exact ⟨hP', heap, memory, k.fileDescriptors, (k.process process).withBinary ptr size, rfl, rfl,
        fun _ => ⟨rfl, rfl⟩, rfl⟩

/-- What `process_load_for_slot` does behind the stack. -/
theorem processFill_place (hr : ReadyRule P Ok) (hP : P k.heap) {stack : Nat} (hrun : (do
      modifyProcess process fun p => p.withStack stack slot
      let task ← Kernel.taskNew process
      match task with
      | .error _ => throw .undefined
      | .ok task =>
          modifyProcess process fun p => { p with task := task }
          kernelProcessMapMemory process : KM Int) k = .ok (res, k')) :
    ∃ task d directory tables ip heap memory pages₀ pages reads, task ≠ 0 ∧ Ok task ∧ P heap ∧
      MadeDirectory Ok k.pages pages₀ d directory tables ∧
      heap = heapAfter k.heap (Kernel.sizeofTask :: pagingNewSizes) ∧
      heapAnswers k.heap (Kernel.sizeofTask :: pagingNewSizes) = task :: directory :: (tables ++ [d]) ∧
      0 ∉ task :: directory :: (tables ++ [d]) ∧
      processMapMemory memory pages₀ d ((k.process process).placed stack slot task) = some (res, pages) ∧
      k' = { k with
        heap := heap
        memory := memory
        pages := pages
        tasks := taskNewLink (k.tasks.store task (taskInit process d ip)) task
        process := Function.update k.process process ((k.process process).placed stack slot task)
        unionReads := k.unionReads ++ reads } := by
  rw [bind_of_ok modifyProcess_eq] at hrun
  obtain ⟨r, k₂, hnew, hmade⟩ := bind_eq_ok.mp hrun
  have hP₁ : P (k.setProcess process ((k.process process).withStack stack slot)).heap := hP
  obtain ⟨task, d, directory, tables, ip, heap, memory, pages₀, reads, hr₂, htask, htaskOk, hP₂, hdirectory, hheap,
    hanswers, hnonzero, hk₂⟩ := taskNew_run hr hP₁ hnew
  subst hr₂
  change (modifyProcess process (fun p => { p with task := task }) >>= fun _ => kernelProcessMapMemory process) k₂
    = _ at hmade
  rw [bind_of_ok modifyProcess_eq] at hmade
  -- the structure is written twice
  have hplaced : k₂.setProcess process { k₂.process process with task := task } = { k with
      heap := heap
      memory := memory
      pages := pages₀
      tasks := taskNewLink (k.tasks.store task (taskInit process d ip)) task
      process := Function.update k.process process ((k.process process).placed stack slot task)
      unionReads := k.unionReads ++ reads } := by
    have hself : k₂.process process = (k.process process).withStack stack slot := by
      rw [hk₂]
      exact Function.update_self ..
    have htwice : Function.update (Function.update k.process process ((k.process process).withStack stack slot)) process
        ((k.process process).placed stack slot task)
        = Function.update k.process process ((k.process process).placed stack slot task) := Function.update_idem ..
    rw [hself, hk₂, ← htwice]
    rfl
  rw [hplaced] at hmade
  obtain ⟨member, pages, _, _, hmapped, hk'⟩ := kernelProcessMapMemory_run hmade
  have hself : ∀ q : Process, Function.update k.process process q process = q := fun q => Function.update_self ..
  have hdir :
      ∀ l : TaskList, ((taskNewLink (l.store task (taskInit process d ip)) task).task task).pageDirectory = d := by
    intro l
    rw [taskNewLink_pageDirectory]
    show (Function.update l.task task (taskInit process d ip) task).pageDirectory = d
    rw [Function.update_self]
    rfl
  have htasked : ((k.process process).placed stack slot task).task = task := rfl
  simp only [hself, htasked, hdir] at hmapped hk'
  rw [List.append_assoc] at hk'
  exact ⟨task, d, directory, tables, ip, heap, memory, pages₀, pages, _, htask, htaskOk, hP₂, hdirectory, hheap, hanswers,
    hnonzero, hmapped, hk'⟩

/-- **A run of `process_load_for_slot`** from the cleared structure on. -/
theorem processFill_run (hr : ReadyRule P Ok) (hP : P k.heap)
    (hrun : processFill drive filename process slot k = .ok (res, k')) :
    FillOutcome P Ok drive filename process slot k res k' := by
  obtain ⟨res₁, k₁, hdata, hrest⟩ := bind_eq_ok.mp hrun
  obtain ⟨hP₁, heap₁, memory₁, table, p₁, htask, halloc, htable, hk₁⟩ := processLoadData_keeps hr.toHeapRule hP hdata
  by_cases hneg : res₁ < 0
  · rw [if_pos hneg] at hrest
    cases hrest
    rw [hk₁] at hP₁ ⊢
    exact .early hneg hP₁ htask
  rw [if_neg hneg] at hrest
  obtain ⟨rfl, rfl⟩ := htable (by omega)
  obtain ⟨stack, k₂, hstack, hplace⟩ := bind_eq_ok.mp hrest
  obtain ⟨hstackOk, hP₂, heap₂, memory₂, hk₂⟩ :=
    kzalloc_keeps hr.toHeapRule (by decide) k₁ stack k₂ (Keeps.refl hP₁) hstack
  by_cases hnull : stack = 0
  · rw [if_pos hnull] at hplace
    cases hplace
    rw [hk₂] at hP₂ ⊢
    rw [hk₁]
    exact .early (by decide) hP₂ htask
  rw [if_neg hnull] at hplace
  obtain ⟨task, d, directory, tables, ip, heap, memory, pages₀, pages, reads, htask₀, htaskOk, hP', hmade, _, _, _, hmap,
    hk'⟩ := processFill_place hr hP₂ hplace
  have hupdate : Function.update k₂.process process ((k₂.process process).placed stack slot task)
      = Function.update k.process process ((k₁.process process).placed stack slot task) := by
    rw [hk₂, hk₁]
    exact Function.update_idem ..
  have hpages : k₂.pages = k.pages := by rw [hk₂, hk₁]
  have hself : (k₂.process process).placed stack slot task = (k₁.process process).placed stack slot task := by rw [hk₂]
  rw [hpages] at hmade
  rw [hself] at hmap
  rw [hupdate] at hk'
  have hreads : k₂.unionReads = k.unionReads := by rw [hk₂, hk₁]
  have htasks : k₂.tasks = k.tasks := by rw [hk₂, hk₁]
  rw [hreads, htasks] at hk'
  have heq : k' = { k with
      heap := heap
      memory := memory
      pages := pages
      tasks := taskNewLink (k.tasks.store task (taskInit process d ip)) task
      process := Function.update k.process process ((k₁.process process).placed stack slot task)
      unionReads := k.unionReads ++ reads } := by
    rw [hk', hk₂, hk₁]
  rw [heq]
  exact .mapped hdata rfl hnull hstackOk htask₀ htaskOk hP' hmade hmap

/-- The result code of `process_map_memory`. -/
theorem processMapMemory_le {m : Mem} {s s' : PageStore} {d : Nat} {p : Process}
    (hmap : processMapMemory m s d p = some (res, s')) : res ≤ 0 := by
  have hloop : ∀ elfFile phdrs left i s, (processMapElfLoop m d elfFile phdrs left i s).1 ≤ 0 := by
    intro elfFile phdrs left
    induction left with
    | zero => exact fun i s => Int.le_refl 0
    | succ left ih =>
        intro i s
        rw [processMapElfLoop_succ]
        split
        · exact ih (i + 1) _
        · show -EINVARG ≤ 0
          decide
  obtain ⟨⟨res₁, s₁⟩, hmapped, heq⟩ := Option.map_eq_some_iff.mp hmap
  have hfirst : res₁ ≤ 0 := by
    split at hmapped
    · have helf : (processMapElf m s d p.image).1 = res₁ := congrArg Prod.fst (Option.some.inj hmapped)
      rw [← helf]
      exact hloop _ _ _ _ _
    · split at hmapped
      · have hbinary : (processMapBinary s d p).1 = res₁ := congrArg Prod.fst (Option.some.inj hmapped)
        rw [← hbinary]
        exact Int.le_refl 0
      · cases hmapped
  change (if res₁ < 0 then (res₁, s₁) else _) = _ at heq
  split at heq
  · cases heq
    exact hfirst
  · cases heq
    exact hfirst

/-- **`task_free`** on the whole kernel. -/
theorem taskFree_run {task : Nat} {d : Nat} (hr : HeapRule P Ok) (hP : P k.heap)
    (hd : (k.tasks.task task).pageDirectory = d) (hfree : Freeable Ok k.pages d) (htask : Ok task)
    (hrun : Kernel.taskFree task k = .ok ((), k')) : ∃ heap memory, P heap ∧ k' = { k with
      heap := heap
      memory := memory
      tasks := taskFree k.tasks task } := by
  obtain ⟨_, k₁, hderef, hrest⟩ := bind_eq_ok.mp hrun
  obtain ⟨_, hsame⟩ := deref_run hderef
  rw [hsame] at hrest
  change (pagingFree (k.tasks.task task).pageDirectory >>= fun _ => _ : KM Unit) k = _ at hrest
  obtain ⟨_, k₂, hpaging, hlast⟩ := bind_eq_ok.mp hrest
  rw [hd] at hpaging
  obtain ⟨hP₂, heap₂, memory₂, rfl⟩ := pagingFree_keeps hr hfree k () k₂ (Keeps.refl hP) hpaging
  cases hlast
  exact ⟨_, _, hr.free hP₂ htask, rfl⟩

/-- The tasks after a load that failed: a task may have been linked and freed again. -/
inductive TasksUndone (Ok : Nat → Prop) (l : TaskList) : TaskList → Prop where
  | same : TasksUndone Ok l l
  | undone {task : Nat} {s : Task} : task ≠ 0 → Ok task → s.next = 0 → s.prev = 0 →
      TasksUndone Ok l (taskFree (taskNewLink (l.store task s) task) task)

/-- The state after a load that failed behind the process structure. -/
structure LoadUndone (P : Heap → Prop) (Ok : Nat → Prop) (k k' : Kernel) : Prop where
  heap : P k'.heap
  tasks : TasksUndone Ok k.tasks k'.tasks
  processes : k'.processes = k.processes
  currentProcess : k'.currentProcess = k.currentProcess

/-- What `process_load_for_slot` does once it has allocated a process structure. -/
inductive FilledOutcome (P : Heap → Prop) (Ok : Nat → Prop) (drive : Drive) (filename : List (BitVec 8))
    (slot process : Nat) (k : Kernel) : Int × Nat → Kernel → Prop where
  | failed {res : Int} {k' : Kernel} : res < 0 → LoadUndone P Ok k k' →
      FilledOutcome P Ok drive filename slot process k (res, 0) k'
  | loaded {k' : Kernel} : FillOutcome P Ok drive filename process slot (k.setProcess process {}) 0 k' →
      FilledOutcome P Ok drive filename slot process k (0, process)
        { k' with processes := Function.update k'.processes slot process }

/-- The exit of `process_load_for_slot` after an error. -/
theorem processLoadForSlot_exit {r : Int × Nat} (hrun : (do
      let k ← get
      if (k.process process).task ≠ 0 then Kernel.taskFree (k.process process).task
      return (res, 0) : KM (Int × Nat)) k = .ok (r, k')) :
    r = (res, 0) ∧ (((k.process process).task = 0 ∧ k' = k) ∨
      Kernel.taskFree (k.process process).task k = .ok ((), k')) := by
  change (if (k.process process).task ≠ 0 then (Kernel.taskFree (k.process process).task >>= fun _ => pure (res, 0))
    else pure (res, 0) : KM (Int × Nat)) k = _ at hrun
  by_cases hnull : (k.process process).task = 0
  · rw [if_neg (not_not_intro hnull)] at hrun
    cases hrun
    exact ⟨rfl, Or.inl ⟨hnull, rfl⟩⟩
  · rw [if_pos hnull] at hrun
    obtain ⟨_, k₁, hfree, hdone⟩ := bind_eq_ok.mp hrun
    cases hdone
    exact ⟨rfl, Or.inr hfree⟩

/-- A failed load that had come as far as its task. -/
theorem FillOutcome.undone (hr : ReadyRule P Ok) {k₁ : Kernel}
    (h : FillOutcome P Ok drive filename process slot (k.setProcess process {}) res k₁) {r : Int × Nat}
    (hexit : r = (res, 0) ∧ (((k₁.process process).task = 0 ∧ k' = k₁) ∨
      Kernel.taskFree (k₁.process process).task k₁ = .ok ((), k'))) : LoadUndone P Ok k k' := by
  have hself : ∀ (f : Nat → Process) (q : Process), Function.update f process q process = q :=
    fun f q => Function.update_self ..
  obtain ⟨_, hexit⟩ := hexit
  cases h with
  | early _ hP htask =>
      -- the structure was cleared, so that there is no task
      have hnull : ((k.setProcess process {}).process process).task = 0 := congrArg Process.task (hself _ _)
      rcases hexit with ⟨_, rfl⟩ | hfree
      · exact ⟨hP, .same, rfl, rfl⟩
      · simp only [hself, htask, hnull] at hfree
        cases hfree
  | @mapped k₂ heap memory pages₀ pages p stack task d directory tables ip reads hdata hp hstack hstackOk htask
      htaskOk hP hmade hmap =>
      have hptask : p.task = task := by rw [hp]; rfl
      simp only [hself, hptask] at hexit
      rcases hexit with ⟨hnull, _⟩ | hfree
      · exact absurd hnull htask
      have hd : ((taskNewLink (k.tasks.store task (taskInit process d ip)) task).task task).pageDirectory = d := by
        rw [taskNewLink_pageDirectory]
        exact congrArg Task.pageDirectory (show Function.update k.tasks.task task (taskInit process d ip) task = _ from
          Function.update_self ..)
      have hpages : Freeable Ok pages d := hmade.freeable.same (processMapMemory_same hmade.dirsOk rfl hmap) rfl
      obtain ⟨heap', memory', hP', rfl⟩ := taskFree_run hr.toHeapRule hP hd hpages htaskOk hfree
      exact ⟨hP', .undone htask htaskOk rfl rfl, rfl, rfl⟩

/-- Filling the structure, and the exits of `process_load_for_slot`. -/
theorem processLoadForSlot_filled (hr : ReadyRule P Ok) (hP : P k.heap) {r : Int × Nat} {k₁ : Kernel}
    (hfill : processFill drive filename process slot (k.setProcess process {}) = .ok (res, k₁))
    (hexit : (res < 0 ∧ r = (res, 0) ∧ (((k₁.process process).task = 0 ∧ k' = k₁) ∨
        Kernel.taskFree (k₁.process process).task k₁ = .ok ((), k'))) ∨
      ¬ res < 0 ∧ r = (res, process) ∧ k' = { k₁ with processes := Function.update k₁.processes slot process }) :
    FilledOutcome P Ok drive filename slot process k r k' := by
  have hP₀ : P (k.setProcess process {}).heap := hP
  have houtcome := processFill_run hr hP₀ hfill
  rcases hexit with ⟨hneg, rfl, hfreed⟩ | ⟨hneg, rfl, rfl⟩
  · exact .failed hneg (houtcome.undone hr ⟨rfl, hfreed⟩)
  · have hzero : res = 0 := by
      cases houtcome with
      | early hneg' => exact absurd hneg' hneg
      | mapped _ _ _ _ _ _ _ _ hmap =>
          have hle := processMapMemory_le hmap
          omega
    subst hzero
    exact .loaded houtcome

/-- All slots are taken. -/
def SlotsFull (k : Kernel) : Prop := ∀ i, i < bimbleosMaxProcesses → k.processes i ≠ 0

theorem slotsFull_or (k : Kernel) : SlotsFull k ∨ ∃ slot, FirstSlot k slot := by
  cases hfind : (List.range bimbleosMaxProcesses).find? fun i => decide (k.processes i = 0) with
  | none =>
      refine Or.inl fun i hi hempty => ?_
      exact List.find?_eq_none.mp hfind i (List.mem_range.mpr hi) (decide_eq_true hempty)
  | some slot =>
      obtain ⟨hempty, hmem, hbefore⟩ := List.find?_range_eq_some.mp hfind
      refine Or.inr ⟨slot, List.mem_range.mp hmem, of_decide_eq_true hempty, fun j hj hzero => ?_⟩
      simpa [hzero] using hbefore j hj

theorem processGetFreeSlot_full (h : SlotsFull k) : processGetFreeSlot k = .ok (-EISTKN, k) := by
  have hfind : (List.range bimbleosMaxProcesses).find? (fun i => decide (k.processes i = 0)) = none := by
    refine List.find?_eq_none.mpr fun i hi => ?_
    simpa using h i (List.mem_range.mp hi)
  unfold processGetFreeSlot
  rw [get_bind]
  simp only [hfind]
  rfl

theorem processGetFreeSlot_first (h : FirstSlot k slot) : processGetFreeSlot k = .ok (slot, k) := by
  have hfind : (List.range bimbleosMaxProcesses).find? (fun i => decide (k.processes i = 0)) = some slot := by
    refine List.find?_range_eq_some.mpr ⟨decide_eq_true h.free, List.mem_range.mpr h.lt, fun j hj => ?_⟩
    simpa using h.before j hj
  unfold processGetFreeSlot
  rw [get_bind]
  simp only [hfind]
  rfl

theorem processGet_of_lt (h : slot < bimbleosMaxProcesses) : processGet slot k = .ok (k.processes slot, k) := by
  unfold processGet
  show (if (slot : Int) < 0 ∨ (bimbleosMaxProcesses : Int) ≤ slot then pure 0 else pure (k.processes slot) : KM Nat) k = _
  rw [if_neg (by omega)]
  rfl

/-- `process_load` behind the slot. -/
theorem processLoad_first (hfirst : FirstSlot k slot) : processLoad drive filename k = (do
    let process ← kzalloc sizeofProcess
    if process = 0 then return (-ENOMEM, 0)
    else
      modifyProcess process fun _ => {}
      let res ← processFill drive filename process slot
      if res < 0 then
        let k ← get
        if (k.process process).task ≠ 0 then Kernel.taskFree (k.process process).task
        return (res, 0)
      else
        modify fun k => { k with processes := Function.update k.processes slot process }
        return (res, process) : KM (Int × Nat)) k := by
  have hslot : ¬ (slot : Int) < 0 := by omega
  unfold processLoad processLoadForSlot
  rw [bind_of_ok (processGetFreeSlot_first hfirst), if_neg hslot, Int.toNat_natCast,
    bind_of_ok (processGet_of_lt hfirst.lt), hfirst.free, if_neg (not_not_intro rfl)]

/-- Behind the structure. -/
theorem processLoad_filling {k₁ : Kernel} (hfirst : FirstSlot k slot)
    (halloc : kzalloc sizeofProcess k = .ok (process, k₁)) (hne : process ≠ 0)
    (hfill : processFill drive filename process slot (k₁.setProcess process {}) = .ok (res, k')) :
    processLoad drive filename k = (if res < 0 then do
        let k ← get
        if (k.process process).task ≠ 0 then Kernel.taskFree (k.process process).task
        return (res, 0)
      else do
        modify fun k => { k with processes := Function.update k.processes slot process }
        return (res, process) : KM (Int × Nat)) k' := by
  rw [processLoad_first hfirst, bind_of_ok halloc, if_neg hne, bind_of_ok modifyProcess_eq, bind_of_ok hfill]

/-- The ways through `process_load`: without a slot or a structure nothing has happened. -/
theorem processLoad_cases {r : Int × Nat} (hrun : processLoad drive filename k = .ok (r, k')) :
    (SlotsFull k ∧ r = (-EISTKN, 0) ∧ k' = k) ∨ ∃ slot process k₁, FirstSlot k slot ∧
      kzalloc sizeofProcess k = .ok (process, k₁) ∧ ((process = 0 ∧ r = (-ENOMEM, 0) ∧ k' = k₁) ∨
        process ≠ 0 ∧ ∃ res k₂, processFill drive filename process slot (k₁.setProcess process {}) = .ok (res, k₂) ∧
          ((res < 0 ∧ r = (res, 0) ∧ (((k₂.process process).task = 0 ∧ k' = k₂) ∨
              Kernel.taskFree (k₂.process process).task k₂ = .ok ((), k'))) ∨
            ¬ res < 0 ∧ r = (res, process) ∧
              k' = { k₂ with processes := Function.update k₂.processes slot process })) := by
  rcases slotsFull_or k with hfull | ⟨slot, hfirst⟩
  · unfold processLoad at hrun
    rw [bind_of_ok (processGetFreeSlot_full hfull), if_pos (by decide)] at hrun
    cases hrun
    exact Or.inl ⟨hfull, rfl, rfl⟩
  rw [processLoad_first hfirst] at hrun
  obtain ⟨process, k₁, halloc, hrest⟩ := bind_eq_ok.mp hrun
  refine Or.inr ⟨slot, process, k₁, hfirst, halloc, ?_⟩
  by_cases hnull : process = 0
  · rw [if_pos hnull] at hrest
    cases hrest
    exact Or.inl ⟨hnull, rfl, rfl⟩
  rw [if_neg hnull, bind_of_ok modifyProcess_eq] at hrest
  obtain ⟨res, k₂, hfill, hdone⟩ := bind_eq_ok.mp hrest
  refine Or.inr ⟨hnull, res, k₂, hfill, ?_⟩
  by_cases hneg : res < 0
  · rw [if_pos hneg] at hdone
    exact Or.inl ⟨hneg, processLoadForSlot_exit hdone⟩
  · rw [if_neg hneg] at hdone
    cases hdone
    exact Or.inr ⟨hneg, rfl, rfl⟩

/-- What filled the structure of a process that was loaded. -/
theorem processLoad_fill (hrun : processLoad drive filename k = .ok ((0, process), k')) : ∃ slot k₁ k₂,
    FirstSlot k slot ∧ kzalloc sizeofProcess k = .ok (process, k₁) ∧ process ≠ 0 ∧
    processFill drive filename process slot (k₁.setProcess process {}) = .ok (0, k₂) ∧
    k' = { k₂ with processes := Function.update k₂.processes slot process } := by
  rcases processLoad_cases hrun with
    ⟨_, hcode, _⟩ | ⟨slot, ptr, k₁, hfirst, halloc, ⟨_, hcode, _⟩ | ⟨hne, res, k₂, hfill, hexits⟩⟩
  · cases hcode
  · cases hcode
  rcases hexits with ⟨hneg, hcode, _⟩ | ⟨_, hcode, hk'⟩
  · cases hcode
    exact absurd hneg (Int.lt_irrefl 0)
  · cases hcode
    exact ⟨slot, k₁, k₂, hfirst, halloc, hne, hfill, hk'⟩

/-- **A run of `process_load`**: without a slot or a process structure nothing has happened. -/
theorem processLoad_run {r : Int × Nat} (hrun : processLoad drive filename k = .ok (r, k')) :
    (SlotsFull k ∧ r = (-EISTKN, 0) ∧ k' = k) ∨ ∃ slot, FirstSlot k slot ∧ ∃ process k₁,
      kzalloc sizeofProcess k = .ok (process, k₁) ∧ ((process = 0 ∧ r = (-ENOMEM, 0) ∧ k' = k₁) ∨
        process ≠ 0 ∧ ∀ (P : Heap → Prop) (Ok : Nat → Prop), ReadyRule P Ok → P k₁.heap →
          FilledOutcome P Ok drive filename slot process k₁ r k') := by
  rcases processLoad_cases hrun with hfull | ⟨slot, process, k₁, hfirst, halloc, hnone | ⟨hne, res, k₂, hfill, hexit⟩⟩
  · exact Or.inl hfull
  · exact Or.inr ⟨slot, hfirst, process, k₁, halloc, Or.inl hnone⟩
  · refine Or.inr ⟨slot, hfirst, process, k₁, halloc, Or.inr ⟨hne, fun P Ok hr hP => ?_⟩⟩
    exact processLoadForSlot_filled hr hP hfill hexit

/-- **A load that succeeds**: the slot, the process structure, and what filled it. -/
theorem processLoad_zero (hrun : processLoad drive filename k = .ok ((0, process), k')) :
    ∃ slot k₁, FirstSlot k slot ∧ kzalloc sizeofProcess k = .ok (process, k₁) ∧ process ≠ 0 ∧
      ∀ (P : Heap → Prop) (Ok : Nat → Prop), ReadyRule P Ok → P k₁.heap → ∃ k₂,
        FillOutcome P Ok drive filename process slot (k₁.setProcess process {}) 0 k₂ ∧
        k' = { k₂ with processes := Function.update k₂.processes slot process } := by
  obtain ⟨slot, k₁, k₂, hfirst, halloc, hne, hfill, hk'⟩ := processLoad_fill hrun
  exact ⟨slot, k₁, hfirst, halloc, hne, fun P Ok hr hP => ⟨k₂, processFill_run hr hP hfill, hk'⟩⟩

/-- What a client keeps, a load that succeeds keeps. -/
theorem processLoad_keeps (hr : ReadyRule P Ok) (hP : P k.heap)
    (hrun : processLoad drive filename k = .ok ((0, process), k')) : P k'.heap := by
  obtain ⟨slot, k₁, _, halloc, _, hfilled⟩ := processLoad_zero hrun
  have hP₁ := (kzalloc_keeps hr.toHeapRule (by decide) k process k₁ (Keeps.refl hP) halloc).2.1
  obtain ⟨k₂, hfill, rfl⟩ := hfilled P Ok hr hP₁
  cases hfill with
  | early hneg => exact absurd hneg (by decide)
  | mapped _ _ _ _ _ _ hP' => exact hP'

/-- A process that was just loaded has allocated nothing, and has a task. -/
theorem processLoad_fresh (hready : k.heap.Ready) (hrun : processLoad drive filename k = .ok ((0, process), k')) :
    (k'.process process).allocations = (fun _ => {}) ∧ (k'.process process).task ≠ 0 := by
  obtain ⟨slot, k₁, _, halloc, _, hfilled⟩ := processLoad_zero hrun
  have hready₁ := (kzalloc_keeps readyRule.toHeapRule (by decide) k process k₁ (Keeps.refl hready) halloc).2.1
  obtain ⟨k₂, hfill, rfl⟩ := hfilled _ _ readyRule hready₁
  cases hfill with
  | early hneg => exact absurd hneg (by decide)
  | @mapped k₃ heap memory pages₀ pages p stack task d directory tables ip reads hdata hp _ _ htask _ _ _ _ =>
      obtain ⟨_, _, _, _, p₁, _, hallocations, _, hk₃⟩ := processLoadData_keeps HeapRule.trivial True.intro hdata
      have hself : k₃.process process = p₁ := by
        rw [hk₃]
        exact Function.update_self ..
      have hcleared : (k₁.setProcess process {}).process process = {} := Function.update_self ..
      have hnew : Function.update (k₁.setProcess process {}).process process p process = p := Function.update_self ..
      simp only [hnew]
      rw [hp]
      refine ⟨?_, htask⟩
      show (k₃.process process).allocations = _
      rw [hself, hallocations, hcleared]

/-- `process_load_switch` switches after a load that succeeded only. -/
theorem processLoadSwitch_run (hrun : processLoadSwitch drive filename k = .ok ((res, process), k')) :
    ∃ k₁, processLoad drive filename k = .ok ((res, process), k₁) ∧
      k' = if res = 0 then { k₁ with currentProcess := process } else k₁ := by
  obtain ⟨⟨res₁, process₁⟩, k₁, hload, hrest⟩ := bind_eq_ok.mp hrun
  dsimp only at hrest
  by_cases hzero : res₁ = 0
  · rw [if_pos hzero] at hrest
    obtain ⟨_, k₂, hswitch, hdone⟩ := bind_eq_ok.mp hrest
    cases hswitch
    cases hdone
    exact ⟨k₁, hload, by rw [if_pos hzero]⟩
  · rw [if_neg hzero] at hrest
    cases hrest
    exact ⟨k', hload, by rw [if_neg hzero]⟩

end Load

end BimbleOS
