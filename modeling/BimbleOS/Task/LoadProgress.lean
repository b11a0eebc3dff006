import BimbleOS.Task.LoadRuns

/-!
# `Task.LoadProgress` — when a load goes through

Once the data of a program is loaded, `process_load` needs a stack, a task, and 1026 blocks for a page
directory. What it allocates is cleared, and nothing else in memory is written: the bytes below the heap and
those of the blocks that are taken stay (`Sheltered`). So when the program can be mapped as it lies in memory
after its data was loaded, the load succeeds (`processLoad_of_prefix`).
-/

namespace BimbleOS

open Bytes CWord Exec

/-! ## Memory that an allocation leaves alone -/

/-- The byte at `a` is below the heap, or in one of the blocks of `B`. -/
def InShelter (B : Set Nat) (a : Nat) : Prop :=
  a < bimbleosHeapAddress ∨ ∃ b ∈ B, bimbleosHeapAddress + 4096 * b ≤ a ∧ a < bimbleosHeapAddress + 4096 * b + 4096

theorem InShelter.mono {B B' : Set Nat} {a : Nat} (h : InShelter B a) (hsub : B ⊆ B') : InShelter B' a := by
  rcases h with hlow | ⟨b, hb, hin⟩
  · exact Or.inl hlow
  · exact Or.inr ⟨b, hsub hb, hin⟩

/-- The blocks of `B` are shielded, and the bytes in them, and below the heap, are those of `m`. -/
structure Sheltered (B E : Set Nat) (m : Mem) (k : Kernel) : Prop where
  shields : k.heap.Shields B E
  memory : ∀ a, InShelter B a → k.memory a = m a

section Shelter

variable {B E : Set Nat} {m : Mem} {flags : BitVec 32}

/-- The bytes from `ptr` on are beside the shelter. -/
def Beside (B : Set Nat) (ptr size : Nat) : Prop := ∀ a, InShelter B a → a < ptr ∨ ptr + size ≤ a

/-- **An allocation** clears a region beside the shelter. -/
theorem kzalloc_beside {size ptr : Nat} {k k' : Kernel} (h : Sheltered B E m k) (hsize : size < 4294967296)
    (hrun : kzalloc size k = .ok (ptr, k')) :
    (ptr ≠ 0 → Beside B ptr size) ∧ Misses B ptr ∧ Sheltered B E m k' := by
  obtain ⟨hshields, hok⟩ := (shieldRule B E).malloc h.shields hsize
  obtain ⟨hptr, memory, hk'⟩ := kzalloc_run hrun
  rw [← hptr] at hok
  have hheap : k'.heap.Shields B E := by
    rw [hk']
    exact hshields
  by_cases hnull : ptr = 0
  · -- nothing was answered, and nothing is cleared
    rw [kzalloc_eq, if_pos (hptr.symm.trans hnull)] at hrun
    cases hrun
    exact ⟨fun hne => absurd hnull hne, hok, hheap, h.memory⟩
  obtain ⟨hinside, hcleared⟩ := kzalloc_used hrun hnull
  have hbeside : Beside B ptr size := by
    intro a ha
    rcases ha with hlow | ⟨b, hb, hlo, hhi⟩
    · obtain ⟨s, hs⟩ := heapMalloc_address h.shields.ready hptr.symm hnull
      exact Or.inl (by omega)
    · rcases Nat.eq_zero_or_pos size with rfl | hpos
      · omega
      · have hapart := h.shields.apart hb hpos hptr.symm hnull hinside
        omega
  refine ⟨fun _ => hbeside, hok, hheap, fun a ha => ?_⟩
  have hout := hbeside a ha
  rw [← h.memory a ha, hcleared]
  exact if_neg (by omega)

theorem kzalloc_sheltered {size : Nat} (hsize : size < 4294967296) :
    Triple (Sheltered B E m) (kzalloc size) fun ptr k => Misses B ptr ∧ Sheltered B E m k :=
  fun _ _ _ h hrun => (kzalloc_beside h hsize hrun).2

/-- A change that leaves the heap and the bytes alone. -/
theorem Sheltered.congr {k k' : Kernel} (h : Sheltered B E m k) (hheap : k'.heap = k.heap)
    (hmemory : k'.memory = k.memory) : Sheltered B E m k' :=
  ⟨by rw [hheap]; exact h.shields, by rw [hmemory]; exact h.memory⟩

theorem pagingNewLoop_sheltered {directory left i : Nat} :
    Triple (Sheltered B E m) (pagingNewLoop flags directory left i) fun _ => Sheltered B E m := by
  induction left generalizing i with
  | zero => exact Triple.pure fun _ hk => hk
  | succ left ih =>
      rw [pagingNewLoop]
      refine Triple.bind (kzalloc_sheltered (by decide)) fun entry => Triple.const fun _ => ?_
      refine Triple.bind deref_keeps fun _ => Triple.const fun _ => ?_
      refine Triple.bind deref_keeps fun _ => Triple.const fun _ => ?_
      refine Triple.bind (Triple.modify fun k hk => ?_) fun _ => ih
      exact hk.congr rfl rfl

theorem pagingNew_sheltered :
    Triple (Sheltered B E m) (pagingNew flags) fun d k => d ≠ 0 ∧ Sheltered B E m k := by
  unfold pagingNew
  refine Triple.bind (kzalloc_sheltered (by decide)) fun directory => Triple.const fun _ => ?_
  refine Triple.bind pagingNewLoop_sheltered fun _ => ?_
  refine Triple.bind (kzalloc_sheltered (by decide)) fun d => Triple.const fun _ => ?_
  refine Triple.bind deref_keeps fun _ => Triple.const fun hd => ?_
  refine Triple.bind (Triple.modify fun k hk => ?_) fun _ => Triple.pure fun _ hk => ⟨hd, hk⟩
  exact hk.congr rfl rfl

end Shelter

/-! ## Mapping goes through -/

/-- An ELF program is mapped when the range of each header can be. -/
theorem processMapMemory_of_headers {m : Mem} {s : PageStore} {d file base : Nat} {p : Process}
    (hfile : p.filetype = processFiletypeElf) (himage : p.image = file) (hmem : elfMemory m file = base)
    (hmaps : ∀ i, i < ePhnum m base → PhdrMaps m file (phdrAt (elfPheader m base) i)) :
    ∃ s', processMapMemory m s d p = some (0, s') := by
  have hloop : ∀ left i s, (∀ j, i ≤ j → j < i + left → PhdrMaps m file (phdrAt (elfPheader m base) j)) →
      ∃ s', processMapElfLoop m d file (elfPheader m base) left i s = (0, s') := by
    intro left
    induction left with
    | zero => exact fun _ s _ => ⟨s, rfl⟩
    | succ left ih =>
        intro i s hall
        rw [processMapElfLoop_succ, if_pos (hall i (Nat.le_refl i) (by omega))]
        exact ih (i + 1) _ fun j hlo hhi => hall j (by omega) (by omega)
  obtain ⟨s', hdone⟩ := hloop (ePhnum m base) 0 s fun j _ hj => hmaps j (by omega)
  unfold processMapMemory processMapElf
  rw [if_pos hfile, himage, hmem, hdone]
  exact ⟨_, rfl⟩

/-! ## The steps behind the data -/

section Steps

variable {drive : Drive} {filename : List (BitVec 8)} {process slot stack task d : Nat} {k k' k₁ k₂ k₃ k₄ : Kernel}
  {member : ImageMember} {flags : BitVec 32}

/-- The entry point is read from the program. -/
theorem entryPoint_eq (process : Nat) (k : Kernel) : ∃ ip reads,
    Kernel.entryPoint process k = .ok (ip, { k with unionReads := k.unionReads ++ reads }) := by
  unfold Kernel.entryPoint
  show ∃ ip reads, (if (k.process process).filetype = processFiletypeElf then _ else _ : KM (BitVec 32)) k = _
  by_cases helf : (k.process process).filetype = processFiletypeElf
  · rw [if_pos helf]
    exact ⟨_, _, rfl⟩
  · rw [if_neg helf]
    refine ⟨BitVec.ofNat 32 bimbleosProgramVirtualAddress, [], ?_⟩
    rw [List.append_nil]
    rfl

/-- `task_new` with memory for the task, and a page directory. -/
theorem taskNew_of_steps (halloc : kzalloc Kernel.sizeofTask k = .ok (task, k₁)) (htask : task ≠ 0)
    (hpaging : pagingNew (pagingIsPresent ||| pagingAccessFromAll) k₁ = .ok (d, k₂)) (hd : d ≠ 0) : ∃ ip reads,
    Kernel.taskNew process k = .ok (.ok task, { k₂ with
      tasks := taskNewLink (k₂.tasks.store task (taskInit process d ip)) task
      unionReads := k₂.unionReads ++ reads }) := by
  obtain ⟨ip, reads, hentry⟩ := entryPoint_eq process k₂
  have hinit : Kernel.taskInit task process k₁ = .ok (0, { k₂ with
      tasks := k₂.tasks.store task (taskInit process d ip)
      unionReads := k₂.unionReads ++ reads }) := by
    unfold Kernel.taskInit
    rw [bind_of_ok hpaging, if_neg hd, bind_of_ok hentry]
    rfl
  have hok : ¬ (0 : Int) ≠ bimbleosAllOk := not_not_intro rfl
  refine ⟨ip, reads, ?_⟩
  unfold Kernel.taskNew
  rw [bind_of_ok halloc, if_neg htask, bind_of_ok hinit, if_neg hok]
  rfl

/-- `process_map_memory` on the kernel. -/
theorem kernelProcessMapMemory_of_map {s' : PageStore} {p : Process} (hp : k.process process = p) (htask : p.task ≠ 0)
    (htag : unionMember p.filetype = some member)
    (hmap : processMapMemory k.memory k.pages (k.tasks.task p.task).pageDirectory p = some (0, s')) :
    ∃ reads, kernelProcessMapMemory process k = .ok (0, { k with
      pages := s'
      unionReads := k.unionReads ++ reads }) := by
  subst hp
  have hdirectory : (do
      let k ← get
      deref (k.process process).task
      return (k.tasks.task (k.process process).task).pageDirectory : KM Nat) k
        = .ok ((k.tasks.task (k.process process).task).pageDirectory, k) := by
    show (deref (k.process process).task >>= fun _ => pure _ : KM Nat) k = _
    rw [bind_of_ok (deref_of_ne htask)]
    rfl
  refine ⟨[(member, (k.process process).member)], ?_⟩
  unfold kernelProcessMapMemory
  rw [bind_of_ok hdirectory, get_bind]
  have hread : readUnion process member k = .ok ((k.process process).image, { k with
      unionReads := k.unionReads ++ [(member, (k.process process).member)] }) := rfl
  simp only [htag, bind_of_ok hread, hmap]
  rfl

/-- What `process_load` does in front of the page directory: the process structure, the result of loading the data,
    the stack, and the task structure. -/
def loadPrefix (drive : Drive) (filename : List (BitVec 8)) (slot : Nat) : KM (Nat × Int × Nat × Nat) := do
  let process ← kzalloc sizeofProcess
  modifyProcess process fun _ => {}
  let res ← processLoadData drive filename process
  let stack ← kzalloc bimbleosUserProgramStackSize
  modifyProcess process fun p => p.withStack stack slot
  let task ← kzalloc Kernel.sizeofTask
  return (process, res, stack, task)

theorem loadPrefix_run {res : Int} (hrun : loadPrefix drive filename slot k = .ok ((process, res, stack, task), k₄)) :
    ∃ k₁ k₂ k₃, kzalloc sizeofProcess k = .ok (process, k₁) ∧
      processLoadData drive filename process (k₁.setProcess process {}) = .ok (res, k₂) ∧
      kzalloc bimbleosUserProgramStackSize k₂ = .ok (stack, k₃) ∧
      kzalloc Kernel.sizeofTask (k₃.setProcess process ((k₃.process process).withStack stack slot)) = .ok (task, k₄) := by
  obtain ⟨process', k₁, halloc, h₁⟩ := bind_eq_ok.mp hrun
  rw [bind_of_ok modifyProcess_eq] at h₁
  obtain ⟨res', k₂, hdata, h₂⟩ := bind_eq_ok.mp h₁
  obtain ⟨stack', k₃, hstack, h₃⟩ := bind_eq_ok.mp h₂
  rw [bind_of_ok modifyProcess_eq] at h₃
  obtain ⟨task', k₅, htask, hdone⟩ := bind_eq_ok.mp h₃
  cases hdone
  exact ⟨k₁, k₂, k₃, halloc, hdata, hstack, htask⟩

theorem loadPrefix_of_steps {res : Int} (halloc : kzalloc sizeofProcess k = .ok (process, k₁))
    (hdata : processLoadData drive filename process (k₁.setProcess process {}) = .ok (res, k₂))
    (hstack : kzalloc bimbleosUserProgramStackSize k₂ = .ok (stack, k₃))
    (htask : kzalloc Kernel.sizeofTask (k₃.setProcess process ((k₃.process process).withStack stack slot))
      = .ok (task, k₄)) : loadPrefix drive filename slot k = .ok ((process, res, stack, task), k₄) := by
  unfold loadPrefix
  rw [bind_of_ok halloc, bind_of_ok modifyProcess_eq, bind_of_ok hdata, bind_of_ok hstack, bind_of_ok modifyProcess_eq,
    bind_of_ok htask]
  rfl

theorem loadPrefix_keeps {P : Heap → Prop} {Ok : Nat → Prop} {res : Int} (hr : HeapRule P Ok) (hP : P k.heap)
    (hrun : loadPrefix drive filename slot k = .ok ((process, res, stack, task), k₄)) : P k₄.heap := by
  obtain ⟨k₁, k₂, k₃, halloc, hdata, hstack, htask⟩ := loadPrefix_run hrun
  have hP₁ := (kzalloc_keeps hr (by decide) k process k₁ (Keeps.refl hP) halloc).2.1
  have hP₂ := (processLoadData_keeps (k := k₁.setProcess process {}) hr hP₁ hdata).1
  have hP₃ := (kzalloc_keeps hr (by decide) k₂ stack k₃ (Keeps.refl hP₂) hstack).2.1
  have hP₃' : P (k₃.setProcess process ((k₃.process process).withStack stack slot)).heap := hP₃
  exact (kzalloc_keeps hr (by decide) _ task k₄ (Keeps.refl hP₃') htask).2.1

/-- **`process_load` succeeds** when the data is loaded, there is memory for the stack, the task and the page
    directory, and the program can be mapped as it lies in memory then. -/
theorem processLoad_of_prefix (hclean : k.heap.Clean) (hfirst : FirstSlot k slot)
    (hsteps : loadPrefix drive filename slot k = .ok ((process, 0, stack, task), k₄)) (hne : process ≠ 0)
    (hstack : stack ≠ 0) (htask : task ≠ 0) (hfree : 1026 ≤ k₄.heap.freeBlocks)
    (htag : unionMember (k₄.process process).filetype = some member)
    (hmap : ∀ m s d, (∀ a, InShelter k₄.heap.taken a → m a = k₄.memory a) →
      ∃ s', processMapMemory m s d { k₄.process process with task := task } = some (0, s')) :
    ∃ k', processLoad drive filename k = .ok ((0, process), k') ∧
      k'.heap.freeBlocks + 1026 = k₄.heap.freeBlocks ∧ Sheltered k₄.heap.taken ∅ k₄.memory k' ∧
      k'.process process = { k₄.process process with task := task } ∧
      k'.processes = Function.update k₄.processes slot process := by
  have hclean₄ := loadPrefix_keeps cleanRule hclean hsteps
  obtain ⟨k₁, k₂, k₃, halloc, hdata, hstackAlloc, htaskAlloc⟩ := loadPrefix_run hsteps
  obtain ⟨d, k₅, hpaging, _, hcount⟩ := @pagingNew_ok (pagingIsPresent ||| pagingAccessFromAll) k₄ hclean₄.ready hfree
  have hshelter₄ : Sheltered k₄.heap.taken ∅ k₄.memory k₄ := by
    obtain ⟨hready, htaken, hborder, _⟩ := hclean₄.shields
    exact ⟨⟨hready, htaken, hborder, fun b hb => hb.elim⟩, fun a _ => rfl⟩
  obtain ⟨hd, hshelter₅⟩ := pagingNew_sheltered k₄ d k₅ hshelter₄ hpaging
  obtain ⟨directory, tables, memory, _, _, _, hk₅⟩ := pagingNew_run hpaging
  obtain ⟨ip, reads, hnew⟩ := @taskNew_of_steps process task d _ k₄ k₅ htaskAlloc htask hpaging hd
  -- the structure before the program is mapped
  have hself : ∀ (f : Nat → Process) (q : Process), Function.update f process q process = q :=
    fun f q => Function.update_self ..
  have hp₄ : k₄.process process = (k₃.process process).withStack stack slot := by
    obtain ⟨_, _, hk₄⟩ := kzalloc_run htaskAlloc
    rw [hk₄]
    exact hself _ _
  have hplaced₄ : { k₄.process process with task := task } = (k₃.process process).placed stack slot task := by
    rw [hp₄]
    rfl
  rw [hplaced₄] at hmap ⊢
  have htag₃ : unionMember ((k₃.process process).placed stack slot task).filetype = some member := by
    rw [← hplaced₄]
    exact htag
  have hp₅ : k₅.process process = (k₃.process process).withStack stack slot := by
    rw [← hp₄, hk₅]
  generalize hk₆ : ({ k₅ with
    tasks := taskNewLink (k₅.tasks.store task (taskInit process d ip)) task
    unionReads := k₅.unionReads ++ reads } : Kernel) = k₆ at hnew
  have hp₆ : k₆.process process = (k₃.process process).withStack stack slot := by rw [← hk₆]; exact hp₅
  have hmemory₆ : k₆.memory = k₅.memory := by rw [← hk₆]
  obtain ⟨s', hmapped⟩ := hmap k₆.memory k₆.pages (k₆.tasks.task task).pageDirectory fun a ha => by
    rw [hmemory₆]
    exact hshelter₅.memory a ha
  have hp₇ : (k₆.setProcess process ((k₃.process process).placed stack slot task)).process process
      = (k₃.process process).placed stack slot task := hself _ _
  obtain ⟨reads', hlast⟩ := kernelProcessMapMemory_of_map hp₇ htask htag₃ hmapped
  have hplaced : { k₆.process process with task := task } = (k₃.process process).placed stack slot task := by
    rw [hp₆]
    rfl
  have hfill : processFill drive filename process slot (k₁.setProcess process {}) = .ok (0, { k₆ with
      process := Function.update k₆.process process ((k₃.process process).placed stack slot task)
      pages := s'
      unionReads := k₆.unionReads ++ reads' }) := by
    unfold processFill
    rw [bind_of_ok hdata, if_neg (by decide), bind_of_ok hstackAlloc, if_neg hstack, bind_of_ok modifyProcess_eq]
    refine (bind_of_ok hnew).trans ?_
    show (modifyProcess process (fun p => { p with task := task }) >>= fun _ => kernelProcessMapMemory process) k₆ = _
    rw [bind_of_ok modifyProcess_eq, hplaced]
    exact hlast
  have hprocesses : k₆.processes = k₄.processes := by rw [← hk₆, hk₅]
  refine ⟨{ k₆ with
    process := Function.update k₆.process process ((k₃.process process).placed stack slot task)
    processes := Function.update k₆.processes slot process
    pages := s'
    unionReads := k₆.unionReads ++ reads' }, ?_, ?_, ?_, ?_, ?_⟩
  · rw [processLoad_filling hfirst halloc hne hfill, if_neg (by decide)]
    rfl
  · show k₆.heap.freeBlocks + 1026 = _
    rw [← hk₆]
    exact hcount
  · refine hshelter₅.congr ?_ ?_
    · show k₆.heap = _
      rw [← hk₆]
    · exact hmemory₆
  · exact hself _ _
  · show Function.update k₆.processes slot process = _
    rw [hprocesses]

end Steps

end BimbleOS
