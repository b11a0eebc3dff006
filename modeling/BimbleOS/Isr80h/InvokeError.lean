import BimbleOS.Isr80h.Process
import BimbleOS.Task.ArgumentRuns
import BimbleOS.Task.LoadFailure
import BimbleOS.Task.ProgramPages

/-!
# `Isr80h.InvokeError` — errors of the system call that runs a command

The call refuses a null list and an empty name, then loads the program, gives it the keyboard, and only then
copies the arguments. A load that fails leaves no process behind; when the arguments cannot be copied, the
code returns the error and keeps the process, its task and the switched focus. So the call undoes what it did
exactly when the load was not reached or failed (`isr80hCommand7_undone_iff`).
-/

namespace BimbleOS

open Bytes CWord Exec Links

/-! ## What the call reads -/

/-- The physical address of the list, as the call computes it from the stack of the current task. -/
def Kernel.commandArguments (k : Kernel) : Nat :=
  let task := k.tasks.currentTask
  pagingGetPhysicalAddress k.pages (k.taskDirectory task)
    (load32 (k.taskMemory task) ((k.tasks.task task).registers.esp.toNat + 4 * 0)).toNat

/-- The call refuses its arguments. -/
def RefusesCommand (k : Kernel) : Prop := k.commandArguments = 0 ∨ k.memory k.commandArguments = 0

/-- The program name, as far as it is copied. -/
def Kernel.commandName (k : Kernel) : List (BitVec 8) := stringAt k.memory k.commandArguments (bimbleosMaxPath - 1)

/-- What the call has done when it ends. -/
inductive CommandOutcome (drive : Drive) (k : Kernel) : CallEnd → Kernel → Prop where
  | refused : RefusesCommand k → CommandOutcome drive k (.returned (-EINVARG)) k
  | notLoaded {res : Int} {process : Nat} {k' : Kernel} : ¬ RefusesCommand k →
      processLoadSwitch drive (commandDrive ++ k.commandName) k = .ok ((res, process), k') → res < 0 →
      CommandOutcome drive k (.returned res) k'
  | notInjected {res res' : Int} {process : Nat} {k₁ k' : Kernel} : ¬ RefusesCommand k →
      processLoadSwitch drive (commandDrive ++ k.commandName) k = .ok ((res, process), k₁) → ¬ res < 0 →
      processInjectArguments process k.commandArguments k₁ = .ok (res', k') → res' < 0 →
      CommandOutcome drive k (.returned res') k'
  | entered {res res' : Int} {process : Nat} {k₁ k₂ : Kernel} : ¬ RefusesCommand k →
      processLoadSwitch drive (commandDrive ++ k.commandName) k = .ok ((res, process), k₁) → ¬ res < 0 →
      processInjectArguments process k.commandArguments k₁ = .ok (res', k₂) → ¬ res' < 0 →
      (k₂.process process).task ≠ 0 → commandDrive.length + k.commandName.length < bimbleosMaxPath →
      CommandOutcome drive k (.entered (k₂.process process).task)
        { k₂ with tasks := { k₂.tasks with currentTask := (k₂.process process).task } }

section Call

variable {drive : Drive} {k k' : Kernel} {e : CallEnd} {item task : Nat}

theorem taskGetStackItem_run (hrun : taskGetStackItem task 0 k = .ok (item, k')) : task ≠ 0 ∧ k' = k ∧
    item = (load32 (k.taskMemory task) ((k.tasks.task task).registers.esp.toNat + 4 * 0)).toNat := by
  obtain ⟨_, k₁, hderef, hrest⟩ := bind_eq_ok.mp hrun
  obtain ⟨hne, rfl⟩ := deref_run hderef
  obtain ⟨k₂, k₂', hget, hread⟩ := bind_eq_ok.mp hrest
  cases hget
  split at hread
  · cases hread
  · split at hread
    · cases hread
      exact ⟨hne, rfl, rfl⟩
    · cases hread

theorem strlenAt_zero {m : Mem} {left a : Nat} (h : strlenAt m left a = some 0) : m a = 0 := by
  cases left with
  | zero => cases h
  | succ left =>
      unfold strlenAt at h
      split at h
      · assumption
      · obtain ⟨n, _, hn⟩ := Option.map_eq_some_iff.mp h
        cases hn

theorem strlenAt_succ {m : Mem} {left a n : Nat} (h : strlenAt m left a = some (n + 1)) : m a ≠ 0 := by
  cases left with
  | zero => cases h
  | succ left =>
      unfold strlenAt at h
      split at h
      · cases h
      · assumption

theorem commandPath_run {a : Nat} {path : List (BitVec 8)} (hrun : commandPath a k = .ok (path, k')) :
    k' = k ∧ path = commandDrive ++ stringAt k.memory a (bimbleosMaxPath - 1) ∧
      commandDrive.length + (stringAt k.memory a (bimbleosMaxPath - 1)).length < bimbleosMaxPath := by
  obtain ⟨k₁, k₁', hget, hrest⟩ := bind_eq_ok.mp hrun
  cases hget
  by_cases hlong : bimbleosMaxPath ≤ commandDrive.length + (stringAt k.memory a (bimbleosMaxPath - 1)).length
  · rw [if_pos hlong] at hrest
    cases hrest
  · rw [if_neg hlong] at hrest
    cases hrest
    exact ⟨rfl, rfl, Nat.lt_of_not_le hlong⟩

/-- **What the call does.** -/
theorem isr80hCommand7_outcome (hrun : isr80hCommand7InvokeSystemCommand drive k = .ok (e, k')) :
    CommandOutcome drive k e k' := by
  obtain ⟨k₁, k₁', hget, hrest⟩ := bind_eq_ok.mp hrun
  cases hget
  obtain ⟨item, k₂, hitem, htranslated⟩ := bind_eq_ok.mp hrest
  obtain ⟨htask, rfl, rfl⟩ := taskGetStackItem_run hitem
  obtain ⟨arguments, k₄, hphys, hcheck⟩ := bind_eq_ok.mp htranslated
  obtain ⟨_, k₃, hderef, hphys⟩ := bind_eq_ok.mp hphys
  obtain ⟨_, rfl⟩ := deref_run hderef
  rw [get_bind] at hphys
  obtain rfl := (Prod.mk.inj (Except.ok.inj hphys)).2
  have harguments : k₃.commandArguments = arguments := (Prod.mk.inj (Except.ok.inj hphys)).1
  rw [← harguments] at hcheck
  by_cases hnull : k₃.commandArguments = 0
  · rw [if_pos hnull] at hcheck
    cases hcheck
    exact .refused (Or.inl hnull)
  rw [if_neg hnull] at hcheck
  rcases hlength : strlenAt k₃.memory (4294967296 - k₃.commandArguments) k₃.commandArguments with _ | _ | n
  · rw [hlength] at hcheck
    cases hcheck
  · rw [hlength] at hcheck
    cases hcheck
    exact .refused (Or.inr (strlenAt_zero hlength))
  rw [hlength] at hcheck
  have haccept : ¬ RefusesCommand k₃ := by
    rintro (hzero | hempty)
    · exact hnull hzero
    · exact strlenAt_succ hlength hempty
  obtain ⟨path, k₅, hpath, hgo⟩ := bind_eq_ok.mp hcheck
  obtain ⟨rfl, rfl, hshort⟩ := commandPath_run hpath
  obtain ⟨⟨res, process⟩, k₆, hload, hcont⟩ := bind_eq_ok.mp hgo
  dsimp only at hcont
  by_cases hres : res < 0
  · rw [if_pos hres] at hcont
    cases hcont
    exact .notLoaded haccept hload hres
  rw [if_neg hres] at hcont
  obtain ⟨res', k₇, hinject, hlast⟩ := bind_eq_ok.mp hcont
  by_cases hres' : res' < 0
  · rw [if_pos hres'] at hlast
    cases hlast
    exact .notInjected haccept hload hres hinject hres'
  rw [if_neg hres'] at hlast
  obtain ⟨k₈, k₈', hget, hswitch⟩ := bind_eq_ok.mp hlast
  cases hget
  obtain ⟨_, k₉, hswitch, hdone⟩ := bind_eq_ok.mp hswitch
  obtain ⟨_, k₁₀, hderef, hset⟩ := bind_eq_ok.mp hswitch
  obtain ⟨hne, rfl⟩ := deref_run hderef
  cases hset
  cases hdone
  exact .entered haccept hload hres hinject hres' hne hshort

/-- The call from the load on. -/
theorem isr80hCommand7_of_load {arguments n process : Nat} {path : List (BitVec 8)} {res : Int} {k₁ k₂ : Kernel}
    (hitem : taskGetStackItem k.tasks.currentTask 0 k = .ok (item, k))
    (hphys : taskVirtualAddressToPhysical k.tasks.currentTask item k = .ok (arguments, k)) (hne : arguments ≠ 0)
    (hlength : strlenAt k.memory (4294967296 - arguments) arguments = some (n + 1))
    (hpath : commandPath arguments k = .ok (path, k))
    (hload : processLoadSwitch drive path k = .ok ((0, process), k₁))
    (hinject : processInjectArguments process arguments k₁ = .ok (res, k₂)) :
    isr80hCommand7InvokeSystemCommand drive k = (if res < 0 then return .returned res
      else do
        let k ← get
        taskSwitch (k.process process).task
        return .entered (k.process process).task : KM CallEnd) k₂ := by
  unfold isr80hCommand7InvokeSystemCommand
  refine (bind_of_ok (a := k) (t := k) rfl).trans ?_
  rw [bind_of_ok hitem, bind_of_ok hphys, if_neg hne, hlength]
  show (commandPath arguments >>= fun path => _ : KM CallEnd) k = _
  rw [bind_of_ok hpath, bind_of_ok hload]
  dsimp only
  rw [if_neg (by decide), bind_of_ok hinject]

end Call

/-! ## Copying arguments leaves `processes[]` alone -/

section Processes

variable {f : Nat → Nat} {process : Nat}

theorem kzalloc_processes {size : Nat} :
    Triple (fun k => k.processes = f) (kzalloc size) fun _ k => k.processes = f := by
  intro k ptr k' hk hrun
  obtain ⟨_, memory, rfl⟩ := kzalloc_run hrun
  exact hk

theorem processMalloc_processes {size : Nat} :
    Triple (fun k => k.processes = f) (processMalloc process size) fun _ k => k.processes = f := by
  have hfree :
      ∀ ptr, Triple (fun k => k.processes = f) (kfree ptr >>= fun _ => pure 0) fun (_ : Nat) k => k.processes = f :=
    fun ptr => Triple.bind (Triple.modify fun _ hk => hk) fun _ => Triple.pure fun _ hk => hk
  refine Triple.bind kzalloc_processes fun ptr => ?_
  refine Triple.ite (fun _ => Triple.pure fun _ hk => hk) fun _ => ?_
  refine Triple.get_bind fun k₁ hk₁ => Triple.pre (P := fun k => k.processes = f) (fun k hk => hk ▸ hk₁) ?_
  refine Triple.ite (fun _ => hfree ptr) fun _ => ?_
  refine Triple.bind (R := fun _ k => k.processes = f) ?_ fun d => ?_
  · intro k d k' hk hrun
    rw [processPageDirectory_eq] at hrun
    split at hrun
    · cases hrun
    · cases hrun
      exact hk
  refine Triple.bind (R := fun _ k => k.processes = f) ?_ fun res => ?_
  · intro k res k' hk hrun
    rw [kernelMapTo_eq] at hrun
    cases hrun
    exact hk
  refine Triple.ite (fun _ => hfree ptr) fun _ => ?_
  exact Triple.bind (Triple.modify fun _ hk => hk) fun _ => Triple.pure fun _ hk => hk

theorem processInjectArguments_processes {rootArgument : Nat} :
    Triple (fun k => k.processes = f) (processInjectArguments process rootArgument) fun _ k => k.processes = f :=
  processInjectArguments_keeps ⟨fun _ _ => processMalloc_processes, fun _ _ hk => hk, fun _ _ _ hk => hk⟩

end Processes

/-! ## What is left of a call that failed -/

/-- No process and no task has come or gone, and the same of them are the current ones. -/
structure Kernel.SameProcesses (k k' : Kernel) : Prop where
  processes : k'.processes = k.processes
  tasks : k.tasks.Same k'.tasks
  currentProcess : k'.currentProcess = k.currentProcess

/-- The program that the call names can be loaded. -/
def LoadsCommand (drive : Drive) (k : Kernel) : Prop :=
  ∃ process k₁, processLoad drive (commandDrive ++ k.commandName) k = .ok ((0, process), k₁)

section Error

variable {drive : Drive} {filename : List (BitVec 8)} {k k' : Kernel} {res : Int} {process : Nat} {live : List Nat}

/-- **A load that fails** leaves the processes and the tasks as they were. -/
theorem processLoad_undone (hclean : k.heap.Clean) (hlive : k.tasks.Lists live)
    (htaken : ∀ t ∈ live, kfreeBlock t ∈ k.heap.taken)
    (hrun : processLoad drive filename k = .ok ((res, process), k')) (hneg : res < 0) : k.SameProcesses k' := by
  rcases processLoad_run hrun with ⟨_, _, rfl⟩ | ⟨slot, _, ptr, k₁, halloc, hcase⟩
  · exact ⟨rfl, .refl _, rfl⟩
  obtain ⟨_, memory, hk₁⟩ := kzalloc_run halloc
  rcases hcase with ⟨_, _, rfl⟩ | ⟨_, hfilled⟩
  · rw [hk₁]
    exact ⟨rfl, .refl _, rfl⟩
  -- the tasks of the list lie in blocks that the load does not touch
  have hshields :=
    (kzalloc_keeps (shieldRule k.heap.taken _) (by decide) k ptr k₁ (Keeps.refl hclean.shields) halloc).2.1
  cases hfilled _ _ (shieldedRule k.heap.taken _) hshields with
  | failed _ hundone =>
      have hlive₁ : k₁.tasks.Lists live := by
        rw [hk₁]
        exact hlive
      have hsame := hundone.tasks.restores hlive₁ fun t ht hmisses => hmisses (htaken t ht)
      rw [hk₁] at hsame hundone
      exact ⟨hundone.processes, hsame, hundone.currentProcess⟩
  | loaded _ => exact absurd hneg (by decide)

/-- A load that succeeds fills a slot. -/
theorem processLoad_fills (hready : k.heap.Ready) (hrun : processLoad drive filename k = .ok ((0, process), k')) :
    k'.processes ≠ k.processes := by
  obtain ⟨slot, k₁, hfirst, halloc, hne, hfilled⟩ := processLoad_zero hrun
  have hready₁ : k₁.heap.Ready := by
    obtain ⟨_, memory, rfl⟩ := kzalloc_run halloc
    exact (heapMalloc_ready hready).1
  obtain ⟨k₂, hfill, rfl⟩ := hfilled _ _ readyRule hready₁
  intro hsame
  have hslot : Function.update k₂.processes slot process slot = k.processes slot := congrFun hsame slot
  rw [Function.update_self, hfirst.free] at hslot
  exact hne hslot

theorem processLoad_le (hrun : processLoad drive filename k = .ok ((res, process), k')) (hready : k.heap.Ready) :
    res ≤ 0 := by
  rcases processLoad_run hrun with ⟨_, hcode, _⟩ | ⟨slot, _, ptr, k₁, halloc, ⟨_, hcode, _⟩ | ⟨_, hfilled⟩⟩
  · cases hcode
    decide
  · cases hcode
    decide
  have hready₁ : k₁.heap.Ready := by
    obtain ⟨_, memory, rfl⟩ := kzalloc_run halloc
    exact (heapMalloc_ready hready).1
  cases hfilled _ _ readyRule hready₁ with
  | failed hneg _ => omega
  | loaded _ => exact Int.le_refl 0

/-- **A call that returns an error** leaves the processes and the tasks as they were exactly when it refuses its
    arguments, or the program cannot be loaded. -/
theorem isr80hCommand7_undone_iff {code : Int} (hclean : k.heap.Clean) (hlive : k.tasks.Lists live)
    (htaken : ∀ t ∈ live, kfreeBlock t ∈ k.heap.taken)
    (hrun : isr80hCommand7InvokeSystemCommand drive k = .ok (.returned code, k')) :
    k.SameProcesses k' ↔ RefusesCommand k ∨ ¬ LoadsCommand drive k := by
  have houtcome := isr80hCommand7_outcome hrun
  generalize hend : CallEnd.returned code = e at houtcome
  cases houtcome with
  | refused hrefused => exact ⟨fun _ => Or.inl hrefused, fun _ => ⟨rfl, .refl _, rfl⟩⟩
  | @notLoaded res process _ haccept hswitch hres =>
      obtain ⟨k₁, hload, rfl⟩ := processLoadSwitch_run hswitch
      have hnonzero : ¬ res = 0 := fun hzero => by omega
      rw [if_neg hnonzero]
      refine ⟨fun _ => Or.inr ?_, fun _ => processLoad_undone hclean hlive htaken hload hres⟩
      rintro ⟨process', k₂, hload'⟩
      rw [hload] at hload'
      exact hnonzero (congrArg (fun q : Int × Nat => q.1) (Prod.mk.inj (Except.ok.inj hload')).1)
  | @notInjected res res' process k₁ _ haccept hswitch hres hinject hres' =>
      obtain ⟨k₂, hload, rfl⟩ := processLoadSwitch_run hswitch
      have hle := processLoad_le hload hclean.ready
      obtain rfl : res = 0 := by omega
      constructor
      · -- the slot of the process is still taken
        intro hsame
        rw [if_pos rfl] at hinject
        have hkept : k'.processes = k₂.processes := processInjectArguments_processes _ _ _ (by rfl) hinject
        rw [hsame.processes] at hkept
        exact absurd hkept.symm (processLoad_fills hclean.ready hload)
      · rintro (hrefused | hfails)
        · exact absurd hrefused haccept
        · exact absurd ⟨process, k₂, hload⟩ hfails
  | entered _ _ _ _ _ _ _ => cases hend

end Error

/-! A task that calls, on a heap with room for the program but not for its arguments. -/

/-- A heap whose blocks are taken from `n` on. -/
def crowdedHeap (n : Nat) : Heap where
  table := { entries := fun i => if i < n then heapBlockTableEntryFree else heapBlockTableEntryTaken,
             totalEntries := 25600 }
  saddr := bimbleosHeapAddress

/-- It lies in the last block of the heap. -/
def callerTask : Nat := 0x73ff000

/-- Every page that the task sees is the one at `0x500000`. -/
def callerKernel (n : Nat) (memory : Mem) : Kernel := { bootKernel with
  heap := crowdedHeap n
  memory := memory
  pages := { word := fun _ => 0x500007 }
  tasks := {
    task := fun _ => { registers := { esp := 0x3fe000 } }
    taskHead := callerTask
    taskTail := callerTask
    currentTask := callerTask } }

/-- The list is at `0x3fe010`: one node with the name `A`. -/
def callerMemory : Mem := storeBytes (storeBytes (fun _ => 0) 0x500000 [0x10, 0xe0, 0x3f, 0x00]) 0x500010 [0x41]

section Caller

variable {n : Nat} {memory : Mem}

theorem crowdedHeap_clean : (crowdedHeap n).Clean := by
  refine ⟨⟨rfl, Nat.le_refl 25600⟩, fun i _ _ hnext => hnext ?_⟩
  show (if i < n then heapBlockTableEntryFree else heapBlockTableEntryTaken) &&& heapBlockHasNext = 0#8
  split
  · decide
  · decide

theorem crowdedHeap_taken {b : Nat} (hb : n ≤ b) (hlt : b < 25600) : b ∈ (crowdedHeap n).taken := by
  refine ⟨hlt, ?_⟩
  show ¬ heapGetEntryType (if b < n then heapBlockTableEntryFree else heapBlockTableEntryTaken) = heapBlockTableEntryFree
  rw [if_neg (Nat.not_lt.mpr hb)]
  decide

theorem callerKernel_lists : (callerKernel n memory).tasks.Lists [callerTask] where
  path := ⟨rfl, by decide, rfl⟩
  tail := rfl
  current := List.mem_singleton.mpr rfl

theorem callerKernel_taken (hn : n < 25600) :
    ∀ t ∈ [callerTask], kfreeBlock t ∈ (callerKernel n memory).heap.taken := by
  intro t ht
  obtain rfl := List.mem_singleton.mp ht
  have hblock : kfreeBlock callerTask = 25599 := by decide
  rw [hblock]
  exact crowdedHeap_taken (by omega) (by decide)

/-- The same list with the name `B`, of which there is no file. -/
def lostMemory : Mem := storeBytes (storeBytes (fun _ => 0) 0x500000 [0x10, 0xe0, 0x3f, 0x00]) 0x500010 [0x42]

theorem lostMemory_fails : ∃ r k', isr80hCommand7InvokeSystemCommand heapElfDrive (callerKernel 25599 lostMemory)
      = .ok (r, k') ∧ decide (r = .returned (- EIO)) = true := exists_of_check (by decide +kernel)

theorem lostMemory_accepted : ¬ RefusesCommand (callerKernel 25599 lostMemory) := by
  unfold RefusesCommand
  decide +kernel

/-- A name without characters is refused, and the program of the other name cannot be loaded. -/
theorem isr80hCommand7_undone_iff_refused :
    (∃ k', isr80hCommand7InvokeSystemCommand heapElfDrive (callerKernel 0 fun _ => 0)
        = .ok (.returned (-EINVARG), k') ∧
      ((callerKernel 0 fun _ => 0).SameProcesses k' ↔
        RefusesCommand (callerKernel 0 fun _ => 0) ∨ ¬ LoadsCommand heapElfDrive (callerKernel 0 fun _ => 0))) ∧
    ∃ k', isr80hCommand7InvokeSystemCommand heapElfDrive (callerKernel 25599 lostMemory)
        = .ok (.returned (- EIO), k') ∧ ¬ RefusesCommand (callerKernel 25599 lostMemory) ∧
      ((callerKernel 25599 lostMemory).SameProcesses k' ↔ RefusesCommand (callerKernel 25599 lostMemory) ∨
        ¬ LoadsCommand heapElfDrive (callerKernel 25599 lostMemory)) := by
  refine ⟨⟨_, rfl, isr80hCommand7_undone_iff crowdedHeap_clean callerKernel_lists (callerKernel_taken (by decide)) rfl⟩,
    ?_⟩
  obtain ⟨r, k', hrun, hcode⟩ := lostMemory_fails
  obtain rfl : r = .returned (- EIO) := of_decide_eq_true hcode
  exact ⟨k', hrun, lostMemory_accepted,
    isr80hCommand7_undone_iff crowdedHeap_clean callerKernel_lists (callerKernel_taken (by decide)) hrun⟩

/-- What evaluating the load up to the page directory shows: 1026 blocks are free. -/
def crowdedCheck (r : Nat × Int × Nat × Nat) (k : Kernel) : Bool :=
  segmentPlaced heapElf r k && decide (k.heap.table.totalEntries = 25600) &&
    ((List.range 13).all fun i => decide (¬ k.heap.table.Free i)) &&
    ((List.range 1026).all fun i => decide (k.heap.table.Free (13 + i))) &&
    decide (load32 k.memory 0x500210 = 0)

theorem crowded_prefix : ∃ r k, loadPrefix heapElfDrive splitPath 0 (callerKernel 1039 callerMemory) = .ok (r, k) ∧
    crowdedCheck r k = true := exists_of_check (by decide +kernel)

/-- The program takes the last free block. -/
theorem crowded_loads :
    ∃ k₀, processLoad heapElfDrive splitPath (callerKernel 1039 callerMemory) = .ok ((0, 0x1000000), k₀) ∧
    k₀.heap.Ready ∧ k₀.heap.freeBlocks = 0 ∧ load32 k₀.memory 0x500210 = 0 := by
  obtain ⟨r, k₄, hsteps, hcheck⟩ := crowded_prefix
  unfold crowdedCheck at hcheck
  simp only [Bool.and_eq_true, decide_eq_true_eq, List.all_eq_true, List.mem_range] at hcheck
  obtain ⟨⟨⟨⟨hplaced, htotal⟩, htaken⟩, hfree⟩, hnext⟩ := hcheck
  have hclean : (callerKernel 1039 callerMemory).heap.Clean := crowdedHeap_clean
  -- the blocks from 1039 on stay taken
  have hrest := (loadPrefix_keeps (shieldRule (crowdedHeap 1039).taken _) hclean.shields hsteps).taken
  have hrun : k₄.heap.table.FreeRun 13 1026 := by
    intro i hlo hhi
    have hi := hfree (i - 13) (by omega)
    rwa [Nat.add_sub_cancel' hlo] at hi
  have hcount : k₄.heap.freeBlocks = 1026 := by
    refine freeBlocks_eq_of_run hrun (by rw [htotal]; decide) fun i hi hifree => ?_
    by_contra hout
    by_cases hlow : i < 13
    · exact htaken i hlow hifree
    · rw [htotal] at hi
      exact (hrest (crowdedHeap_taken (show 1039 ≤ i by omega) hi)).2 hifree
  have hfirst : FirstSlot (callerKernel 1039 callerMemory) 0 :=
    ⟨by decide, rfl, fun j hj => absurd hj (Nat.not_lt_zero j)⟩
  obtain ⟨k₀, hload, hblocks, hshelter, _⟩ := segment_loads_of heapElf_segment hclean hfirst hsteps hplaced (by omega)
  refine ⟨k₀, hload, hshelter.shields.ready, by omega, ?_⟩
  rw [← hnext]
  refine load32_congr fun j hj => hshelter.memory _ (Or.inl ?_)
  unfold bimbleosHeapAddress
  omega

/-- Its arguments are refused then. -/
theorem crowded_call : ∃ k', isr80hCommand7InvokeSystemCommand heapElfDrive (callerKernel 1039 callerMemory)
      = .ok (.returned (-ENOMEM), k') ∧ k'.processes ≠ (callerKernel 1039 callerMemory).processes := by
  obtain ⟨k₀, hload, hready, hfull, hnext⟩ := crowded_loads
  have hswitch : processLoadSwitch heapElfDrive splitPath (callerKernel 1039 callerMemory)
      = .ok ((0, 0x1000000), { k₀ with currentProcess := 0x1000000 }) := by
    unfold processLoadSwitch
    rw [bind_of_ok hload]
    rfl
  have hpath : Links.Path (commandArgumentNext k₀.memory) 0 0x500010 [0x500010] := by
    refine ⟨rfl, by decide, ?_⟩
    exact congrArg BitVec.toNat hnext
  have hinject := @processInjectArguments_noRoom { k₀ with currentProcess := 0x1000000 } 0x1000000 0x500010 [0x500010]
    hready hfull hpath (fun n hn => by rw [List.mem_singleton.mp hn]; decide) (List.cons_ne_nil _ _) (by decide)
  have hfilled : k₀.processes ≠ (callerKernel 1039 callerMemory).processes :=
    processLoad_fills crowdedHeap_clean.ready hload
  refine ⟨{ k₀ with currentProcess := 0x1000000 }, ?_, hfilled⟩
  have hitem : taskGetStackItem callerTask 0 (callerKernel 1039 callerMemory)
      = .ok (0x3fe010, callerKernel 1039 callerMemory) := rfl
  refine (isr80hCommand7_of_load (n := 0) hitem ?_ ?_ ?_ ?_ hswitch hinject).trans ?_
  · rfl
  · decide
  · rfl
  · rfl
  · rfl

/-- An error is **not** always without a trace. -/
theorem crowded_leaves_process : ¬ ∀ (drive : Drive) (k k' : Kernel) (code : Int) (live : List Nat), k.heap.Clean →
    k.tasks.Lists live → (∀ t ∈ live, kfreeBlock t ∈ k.heap.taken) →
    isr80hCommand7InvokeSystemCommand drive k = .ok (.returned code, k') → k.SameProcesses k' := by
  intro h
  obtain ⟨k', hrun, hchanged⟩ := crowded_call
  exact hchanged (h _ _ _ _ _ crowdedHeap_clean callerKernel_lists (callerKernel_taken (by decide)) hrun).processes

end Caller

end BimbleOS
