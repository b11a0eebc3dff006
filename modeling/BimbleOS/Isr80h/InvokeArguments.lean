import BimbleOS.Isr80h.InvokeError
import BimbleOS.Task.LoadMemory

/-!
# `Isr80h.InvokeArguments` — the arguments of a command

The list of arguments is built by the calling task, so that its pointers are addresses of the task. The call
translates the pointer on the stack, and from there on follows the list on physical addresses. What it hands
over is what the task reads when the two ways through the list agree and no node lies in memory that the load
may write to (`isr80hCommand7_handsOver`). The ways agree when each node is in one piece and each pointer leads to
a page that is mapped to itself (`sameArguments_of_nodeAt`).
-/

namespace BimbleOS

open Bytes CWord Exec Links

/-! ## The list, as the task and as the kernel see it -/

/-- The pointer to the list: the item on the stack of the current task. -/
def Kernel.commandItem (k : Kernel) : Nat :=
  (load32 (k.taskMemory k.tasks.currentTask) ((k.tasks.task k.tasks.currentTask).registers.esp.toNat + 4 * 0)).toNat

/-- What the current task sees. -/
def Kernel.currentTaskMemory (k : Kernel) : Mem := k.taskMemory k.tasks.currentTask

/-- The list of arguments at `a` in `m` and the one at `b` in `m'` have the same strings. -/
def SameArguments (m m' : Mem) : Nat → Nat → Prop :=
  SameValues (commandArgumentNext m) 0 (argumentAt m) (commandArgumentNext m') 0 (argumentAt m')

/-- A call in `k` that enters `task` hands over the `arguments`: the first is the name of the program, and all of
    them are given to the process that was loaded. -/
structure HandsOver (drive : Drive) (k : Kernel) (task : Nat) (k' : Kernel) (arguments : List (List (BitVec 8))) :
    Prop where
  name : arguments.head? = some k.commandName
  given : ∃ process k₁, processLoadSwitch drive (commandDrive ++ k.commandName) k = .ok ((0, process), k₁) ∧
    (k'.process process).task = task ∧ k'.HasArguments process arguments

section Arguments

variable {drive : Drive} {k k' : Kernel} {task : Nat} {nodes kernelNodes : List Nat}

theorem argumentAt_nil {m : Mem} {n : Nat} : argumentAt m n = [] ↔ m n = 0 := by
  unfold argumentAt stringAt
  have hsize : sizeofArgument - 1 = 510 + 1 := rfl
  rw [hsize, Window.window_succ, List.takeWhile_cons]
  simp

/-- A list in sheltered memory is the same after the load. -/
theorem Sheltered.arguments {k₁ : Kernel} {a : Nat} (h : Sheltered k.heap.taken ∅ k.memory k₁)
    (hpath : Path (commandArgumentNext k.memory) 0 a nodes) (hnodes : NodesSheltered k nodes) :
    Path (commandArgumentNext k₁.memory) 0 a nodes ∧ NodesSheltered k₁ nodes ∧
      nodes.map (argumentAt k₁.memory) = nodes.map (argumentAt k.memory) := by
  have hnodeSize : sizeofCommandArgument = 516 := rfl
  have hone : sizeofArgument = 512 := rfl
  have hmemory : ∀ n ∈ nodes, ∀ i, i < sizeofCommandArgument → k₁.memory (n + i) = k.memory (n + i) :=
    fun n hn i hi => h.memory _ (hnodes n hn _ (by omega) (by omega))
  refine ⟨hpath.congr fun n hn => congrArg BitVec.toNat (load32_congr fun j hj => ?_), ?_, ?_⟩
  · rw [Nat.add_assoc]
    exact hmemory n hn _ (by omega)
  · exact fun n hn a hlo hhi => (hnodes n hn a hlo hhi).mono h.shields.taken
  · exact List.map_congr_left fun n hn => argumentAt_congr fun j hj => hmemory n hn j (by omega)

/-- A call that enters a process has given it the strings of the list that the kernel follows, and has loaded the
    program that the first of them names. -/
theorem isr80hCommand7_entered (hclean : k.heap.Clean)
    (hrun : isr80hCommand7InvokeSystemCommand drive k = .ok (.entered task, k'))
    (hkernel : Path (commandArgumentNext k.memory) 0 k.commandArguments kernelNodes)
    (hnodes : NodesSheltered k kernelNodes) :
    HandsOver drive k task k' (kernelNodes.map (argumentAt k.memory)) := by
  have houtcome := isr80hCommand7_outcome hrun
  generalize hend : CallEnd.entered task = e at houtcome
  cases houtcome with
  | refused => cases hend
  | notLoaded => cases hend
  | notInjected => cases hend
  | @entered res res' process k₁ k₂ haccept hswitch hres hinject hres' htask hshort =>
      cases hend
      obtain ⟨k₀, hload, hk₁⟩ := processLoadSwitch_run hswitch
      have hle := processLoad_le hload hclean.ready
      obtain rfl : res = 0 := by omega
      have hle' := processInjectArguments_le hinject
      obtain rfl : res' = 0 := by omega
      rw [if_pos rfl] at hk₁
      have hshelter : Sheltered k.heap.taken ∅ k.memory k₁ := by
        rw [hk₁]
        exact (processLoad_sheltered hclean hload).congr rfl rfl
      have hclean₀ := processLoad_keeps cleanReadyRule hclean hload
      have hclean₁ : k₁.heap.Clean := by
        rw [hk₁]
        exact hclean₀
      obtain ⟨hpath₁, hnodes₁, hstrings⟩ := hshelter.arguments hkernel hnodes
      have hgiven := processInjectArguments_run hclean₁ hpath₁ hnodes₁ hinject
      rw [hstrings] at hgiven
      refine ⟨?_, process, k₁, hswitch, rfl, ⟨hgiven.argc, hgiven.argv⟩⟩
      -- the name is the first string, which the path has room for
      cases kernelNodes with
      | nil => exact absurd (Or.inl hkernel) haccept
      | cons n rest =>
          obtain rfl : k.commandArguments = n := hkernel.1
          have hname : argumentAt k.memory k.commandArguments = k.commandName := by
            unfold argumentAt
            refine stringAt_of_short ?_ (by decide)
            have hdrive : commandDrive.length = 3 := rfl
            have hpath : bimbleosMaxPath = 108 := rfl
            unfold Kernel.commandName at hshort
            omega
          rw [List.map_cons, hname]
          rfl

/-- The list that the kernel follows ends, and no node of it lies in free memory of the heap: there the load of the
    program, and the strings of its process, are put before the list is read. -/
def Kernel.ListSheltered (k : Kernel) : Prop :=
  ∃ nodes, Path (commandArgumentNext k.memory) 0 k.commandArguments nodes ∧ NodesSheltered k nodes

/-- The kernel reads the list of the task: its own way through it agrees with the one of the task, and what it finds
    there stays. -/
structure Kernel.ReadsCommand (k : Kernel) : Prop where
  sheltered : k.ListSheltered
  same : SameArguments k.currentTaskMemory k.memory k.commandItem k.commandArguments

/-- **What the task reads is handed over** when the list that the kernel follows, on physical addresses, has the
    strings of the list that the task follows, and lies outside of free memory; and outside of free memory only
    then. -/
theorem isr80hCommand7_handsOver (hclean : k.heap.Clean)
    (hrun : isr80hCommand7InvokeSystemCommand drive k = .ok (.entered task, k'))
    (hpath : Path (commandArgumentNext k.currentTaskMemory) 0 k.commandItem nodes) :
    (k.ReadsCommand → HandsOver drive k task k' (nodes.map (argumentAt k.currentTaskMemory))) ∧
      (k.ListSheltered → HandsOver drive k task k' (nodes.map (argumentAt k.currentTaskMemory)) → k.ReadsCommand) := by
  have hiff : k.ListSheltered → (HandsOver drive k task k' (nodes.map (argumentAt k.currentTaskMemory)) ↔
      SameArguments k.currentTaskMemory k.memory k.commandItem k.commandArguments) := by
    rintro ⟨kernelNodes, hkernel, hnodes⟩
    have hentered := isr80hCommand7_entered hclean hrun hkernel hnodes
    unfold SameArguments
    rw [sameValues_iff hpath hkernel]
    constructor
    · rintro ⟨_, process, k₁, hload, _, hgiven⟩
      obtain ⟨process', k₁', hload', _, hgiven'⟩ := hentered.given
      rw [hload] at hload'
      obtain rfl : process = process' := congrArg (fun r => r.1.2) (Except.ok.inj hload')
      exact hgiven.unique hgiven'
    · intro hsame
      rw [hsame]
      exact hentered
  exact ⟨fun hreads => (hiff hreads.sheltered).mpr hreads.same,
    fun hsheltered hgiven => ⟨hsheltered, (hiff hsheltered).mp hgiven⟩⟩

/-! ## Lists that lie where their pointers say -/

/-- The node at `a` is found in one piece at `b`. -/
def NodeAt (translate : Nat → Nat) (a b : Nat) : Prop := ∀ i, i < sizeofCommandArgument → translate (a + i) = b + i

section Nodes

variable {translate : Nat → Nat} {m : Mem} {a b : Nat}

theorem NodeAt.next (h : NodeAt translate a b) :
    commandArgumentNext (fun v => m (translate v)) a = commandArgumentNext m b := by
  have hnodeSize : sizeofCommandArgument = 516 := rfl
  have hone : sizeofArgument = 512 := rfl
  refine congrArg BitVec.toNat (load32_congr fun j hj => ?_)
  show m (translate (a + sizeofArgument + j)) = m (b + sizeofArgument + j)
  rw [Nat.add_assoc, h _ (by omega), Nat.add_assoc]

theorem NodeAt.argument (h : NodeAt translate a b) : argumentAt (fun v => m (translate v)) a = argumentAt m b := by
  have hnodeSize : sizeofCommandArgument = 516 := rfl
  have hone : sizeofArgument = 512 := rfl
  refine argumentAt_congr fun j hj => ?_
  show m (translate (a + j)) = m (b + j)
  rw [h j (by omega)]

/-- A node that does not cross the end of a page is in one piece. -/
theorem nodeAt_of_page {s : PageStore} {directory : Nat} (h : a % 4096 + sizeofCommandArgument ≤ 4096) :
    NodeAt (pagingGetPhysicalAddress s directory) a (pagingGetPhysicalAddress s directory a) := by
  intro i hi
  have hpage : pagingAlignToLowerPage (a + i) = pagingAlignToLowerPage a := by
    rw [pagingAlignToLowerPage_eq, pagingAlignToLowerPage_eq]
    omega
  unfold pagingGetPhysicalAddress
  simp only [hpage]
  rw [frameOf_eq, u32_natCast, u32_natCast, pagingAlignToLowerPage_eq]
  have hentry := (pagingGet s directory (a / 4096 * 4096)).isLt
  omega

/-- **Where the two ways agree**: the first node is in one piece where the kernel starts, and the others are where
    the pointers to them say. -/
theorem sameArguments_of_nodeAt (ha : a ≠ 0) (hb : b ≠ 0)
    (hpath : Path (commandArgumentNext fun v => m (translate v)) 0 a nodes) (hfirst : NodeAt translate a b)
    (hrest : ∀ n ∈ nodes.tail, NodeAt translate n n) : SameArguments (fun v => m (translate v)) m a b := by
  cases nodes with
  | nil => exact absurd hpath ha
  | cons n nodes =>
      obtain ⟨rfl, _, hpath⟩ := hpath
      refine .cons ha hb hfirst.argument ?_
      rw [hfirst.next] at hpath ⊢
      rw [List.tail_cons] at hrest
      generalize commandArgumentNext m b = c at hpath ⊢
      induction nodes generalizing c with
      | nil =>
          obtain rfl : c = 0 := hpath
          exact .nil
      | cons n nodes ih =>
          obtain ⟨rfl, hne, hpath⟩ := hpath
          have hnode := hrest c List.mem_cons_self
          refine .cons hne hne hnode.argument ?_
          rw [hnode.next] at hpath ⊢
          exact ih (fun n hn => hrest n (List.mem_cons_of_mem _ hn)) _ hpath

end Nodes

/-- The same for the page directory of the calling task. -/
theorem sameArguments_of_pages (hitem : k.commandItem ≠ 0) (hne : k.commandArguments ≠ 0)
    (hpath : Path (commandArgumentNext k.currentTaskMemory) 0 k.commandItem nodes)
    (hfirst : NodeAt (pagingGetPhysicalAddress k.pages (k.taskDirectory k.tasks.currentTask)) k.commandItem
      k.commandArguments)
    (hrest : ∀ n ∈ nodes.tail, NodeAt (pagingGetPhysicalAddress k.pages (k.taskDirectory k.tasks.currentTask)) n n) :
    SameArguments k.currentTaskMemory k.memory k.commandItem k.commandArguments := by
  have hmemory : k.currentTaskMemory
      = fun a => k.memory (pagingGetPhysicalAddress k.pages (k.taskDirectory k.tasks.currentTask) a) := rfl
  rw [hmemory] at hpath ⊢
  exact sameArguments_of_nodeAt hitem hne hpath hfirst hrest

end Arguments

/-! The task of `callerKernel` runs a program; there is room for it and for its arguments. -/

/-- What evaluating the load up to the page directory shows: 1030 blocks are free. -/
def roomyCheck (r : Nat × Int × Nat × Nat) (k : Kernel) : Bool :=
  segmentPlaced heapElf r k && decide (k.heap.table.totalEntries = 25600) &&
    (List.range 1030).all fun i => decide (k.heap.table.Free (13 + i))

/-- The node at `0x3fe010` leads to one with the name `B` at `0x3fe300`. -/
def twoNodeMemory : Mem := storeBytes (storeBytes callerMemory 0x500210 [0x00, 0xe3, 0x3f, 0x00]) 0x500300 [0x42]

section Caller

variable {memory : Mem} {nodes : List Nat}

theorem roomy_loads (hsteps : ∃ r k, loadPrefix heapElfDrive splitPath 0 (callerKernel 25599 memory) = .ok (r, k) ∧
    roomyCheck r k = true) : ∃ k₀, processLoad heapElfDrive splitPath (callerKernel 25599 memory)
      = .ok ((0, 0x1000000), k₀) ∧ 4 ≤ k₀.heap.freeBlocks := by
  obtain ⟨r, k₄, hsteps, hcheck⟩ := hsteps
  unfold roomyCheck at hcheck
  simp only [Bool.and_eq_true, decide_eq_true_eq, List.all_eq_true, List.mem_range] at hcheck
  obtain ⟨⟨hplaced, htotal⟩, hfree⟩ := hcheck
  have hrun : k₄.heap.table.FreeRun 13 1030 := by
    intro i hlo hhi
    have hi := hfree (i - 13) (by omega)
    rwa [Nat.add_sub_cancel' hlo] at hi
  have hcount : 1030 ≤ k₄.heap.freeBlocks := freeBlocks_of_run hrun (by rw [htotal]; decide)
  have hfirst : FirstSlot (callerKernel 25599 memory) 0 := ⟨by decide, rfl, fun j hj => absurd hj (Nat.not_lt_zero j)⟩
  obtain ⟨k₀, hload, hblocks, _⟩ := segment_loads_of heapElf_segment crowdedHeap_clean hfirst hsteps hplaced (by omega)
  exact ⟨k₀, hload, by omega⟩

theorem callerKernel_physical : taskVirtualAddressToPhysical callerTask 0x3fe010 (callerKernel 25599 memory)
    = .ok (0x500010, callerKernel 25599 memory) := by
  have hphys : ∀ directory, pagingGetPhysicalAddress { word := fun _ => 0x500007 } directory 0x3fe010 = 0x500010 := by
    intro directory
    have hframe : frameOf 0x500007 = 0x500000 := by decide
    unfold pagingGetPhysicalAddress
    show u32 ((frameOf 0x500007 + (0x3fe010 - pagingAlignToLowerPage 0x3fe010) : Nat) : Int) = 0x500010
    rw [hframe]
    decide
  unfold taskVirtualAddressToPhysical
  rw [bind_of_ok (deref_of_ne (by decide))]
  exact congrArg (fun a => Except.ok (a, callerKernel 25599 memory)) (hphys _)

/-- A list of two nodes at most in low memory is handed over. -/
theorem callerKernel_enters (hload : ∃ k₀, processLoad heapElfDrive splitPath (callerKernel 25599 memory)
      = .ok ((0, 0x1000000), k₀) ∧ 4 ≤ k₀.heap.freeBlocks)
    (hitem : taskGetStackItem callerTask 0 (callerKernel 25599 memory) = .ok (0x3fe010, callerKernel 25599 memory))
    (hlength : strlenAt memory (4294967296 - 0x500010) 0x500010 = some 1)
    (hname : commandPath 0x500010 (callerKernel 25599 memory) = .ok (splitPath, callerKernel 25599 memory))
    (hpath : Path (commandArgumentNext memory) 0 0x500010 nodes) (hlen : nodes.length ≤ 2)
    (hlow : ∀ n ∈ nodes, n + sizeofCommandArgument ≤ bimbleosHeapAddress) : ∃ task k',
    isr80hCommand7InvokeSystemCommand heapElfDrive (callerKernel 25599 memory) = .ok (.entered task, k') := by
  have hclean : (callerKernel 25599 memory).heap.Clean := crowdedHeap_clean
  obtain ⟨k₀, hload, hfree⟩ := hload
  have hclean₀ := processLoad_keeps cleanReadyRule hclean hload
  obtain ⟨hallocations, htask⟩ := processLoad_fresh hclean.ready hload
  have hnodes : NodesSheltered (callerKernel 25599 memory) nodes := fun n hn a _ hhi => Or.inl (by
    have hend := hlow n hn
    omega)
  obtain ⟨k₁, hk₁⟩ : ∃ k₁, k₁ = { k₀ with currentProcess := 0x1000000 } := ⟨_, rfl⟩
  have hswitch : processLoadSwitch heapElfDrive splitPath (callerKernel 25599 memory) = .ok ((0, 0x1000000), k₁) := by
    unfold processLoadSwitch
    rw [bind_of_ok hload, hk₁]
    rfl
  have hshelter : Sheltered (callerKernel 25599 memory).heap.taken ∅ memory k₁ := by
    rw [hk₁]
    exact (processLoad_sheltered hclean hload).congr rfl rfl
  obtain ⟨hpath₁, hnodes₁, _⟩ := hshelter.arguments (k := callerKernel 25599 memory) hpath hnodes
  have hcan : CanAllocate k₁ 0x1000000 0 (nodes.length + 1) := by
    rw [hk₁]
    refine ⟨hclean₀, htask, ⟨fun j hj => absurd hj (Nat.not_lt_zero j), fun j _ => ?_⟩, ?_, ?_⟩
    · show ((k₀.process 0x1000000).allocations j).ptr = 0
      rw [hallocations]
    · have hslots : bimbleosMaxProgramAllocations = 1024 := rfl
      omega
    · show nodes.length + 1 ≤ k₀.heap.freeBlocks
      omega
  have hfit : ∀ n ∈ nodes, n + sizeofCommandArgument ≤ 4294967296 := fun n hn => by
    have hend := hlow n hn
    unfold bimbleosHeapAddress at hend
    omega
  have hne : nodes ≠ [] := by
    rintro rfl
    exact absurd hpath (by decide : ¬ (0x500010 : Nat) = 0)
  obtain ⟨k₂, hinject, htask₂⟩ := processInjectArguments_goes hcan hpath₁ hnodes₁ hfit hne
  have hgo : (do
      let k ← get
      taskSwitch (k.process 0x1000000).task
      return .entered (k.process 0x1000000).task : KM CallEnd) k₂ = .ok (.entered (k₂.process 0x1000000).task, { k₂ with
        tasks := { k₂.tasks with currentTask := (k₂.process 0x1000000).task } }) := by
    refine (bind_of_ok (a := k₂) (t := k₂) rfl).trans ?_
    unfold taskSwitch
    rw [bind_of_ok (bind_of_ok (deref_of_ne htask₂))]
    rfl
  have hcall := isr80hCommand7_of_load hitem callerKernel_physical (by decide) hlength hname hswitch hinject
  rw [if_neg (by decide), hgo] at hcall
  exact ⟨_, _, hcall⟩

end Caller

/-- A list of one node, inside a page. -/
theorem isr80hCommand7_handsOver_one : ∃ task k',
    isr80hCommand7InvokeSystemCommand heapElfDrive (callerKernel 25599 callerMemory) = .ok (.entered task, k') ∧
    (callerKernel 25599 callerMemory).ReadsCommand ∧
    HandsOver heapElfDrive (callerKernel 25599 callerMemory) task k'
      ([0x3fe010].map (argumentAt (callerKernel 25599 callerMemory).currentTaskMemory)) := by
  have hload := @roomy_loads callerMemory (exists_of_check (by decide +kernel))
  have hkernel : Path (commandArgumentNext callerMemory) 0 0x500010 [0x500010] := by decide
  have hlow : ∀ n ∈ [0x500010], n + sizeofCommandArgument ≤ bimbleosHeapAddress := by decide
  obtain ⟨task, k', hrun⟩ := callerKernel_enters hload rfl rfl rfl hkernel (by decide) hlow
  have hpath : Path (commandArgumentNext (callerKernel 25599 callerMemory).currentTaskMemory) 0
      (callerKernel 25599 callerMemory).commandItem [0x3fe010] := by decide
  have hreads : (callerKernel 25599 callerMemory).ReadsCommand := by
    refine ⟨⟨[0x500010], hkernel, fun n hn a _ hhi => ?_⟩, ?_⟩
    · have hend := hlow n hn
      exact Or.inl (by omega)
    · exact sameArguments_of_pages (by decide) (by decide) hpath (nodeAt_of_page (by decide))
        fun n hn => absurd hn List.not_mem_nil
  exact ⟨task, k', hrun, hreads, (isr80hCommand7_handsOver crowdedHeap_clean hrun hpath).1 hreads⟩

/-- The second node is **not** always found. -/
theorem twoNode_lost : ¬ ∀ (drive : Drive) (k k' : Kernel) (task : Nat) (nodes : List Nat), k.heap.Clean →
    isr80hCommand7InvokeSystemCommand drive k = .ok (.entered task, k') →
    Path (commandArgumentNext k.currentTaskMemory) 0 k.commandItem nodes →
    HandsOver drive k task k' (nodes.map (argumentAt k.currentTaskMemory)) := by
  intro h
  have hload := @roomy_loads twoNodeMemory (exists_of_check (by decide +kernel))
  have hkernel : Path (commandArgumentNext twoNodeMemory) 0 0x500010 [0x500010, 0x3fe300] := by decide
  have hlow : ∀ n ∈ [0x500010, 0x3fe300], n + sizeofCommandArgument ≤ bimbleosHeapAddress := by decide
  obtain ⟨task, k', hrun⟩ := callerKernel_enters hload rfl rfl rfl hkernel (by decide) hlow
  have hpath : Path (commandArgumentNext (callerKernel 25599 twoNodeMemory).currentTaskMemory) 0
      (callerKernel 25599 twoNodeMemory).commandItem [0x3fe010, 0x3fe300] := by decide
  have hnodes : NodesSheltered (callerKernel 25599 twoNodeMemory) [0x500010, 0x3fe300] := by
    intro n hn a _ hhi
    have hend := hlow n hn
    exact Or.inl (by omega)
  -- the kernel hands over an empty string
  have hgiven := (h _ _ _ _ _ crowdedHeap_clean hrun hpath).given
  obtain ⟨process, k₁, hswitch, _, htask⟩ := hgiven
  obtain ⟨process', k₁', hswitch', _, hkernelGiven⟩ :=
    (isr80hCommand7_entered crowdedHeap_clean hrun hkernel hnodes).given
  rw [hswitch] at hswitch'
  obtain rfl : process = process' := congrArg (fun r => r.1.2) (Except.ok.inj hswitch')
  have hsame := htask.unique hkernelGiven
  have hsecond :
      argumentAt (callerKernel 25599 twoNodeMemory).currentTaskMemory 0x3fe300 = argumentAt twoNodeMemory 0x3fe300 :=
    congrArg (fun l => l.getD 1 []) hsame
  have hempty : argumentAt twoNodeMemory 0x3fe300 = [] := argumentAt_nil.mpr (by decide)
  rw [hempty] at hsecond
  exact absurd (argumentAt_nil.mp hsecond) (by decide)

end BimbleOS
