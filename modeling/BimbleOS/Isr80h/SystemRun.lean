import BimbleOS.Isr80h.InvokeArguments
import BimbleOS.Stdlib.CommandList
import BimbleOS.Task.ProcessMemory

/-!
# `Isr80h.SystemRun` — from a command line to the arguments of a program

A program that calls `bimbleos_system_run` makes a list of the pieces of its command in its own memory; system call 7
loads the program that the first of them names, and gives the process that it starts a copy of all of them. So what the
started program is given are the pieces of the command line (`bimbleosSystemRun_handsOver`). What this asks of the
nodes holds for those of `process_malloc` (`bimbleosSystemRun_mallocs`).
-/

namespace BimbleOS

open Bytes CWord Exec Links Stdlib

/-! ## Nodes that the kernel gives -/

/-- The calls of `process_malloc` for the nodes of a list, each with the kernel that it finds and the one it leaves.
    What happens between two of them is open, except that the blocks `B` of the program and its earlier nodes stay
    taken. -/
structure NodeCalls (process : Nat) (B : Set Nat) where
  before : Nat → Kernel
  after : Nat → Kernel
  ptr : Nat → Nat
  call : ∀ i, processMalloc process sizeofCommandArgument (before i) = .ok (ptr i, after i)
  clean : ∀ i, (before i).heap.Clean
  task : ∀ i, ((before i).process process).task ≠ 0
  dirs : ∀ i, DirsOk (before i).pages (· = (before i).directoryOf process)
  taken : ∀ i, B ⊆ (before i).heap.taken
  kept : ∀ i j, j < i → ptr j ≠ 0 → kfreeBlock (ptr j) ∈ (before i).heap.taken

section NodeCalls

variable {process : Nat} {B : Set Nat} {calls : NodeCalls process B} {i a : Nat}

/-- A node is at the start of a block that was free, and is cleared. -/
theorem NodeCalls.node (hptr : calls.ptr i ≠ 0) :
    calls.ptr i = bimbleosHeapAddress + 4096 * kfreeBlock (calls.ptr i) ∧
      kfreeBlock (calls.ptr i) ∉ (calls.before i).heap.taken ∧ calls.ptr i + sizeofCommandArgument ≤ 4294967296 ∧
      (calls.after i).memory = fill (calls.before i).memory (calls.ptr i) sizeofCommandArgument 0 := by
  obtain ⟨_, _, _, _, hanswer, hinside, hafter⟩ := processMalloc_granted (calls.call i) hptr
  have hclean := calls.clean i
  have htotal := hclean.ready.total
  have hpos : 1 ≤ sizeofCommandArgument := by decide
  have hsmall : sizeofCommandArgument ≤ 0xFFFFF000 := by decide
  obtain ⟨s, hs, hlt, _⟩ := hclean.malloc hpos hsmall hanswer hptr
  have hblock : kfreeBlock (calls.ptr i) = s := by
    rw [hs]
    exact kfreeBlock_block (by omega)
  refine ⟨hblock ▸ hs, (hclean.malloc_block hpos hsmall hanswer hptr).2, hinside, ?_⟩
  rw [hafter]

theorem NodeCalls.inBlock (hptr : calls.ptr i ≠ 0) (ha : InNode (calls.ptr i) a) :
    bimbleosHeapAddress + 4096 * kfreeBlock (calls.ptr i) ≤ a ∧
      a < bimbleosHeapAddress + 4096 * kfreeBlock (calls.ptr i) + 4096 := by
  obtain ⟨hs, _⟩ := NodeCalls.node hptr
  obtain ⟨hlo, hhi⟩ := ha
  have hsize : sizeofCommandArgument = 516 := rfl
  omega

theorem NodeCalls.not_taken (hptr : calls.ptr i ≠ 0) (ha : InNode (calls.ptr i) a) :
    ¬ InShelter (calls.before i).heap.taken a := by
  obtain ⟨_, hfree, _⟩ := NodeCalls.node hptr
  obtain ⟨hlo, hhi⟩ := NodeCalls.inBlock hptr ha
  rintro (hlow | ⟨b, hb, hlo', hhi'⟩)
  · omega
  · obtain rfl : b = kfreeBlock (calls.ptr i) := by omega
    exact hfree hb

/-- What the program has when it asks for a node. -/
theorem NodeCalls.sheltered (ha : InShelter B a ∨ ∃ j, j < i ∧ calls.ptr j ≠ 0 ∧ InNode (calls.ptr j) a) :
    InShelter (calls.before i).heap.taken a := by
  rcases ha with hown | ⟨j, hj, hptr, hnode⟩
  · exact hown.mono (calls.taken i)
  · exact Or.inr ⟨_, calls.kept i j hj hptr, NodeCalls.inBlock hptr hnode⟩

/-- **`process_malloc` gives nodes** as a program relies on. -/
def NodeCalls.nodeMalloc (calls : NodeCalls process B) : NodeMalloc (InShelter B) where
  ptr := calls.ptr
  memory i m := if calls.ptr i = 0 then m else fill m (calls.ptr i) sizeofCommandArgument 0
  inside _ hptr := (NodeCalls.node hptr).2.2.1
  apart _ hptr _ ha hown := NodeCalls.not_taken hptr ha (NodeCalls.sheltered (Or.inl hown))
  fresh _ j hj hptr hptrj _ ha haj := NodeCalls.not_taken hptr ha (NodeCalls.sheltered (Or.inr ⟨j, hj, hptrj, haj⟩))
  kept := by
    intro i m a ha
    by_cases hnull : calls.ptr i = 0
    · rw [if_pos hnull]
    · rw [if_neg hnull]
      exact if_neg fun hnode => NodeCalls.not_taken hnull hnode (NodeCalls.sheltered ha)

/-- What the model of the program says of its memory is what the kernel does. -/
theorem NodeCalls.memory_eq (hptr : calls.ptr i ≠ 0) :
    (calls.after i).memory = calls.nodeMalloc.memory i (calls.before i).memory := by
  obtain ⟨_, _, _, hmemory⟩ := NodeCalls.node hptr
  exact hmemory.trans (if_neg hptr).symm

/-- Its page is mapped to itself, for the program to write. -/
theorem NodeCalls.maps (hptr : calls.ptr i ≠ 0) : (calls.after i).entry process (calls.ptr i)
    = BitVec.ofNat 32 (calls.ptr i) ||| processMallocFlags := by
  obtain ⟨ptr, k', hrun, _, hgranted⟩ := processMalloc_spec (calls.task i) (calls.dirs i) rfl
    (show 1 ≤ sizeofCommandArgument by decide) (allocatorMeets_one (calls.clean i) (by decide) (by decide))
  obtain ⟨rfl, rfl⟩ := Prod.mk.inj (Except.ok.inj (hrun.symm.trans (calls.call i)))
  obtain ⟨hs, _, hend, _⟩ := NodeCalls.node hptr
  have hsize : sizeofCommandArgument = 516 := rfl
  have hstart : bimbleosHeapAddress = 16777216 := rfl
  have hpage : pageRound sizeofCommandArgument = 4096 := by decide
  exact (hgranted hptr).inside _ ⟨by omega, by omega⟩ (Nat.le_refl _) (by omega)

end NodeCalls

/-! ## The list, as the program and as the kernel see it -/

/-- The physical address of each address of the current task. -/
def Kernel.translateCurrent (k : Kernel) : Nat → Nat :=
  pagingGetPhysicalAddress k.pages (k.taskDirectory k.tasks.currentTask)

/-- System call 7 for a list that the current task has built in `m` at the `nodes`: the nodes are where the task has
    them, and in memory that is not free. -/
structure AsksFor (k : Kernel) (m : Mem) (root : Nat) (nodes : List Nat) : Prop where
  clean : k.heap.Clean
  item : k.commandItem = root
  seen : ∀ n ∈ nodes, argumentAt k.currentTaskMemory n = argumentAt m n ∧
    commandArgumentNext k.currentTaskMemory n = commandArgumentNext m n
  first : NodeAt k.translateCurrent root k.commandArguments
  mapped : ∀ n ∈ nodes.tail, NodeAt k.translateCurrent n n
  sheltered : NodesSheltered k (k.commandArguments :: nodes.tail)

section SystemRun

variable {drive : Drive} {k k' : Kernel} {m : Mem} {task root : Nat} {nodes : List Nat}

/-- The list that the kernel follows has the strings of the list that the task has built. -/
theorem AsksFor.kernelList (h : AsksFor k m root nodes) (hpath : Path (commandArgumentNext m) 0 root nodes)
    (hne : nodes ≠ []) (harguments : k.commandArguments ≠ 0) :
    Path (commandArgumentNext k.memory) 0 k.commandArguments (k.commandArguments :: nodes.tail) ∧
      (k.commandArguments :: nodes.tail).map (argumentAt k.memory) = nodes.map (argumentAt m) := by
  have hmemory : k.currentTaskMemory = fun a => k.memory (k.translateCurrent a) := rfl
  obtain ⟨n, rest, rfl⟩ := List.exists_cons_of_ne_nil hne
  obtain ⟨rfl, _, hrest⟩ := hpath
  have hseen := h.seen
  rw [hmemory] at hseen
  obtain ⟨hargument, hnext⟩ := hseen root List.mem_cons_self
  rw [h.first.next] at hnext
  rw [h.first.argument] at hargument
  have hnode : ∀ n ∈ rest, argumentAt k.memory n = argumentAt m n ∧
      commandArgumentNext k.memory n = commandArgumentNext m n := by
    intro n hn
    have hself := h.mapped n hn
    obtain ⟨hargument', hnext'⟩ := hseen n (List.mem_cons_of_mem _ hn)
    exact ⟨hself.argument.symm.trans hargument', hself.next.symm.trans hnext'⟩
  refine ⟨⟨rfl, harguments, ?_⟩, ?_⟩
  · rw [hnext]
    exact hrest.congr fun n hn => (hnode n hn).2
  · rw [List.map_cons, List.map_cons, hargument, List.tail_cons]
    exact congrArg _ (List.map_congr_left fun n hn => (hnode n hn).1)

/-- A call that enters a program hands over the list that the task has built. -/
theorem AsksFor.handsOver (h : AsksFor k m root nodes) (hpath : Path (commandArgumentNext m) 0 root nodes)
    (hne : nodes ≠ []) (hrun : isr80hCommand7InvokeSystemCommand drive k = .ok (.entered task, k')) :
    HandsOver drive k task k' (nodes.map (argumentAt m)) := by
  have harguments : k.commandArguments ≠ 0 := by
    have houtcome := isr80hCommand7_outcome hrun
    generalize hend : CallEnd.entered task = e at houtcome
    cases houtcome with
    | refused => cases hend
    | notLoaded => cases hend
    | notInjected => cases hend
    | entered haccept => exact fun hnull => haccept (Or.inl hnull)
  obtain ⟨hkernel, hstrings⟩ := h.kernelList hpath hne harguments
  rw [← hstrings]
  exact isr80hCommand7_entered h.clean hrun hkernel h.sheltered

/-! What is asked of the nodes holds for those that `process_malloc` has given. -/

/-- The task of the process makes a system call. Since the nodes were given, their pages have stayed mapped and their
    blocks taken, and they have the bytes that the program has written. -/
structure NodesStay {process : Nat} {B : Set Nat} (calls : NodeCalls process B) (k : Kernel) (m : Mem) : Prop where
  clean : k.heap.Clean
  current : (k.process process).task = k.tasks.currentTask
  mapped : ∀ i, calls.ptr i ≠ 0 → k.entry process (calls.ptr i) = (calls.after i).entry process (calls.ptr i)
  taken : ∀ i, calls.ptr i ≠ 0 → kfreeBlock (calls.ptr i) ∈ k.heap.taken
  memory : ∀ i, calls.ptr i ≠ 0 → ∀ a, InNode (calls.ptr i) a → k.memory a = m a

section Nodes

variable {process i n : Nat} {B : Set Nat} {calls : NodeCalls process B} {ws : List (List (BitVec 8))}

/-- The task finds each node where its pointer says. -/
theorem NodesStay.nodeAt (h : NodesStay calls k m) (hptr : calls.ptr i ≠ 0) :
    NodeAt k.translateCurrent (calls.ptr i) (calls.ptr i) := by
  obtain ⟨hs, _, hend, _⟩ := NodeCalls.node hptr
  have hsize : sizeofCommandArgument = 516 := rfl
  have hstart : bimbleosHeapAddress = 16777216 := rfl
  have halign : calls.ptr i % 4096 = 0 := by omega
  have hself : k.translateCurrent (calls.ptr i) = calls.ptr i := by
    have hlower : pagingAlignToLowerPage (calls.ptr i) = calls.ptr i := by
      rw [pagingAlignToLowerPage_eq]
      omega
    have hentry := (h.mapped i hptr).trans (NodeCalls.maps hptr)
    have hdirectory : k.pages.directory (k.directoryOf process) = k.taskDirectory k.tasks.currentTask := by
      unfold Kernel.directoryOf Kernel.taskDirectory
      rw [h.current]
    unfold Kernel.entry at hentry
    rw [hdirectory] at hentry
    unfold Kernel.translateCurrent pagingGetPhysicalAddress
    simp only [hlower]
    rw [pagingGet_aligned halign, hentry, frameOf_or halign (by omega) (by decide), Nat.sub_self, Nat.add_zero]
    exact u32_of_lt (by omega)
  have hnode : NodeAt k.translateCurrent (calls.ptr i) (k.translateCurrent (calls.ptr i)) :=
    nodeAt_of_page (by omega)
  rwa [hself] at hnode

/-- **System call 7 finds the list** that the program has built in nodes of `process_malloc`. -/
theorem NodesStay.asksFor (h : NodesStay calls k m) (hitem : k.commandItem = root)
    (hpath : Path (commandArgumentNext m) 0 root (calls.nodeMalloc.nodes 0 ws)) (hroot : root ≠ 0) :
    AsksFor k m root (calls.nodeMalloc.nodes 0 ws) := by
  have hsize : sizeofCommandArgument = 516 := rfl
  have hone : Stdlib.sizeofArgument = 512 := rfl
  have hnode : ∀ n ∈ calls.nodeMalloc.nodes 0 ws, NodeAt k.translateCurrent n n ∧
      (∀ a, InNode n a → k.memory a = m a) ∧ ∀ a, InNode n a → InShelter k.heap.taken a := by
    intro n hn
    obtain ⟨j, rfl, hptr⟩ := NodeMalloc.mem_nodes hn
    refine ⟨h.nodeAt hptr, h.memory j hptr, fun a ha => Or.inr ⟨_, h.taken j hptr, ?_⟩⟩
    exact NodeCalls.inBlock hptr ha
  have hmem : root ∈ calls.nodeMalloc.nodes 0 ws := by
    generalize calls.nodeMalloc.nodes 0 ws = nodes at hpath
    cases nodes with
    | nil => exact absurd hpath hroot
    | cons n nodes =>
        obtain ⟨rfl, _⟩ := hpath
        exact List.mem_cons_self
  have harguments : k.commandArguments = root := by
    have hzero := (hnode root hmem).1 0 (by omega)
    rw [← hitem] at hzero ⊢
    exact hzero
  have hmemory : k.currentTaskMemory = fun a => k.memory (k.translateCurrent a) := rfl
  refine ⟨h.clean, hitem, fun n hn => ?_, ?_, fun n hn => (hnode n (List.mem_of_mem_tail hn)).1,
    fun n hn a hlo hhi => ?_⟩
  · obtain ⟨hat, hbytes, _⟩ := hnode n hn
    rw [hmemory, hat.argument, hat.next]
    exact ⟨argumentAt_congr_below fun a hlo hhi => hbytes a ⟨hlo, by omega⟩,
      commandArgumentNext_congr fun a hlo hhi => hbytes a ⟨by omega, hhi⟩⟩
  · rw [harguments]
    exact (hnode root hmem).1
  · rw [harguments] at hn
    have hin : n ∈ calls.nodeMalloc.nodes 0 ws := by
      rcases List.mem_cons.mp hn with rfl | hn
      · exact hmem
      · exact List.mem_of_mem_tail hn
    exact (hnode n hin).2.2 a ⟨hlo, hhi⟩

end Nodes

/-- A call of `bimbleos_system_run` has failed, since there is no piece or no memory for one, or it has handed over a
    list: a process that is entered with it has the pieces of the line for which there was memory. -/
def RunsCommand {own : Nat → Prop} (malloc : NodeMalloc own) (line : List (BitVec 8)) (r : Except Int Nat) (m : Mem) :
    Prop :=
  (allocated malloc.answers 0 (pieces line) = [] → r = .error (-1)) ∧
  (allocated malloc.answers 0 (pieces line) ≠ [] → ∃ root, r = .ok root ∧
    ∀ drive k k' task, AsksFor k m root (malloc.nodes 0 (pieces line)) →
      isr80hCommand7InvokeSystemCommand drive k = .ok (.entered task, k') →
      HandsOver drive k task k' (allocated malloc.answers 0 (pieces line)))

/-- The list that was built is handed over. -/
theorem runsCommand_of_built {own : Nat → Prop} {malloc : NodeMalloc own} {scommand : Nat} {m₀ : Mem}
    {line : List (BitVec 8)} (h : CommandBuilt malloc scommand (pieces line) root m₀ m) :
    RunsCommand malloc line (if root = 0 then .error (-1) else .ok root) m := by
  have hroot := h.root_iff
  refine ⟨fun hnil => if_pos (hroot.mpr hnil), fun hne => ⟨root, if_neg fun hzero => hne (hroot.mp hzero), ?_⟩⟩
  intro drive k k' task hasks hcall
  rw [← h.arguments] at hne ⊢
  exact hasks.handsOver h.path (fun hnil => hne (List.map_eq_nil_iff.mpr hnil)) hcall

end SystemRun

/-- **From a command line to the arguments of a program.** The command is any string; its first 1023 characters are
    cut into pieces, of which those count for which `malloc` has a node. Where there is none, the call fails. Else it
    makes system call 7, and a process that this call enters is the program that the first piece names, and has been
    given all of them, each cut to 511 characters. -/
theorem bimbleosSystemRun_handsOver {own : Nat → Prop} (malloc : NodeMalloc own) {command buf scommand : Nat} {m : Mem}
    {s : List (BitVec 8)} (hown : ∀ a, scommand ≤ a → a < scommand + sizeofScommand → own a) (hnull : scommand ≠ 0)
    (hspace : scommand + sizeofScommand ≤ addressSpace) (h : HoldsString m command s)
    (hbuf : buf + sizeofBuf ≤ command ∨ command + s.length < buf)
    (hbeside : scommand + sizeofScommand ≤ buf ∨ buf + sizeofBuf ≤ scommand) :
    ∃ r m' sp, bimbleosSystemRun malloc command buf scommand m 0 = some (r, m', sp) ∧
      (allocated malloc.answers 0 (pieces (s.take 1023)) = [] → r = .error (-1)) ∧
      (allocated malloc.answers 0 (pieces (s.take 1023)) ≠ [] → ∃ root, r = .ok root ∧
        CommandBuilt malloc scommand (pieces (s.take 1023)) root (strncpy m buf command sizeofBuf) m' ∧
        ∀ drive k k' task, AsksFor k m' root (malloc.nodes 0 (pieces (s.take 1023))) →
          isr80hCommand7InvokeSystemCommand drive k = .ok (.entered task, k') →
          HandsOver drive k task k' (allocated malloc.answers 0 (pieces (s.take 1023)))) := by
  obtain ⟨root, m', sp, hrun, hbuilt, _⟩ :=
    @bimbleosSystemRun_spec own malloc m command buf scommand s hown hnull hspace h hbuf hbeside
  have hsize : sizeofBuf - 1 = 1023 := rfl
  rw [hsize] at hbuilt
  obtain ⟨hnone, hsome⟩ := runsCommand_of_built hbuilt
  by_cases hzero : root = 0
  · rw [if_pos hzero] at hrun hnone hsome
    refine ⟨_, m', sp, hrun, hnone, fun hne => ?_⟩
    obtain ⟨_, herror, _⟩ := hsome hne
    cases herror
  · rw [if_neg hzero] at hrun hnone hsome
    refine ⟨_, m', sp, hrun, hnone, fun hne => ?_⟩
    obtain ⟨_, hok, hgives⟩ := hsome hne
    cases hok
    exact ⟨root, rfl, hbuilt, hgives⟩

/-- **With nodes that `process_malloc` gives**, nothing is left to ask of them but that they stay: a process that the
    call enters has been given the pieces of the command. -/
theorem bimbleosSystemRun_mallocs {process : Nat} {B : Set Nat} (calls : NodeCalls process B)
    {command buf scommand : Nat} {m : Mem} {s : List (BitVec 8)}
    (hown : ∀ a, scommand ≤ a → a < scommand + sizeofScommand → InShelter B a) (hnull : scommand ≠ 0)
    (hspace : scommand + sizeofScommand ≤ addressSpace) (h : HoldsString m command s)
    (hbuf : buf + sizeofBuf ≤ command ∨ command + s.length < buf)
    (hbeside : scommand + sizeofScommand ≤ buf ∨ buf + sizeofBuf ≤ scommand) :
    ∃ root m' sp, bimbleosSystemRun calls.nodeMalloc command buf scommand m 0
        = some (if root = 0 then (.error (-1), m', sp) else (.ok root, m', sp)) ∧
      ∀ drive k k' task, root ≠ 0 → NodesStay calls k m' → k.commandItem = root →
        isr80hCommand7InvokeSystemCommand drive k = .ok (.entered task, k') →
        HandsOver drive k task k' (allocated calls.nodeMalloc.answers 0 (pieces (s.take 1023))) := by
  obtain ⟨root, m', sp, hrun, hbuilt, _⟩ :=
    @bimbleosSystemRun_spec _ calls.nodeMalloc m command buf scommand s hown hnull hspace h hbuf hbeside
  have hsize : sizeofBuf - 1 = 1023 := rfl
  rw [hsize] at hbuilt
  refine ⟨root, m', sp, hrun, fun drive k k' task hroot hstay hitem hcall => ?_⟩
  have hpath := hbuilt.path
  have hne : calls.nodeMalloc.nodes 0 (pieces (s.take 1023)) ≠ [] := by
    intro hnil
    rw [hnil] at hpath
    exact hroot hpath
  rw [← hbuilt.arguments]
  exact (hstay.asksFor hitem hpath hroot).handsOver hpath hne hcall

/-! The command `A`, whose node is at `0x3fe010`. -/

/-- There is memory for one node. -/
def oneNode : NodeMalloc fun a => 0x2000 ≤ a ∧ a < 0x2000 + sizeofScommand where
  ptr i := if i = 0 then 0x3fe010 else 0
  memory _ m := m
  inside := by
    intro i hptr
    by_cases hi : i = 0
    · rw [if_pos hi]
      decide
    · exact absurd (if_neg hi) hptr
  apart := by
    intro i hptr a ha hown
    have hi : i = 0 := by
      by_contra hne
      exact hptr (if_neg hne)
    rw [if_pos hi] at ha
    have hlow := ha.1
    have hhigh := hown.2
    have hsize : sizeofScommand = 1025 := rfl
    omega
  fresh := by
    intro i j hj hptr
    exact absurd (if_neg (by omega)) hptr
  kept _ _ _ _ := rfl

def lineMemory : Mem := storeBytes (fun _ => 0) 0x4000 ([0x41] ++ [0])

theorem callerKernel_asks {root : Nat} {m' : Mem} (hbuilt : CommandBuilt oneNode 0x2000 [[0x41]] root
    (strncpy lineMemory 0x3000 0x4000 sizeofBuf) m') :
    root = 0x3fe010 ∧ AsksFor (callerKernel 25599 callerMemory) m' root [0x3fe010] := by
  obtain ⟨rfl, _, hnext⟩ := hbuilt.path
  have hstring : HoldsString (callerKernel 25599 callerMemory).currentTaskMemory 0x3fe010 [0x41] :=
    ⟨by decide, by decide, (by decide : (callerKernel 25599 callerMemory).currentTaskMemory (0x3fe010 + 1) = 0)⟩
  have hargument : argumentAt (callerKernel 25599 callerMemory).currentTaskMemory 0x3fe010 = [0x41] := by
    unfold argumentAt
    exact hstring.stringAt.trans (by decide)
  have hzero : commandArgumentNext (callerKernel 25599 callerMemory).currentTaskMemory 0x3fe010 = 0 := by decide
  refine ⟨rfl, crowdedHeap_clean, by decide, fun n hn => ?_, nodeAt_of_page (by decide), fun n hn => ?_, ?_⟩
  · rw [List.mem_singleton.mp hn, hargument, hzero]
    exact ⟨(List.cons.inj hbuilt.arguments).1.symm, Eq.symm hnext⟩
  · exact absurd hn List.not_mem_nil
  · intro n hn a _ hhi
    have hlow : ∀ n ∈ [0x500010], n + sizeofCommandArgument ≤ bimbleosHeapAddress := by decide
    have hend := hlow n hn
    exact Or.inl (by omega)

theorem bimbleosSystemRun_handsOver_one : ∃ m' sp task k',
    bimbleosSystemRun oneNode 0x4000 0x3000 0x2000 lineMemory 0 = some (.ok 0x3fe010, m', sp) ∧
    isr80hCommand7InvokeSystemCommand heapElfDrive (callerKernel 25599 callerMemory) = .ok (.entered task, k') ∧
    HandsOver heapElfDrive (callerKernel 25599 callerMemory) task k' [[0x41]] := by
  have hload := @roomy_loads callerMemory (exists_of_check (by decide +kernel))
  have hkernel : Path (commandArgumentNext callerMemory) 0 0x500010 [0x500010] := by decide
  obtain ⟨task, k', hcall⟩ := callerKernel_enters hload rfl rfl rfl hkernel (by decide) (by decide)
  obtain ⟨r, m', sp, hrun, _, hsome⟩ := @bimbleosSystemRun_handsOver _ oneNode 0x4000 0x3000 0x2000 lineMemory [0x41]
    (fun a hlo hhi => ⟨hlo, hhi⟩) (by decide) (by decide) (HoldsString.store (by decide)) (by decide) (by decide)
  have hpieces : pieces ([0x41].take 1023) = [[0x41]] := by decide
  have hallocated : allocated oneNode.answers 0 [[0x41]] = [[0x41]] := by decide
  rw [hpieces, hallocated] at hsome
  obtain ⟨root, rfl, hbuilt, hgives⟩ := hsome (by decide)
  obtain ⟨rfl, hasks⟩ := callerKernel_asks hbuilt
  exact ⟨m', sp, task, k', hrun, hcall, hgives _ _ _ _ hasks hcall⟩

end BimbleOS
