import BimbleOS.Task.ArgumentFrame
import BimbleOS.Task.RawLoads
import BimbleOS.Task.RoundRobin

/-!
# `Task.StartedPrograms` — programs that are started one after the other

`kernel_main` loads its programs with `process_load_switch`, and hands an argument to each of them that it has copied
into one structure on its stack. However many programs are started so, each of them is in a slot and on the task list
at the place of its start, and has its own argument, whatever was loaded and handed over after it
(`startPrograms_started`).
-/

namespace BimbleOS

open Bytes CWord Exec Links Transition

/-- What `kernel_main` does for one program. `process` keeps its value where the load fails, and is not compared with
    the null pointer; the result of handing over the argument is dropped. -/
def startProgram (drive : Drive) (argument : Nat) (filename text : List (BitVec 8)) (process : Nat) :
    KM (Int × Nat) := do
  let (res, loaded) ← processLoadSwitch drive filename
  let process := if res = 0 then loaded else process
  if sizeofArgument < text.length + 1 then throw .outOfBounds
  else
    modify fun k => { k with memory := storeBytes k.memory argument (text ++ [0]) }
    modify fun k => { k with memory := store32 k.memory (argument + sizeofArgument) 0 }
    deref process
    let _ ← processInjectArguments process argument
    return (res, process)

/-- A process that was started, and the arguments that it was given. -/
structure Started where
  process : Nat
  arguments : List (List (BitVec 8))

/-- The process is in its slot, with a task that waits for its first turn, and has no keys. -/
structure StartedProcess (k : Kernel) (slot process : Nat) : Prop where
  ne : process ≠ 0
  placed : Placed process slot k
  taken : kfreeBlock process ∈ k.heap.taken
  taskTaken : kfreeBlock (k.process process).task ∈ k.heap.taken
  keyboard : (k.process process).keyboard = {}
  registers : ∃ ip, (k.tasks.task (k.process process).task).registers = (taskInit 0 0 ip).registers

/-- The arguments that it was given are in taken blocks. -/
structure StartedProgram (k : Kernel) (slot : Nat) (p : Started) : Prop extends StartedProcess k slot p.process where
  given : k.HasArguments p.process p.arguments
  inside : ∀ a, StringsByte k.memory (k.process p.process).argv p.arguments a → k.heap.InTaken a

/-- The processes `ps` were started, in this order, and nothing else has happened. -/
structure StartedInTurn (k : Kernel) (ps : List Started) : Prop where
  clean : k.heap.Clean
  started : ∀ i (hi : i < ps.length), StartedProgram k i ps[i]
  slots : ∀ i, k.processes i = (ps[i]?.map Started.process).getD 0
  tasks : TaskListOk { list := k.tasks, live := ps.map fun p => (k.process p.process).task }
  first : k.tasks.currentTask = k.tasks.taskHead
  focus : k.currentProcess = (ps.getLast?.map Started.process).getD 0

section Frame

variable {k k' : Kernel} {slot process : Nat} {p : Started}

/-- What leaves the task and the taken blocks alone, and changes no more of the process than its allocations and its
    arguments. -/
theorem StartedProcess.change (h : StartedProcess k slot process)
    (hprocess : ∃ allocations argc argv, k'.process process
      = { k.process process with allocations := allocations, argc := argc, argv := argv })
    (htask : (k.tasks.task (k.process process).task).SameBut (k'.tasks.task (k.process process).task))
    (htaken : k.heap.taken ⊆ k'.heap.taken) : StartedProcess k' slot process := by
  obtain ⟨allocations, argc, argv, hprocess⟩ := hprocess
  obtain ⟨next, prev, hsame⟩ := htask
  refine ⟨h.ne, ⟨?_, ?_, ?_, ?_⟩, htaken h.taken, ?_, ?_, ?_⟩
  · rw [hprocess]
    exact h.placed.id
  · rw [hprocess]
    exact h.placed.task_ne
  · rw [hprocess, hsame]
    exact h.placed.owner
  · unfold Kernel.directoryOf
    rw [hprocess, hsame]
    exact h.placed.directory_ne
  · rw [hprocess]
    exact htaken h.taskTaken
  · rw [hprocess]
    exact h.keyboard
  · rw [hprocess, hsame]
    exact h.registers

/-- What leaves the process, its task and the taken blocks alone. -/
theorem StartedProgram.frame (h : StartedProgram k slot p) (hprocess : k'.process p.process = k.process p.process)
    (htask : (k.tasks.task (k.process p.process).task).SameBut (k'.tasks.task (k.process p.process).task))
    (htaken : k.heap.taken ⊆ k'.heap.taken) (hmemory : ∀ a, k.heap.InTaken a → k'.memory a = k.memory a) :
    StartedProgram k' slot p := by
  have hbytes : ∀ a, StringsByte k.memory (k.process p.process).argv p.arguments a → k'.memory a = k.memory a :=
    fun a ha => hmemory a (h.inside a ha)
  refine ⟨h.change ⟨_, _, _, hprocess⟩ htask htaken, ⟨?_, ?_⟩, fun a ha => ?_⟩
  · rw [hprocess]
    exact h.given.argc
  · rw [hprocess]
    exact h.given.argv.congr hbytes
  · rw [hprocess] at ha
    exact (h.inside a (stringsByte_congr ha hbytes)).mono htaken

end Frame

/-! ## A load -/

section Load

variable {drive : Drive} {filename : List (BitVec 8)} {k k' : Kernel} {slot process q i : Nat} {ps : List Started}
  {l : TaskList} {live : List Nat}

/-- A new task, whatever the accesses that are counted. -/
theorem TaskListOk.created {task d : Nat} {ip : BitVec 32} (h : TaskListOk { list := l, live := live }) (hne : task ≠ 0)
    (hfresh : task ∉ live) : TaskListOk { list := taskNew l task process d ip, live := live ++ [task] } := by
  obtain ⟨hlinked, hnodup, htail, hzero, hcurrent, _⟩ := @TaskListOk.new _ h task process d ip hne hfresh
  have hsame : ∃ touched, taskNew { l with touched := [] } task process d ip
      = { taskNew l task process d ip with touched := touched } := by
    by_cases hnull : l.taskHead = 0
    · simp only [taskNew, taskNewLink, TaskList.store, TaskList.touch, hnull, if_true]
      exact ⟨_, rfl⟩
    · simp only [taskNew, taskNewLink, TaskList.store, TaskList.touch, hnull, if_false]
      exact ⟨_, rfl⟩
  obtain ⟨touched, htouched⟩ := hsame
  have hlist : (TaskState.after { list := l, live := live } (.new task process d ip)).list
      = { taskNew l task process d ip with touched := touched } := htouched
  rw [hlist] at hlinked htail hzero hcurrent
  exact ⟨hlinked, hnodup, htail, hzero, hcurrent, rfl⟩

/-- The first task is the current one. -/
theorem taskNew_first {task d : Nat} {ip : BitVec 32} (h : l.currentTask = l.taskHead) :
    (taskNew l task process d ip).currentTask = (taskNew l task process d ip).taskHead := by
  unfold taskNew taskNewLink
  split
  · rfl
  · exact h

/-- **A process that was just loaded** has no keys and no arguments, and the last task of the list. -/
theorem processLoad_made (hready : k.heap.Ready) (hrun : processLoad drive filename k = .ok ((0, process), k')) :
    (k'.process process).keyboard = {} ∧ (k'.process process).argc = 0 ∧ k'.fileDescriptors = k.fileDescriptors ∧
      ∃ d ip, k'.tasks = taskNew k.tasks (k'.process process).task process d ip := by
  obtain ⟨slot, k₁, _, halloc, _, hfilled⟩ := processLoad_zero hrun
  obtain ⟨_, memory₁, rfl⟩ := kzalloc_run halloc
  obtain ⟨k₂, hfill, rfl⟩ := hfilled _ _ readyRule (heapMalloc_ready hready).1
  cases hfill with
  | early hneg => exact absurd hneg (by decide)
  | @mapped k₃ heap memory pages₀ pages p stack task d directory tables ip reads hdata hp _ _ _ _ _ _ _ =>
      have hfields : (k₃.process process).keyboard = {} ∧ (k₃.process process).argc = 0 := by
        cases processLoadData_run HeapRule.trivial True.intro hdata with
        | failed hneg => exact absurd hneg (by decide)
        | elf _ _ _ hkeeps =>
            obtain ⟨_, _, _, rfl⟩ := hkeeps
            simp only [Kernel.setProcess, Function.update_self, Process.withElf]
            exact ⟨True.intro, True.intro⟩
        | binary _ _ _ hkeeps =>
            obtain ⟨_, _, _, rfl⟩ := hkeeps
            simp only [Kernel.setProcess, Function.update_self, Process.withBinary]
            exact ⟨True.intro, True.intro⟩
      subst hp
      simp only [Function.update_self]
      exact ⟨hfields.1, hfields.2, rfl, d, ip, rfl⟩

/-- **One more program**, which has no arguments yet. -/
theorem StartedInTurn.load (h : StartedInTurn k ps)
    (hrun : processLoadSwitch drive filename k = .ok ((0, process), k')) :
    StartedInTurn k' (ps ++ [⟨process, []⟩]) := by
  obtain ⟨k₁, hload, hk'⟩ := processLoadSwitch_run hrun
  rw [if_pos rfl] at hk'
  obtain ⟨slot, hfirst, hplaced, hprocesses⟩ := processLoad_placed h.clean.ready hload
  obtain ⟨hkeyboard, hargc, _, d, ip, htasks⟩ := processLoad_made h.clean.ready hload
  have hown := processLoad_ownBlocks h.clean hload
  obtain ⟨process', hkeeps, hcases⟩ := (processLoad_loadRun h.clean.ready hload).keeps h.clean
  have hsheltered := processLoad_sheltered h.clean hload
  obtain ⟨hne, hsame⟩ : process ≠ 0 ∧ process' = process := by
    rcases hcases with ⟨hneg, _⟩ | ⟨hne, heq⟩
    · exact absurd hneg (Int.lt_irrefl 0)
    · have hptr := (Prod.mk.inj heq).2
      exact ⟨hptr ▸ hne, hptr.symm⟩
  subst hsame
  obtain ⟨S, _, hS, _, howns⟩ := hown.inner
  have htask := hS howns.task
  -- the processes and tasks that were there are in other blocks
  have hother : ∀ p ∈ ps, p.process ≠ process' ∧ (k.process p.process).task ≠ (k₁.process process').task := by
    intro p hp
    obtain ⟨i, hi, rfl⟩ := List.mem_iff_getElem.mp hp
    have hstarted := h.started i hi
    exact ⟨fun heq => hown.self.2 (heq ▸ hstarted.taken), fun heq => htask.2 (heq ▸ hstarted.taskTaken)⟩
  have hlive : ((ps ++ [Started.mk process' []]).map fun p => (k'.process p.process).task)
      = (ps.map fun p => (k.process p.process).task) ++ [(k₁.process process').task] := by
    rw [List.map_append, hk']
    refine congrArg (· ++ _) (List.map_congr_left fun p hp => ?_)
    exact congrArg Process.task (hkeeps.others _ (hother p hp).1)
  have hslot : slot = ps.length := by
    have hat : ∀ i, i < ps.length → k.processes i ≠ 0 := by
      intro i hi
      rw [h.slots, List.getElem?_eq_getElem hi]
      exact (h.started i hi).ne
    have hfree : k.processes ps.length = 0 := by
      rw [h.slots, List.getElem?_eq_none (Nat.le_refl _)]
      rfl
    rcases Nat.lt_trichotomy slot ps.length with hlt | heq | hgt
    · exact absurd hfirst.free (hat slot hlt)
    · exact heq
    · exact absurd hfree (hfirst.before _ hgt)
  subst hslot
  subst hk'
  refine ⟨?_, fun i hi => ?_, fun i => ?_, ?_, ?_, ?_⟩
  · exact hkeeps.heap _ _ cleanReadyRule h.clean
  · rcases Nat.lt_or_ge i ps.length with hlt | hge
    · rw [List.getElem_append_left hlt]
      have hstarted := h.started i hlt
      refine hstarted.frame (hkeeps.others _ (hother _ (List.getElem_mem hlt)).1) (hkeeps.task _ hstarted.taskTaken)
        hsheltered.shields.taken fun a ha => hsheltered.memory a ha.inShelter
    · obtain rfl : i = ps.length := by
        rw [List.length_append, List.length_singleton] at hi
        omega
      rw [List.getElem_concat_length rfl]
      refine ⟨⟨hne, ⟨hplaced.id, hplaced.task_ne, hplaced.owner, hplaced.directory_ne⟩, hown.self.1, htask.1, hkeyboard,
        ?_⟩, ⟨hargc, True.intro⟩, fun a ha => ha.elim⟩
      have hstored : (k.tasks.store (k₁.process process').task (taskInit process' d ip)).task (k₁.process process').task
          = taskInit process' d ip := Function.update_self ..
      obtain ⟨next, prev, hnew⟩ := taskNewLink_sameBut (k.tasks.store (k₁.process process').task
        (taskInit process' d ip)) (k₁.process process').task (k₁.process process').task
      rw [hstored] at hnew
      have hregs :
          ((taskNew k.tasks (k₁.process process').task process' d ip).task (k₁.process process').task).registers
          = (taskInit 0 0 ip).registers := (congrArg Task.registers hnew).trans rfl
      simp only [htasks]
      exact ⟨ip, hregs⟩
  · simp only [hprocesses]
    rcases Nat.lt_trichotomy i ps.length with hlt | rfl | hgt
    · rw [Function.update_of_ne (Nat.ne_of_lt hlt), List.getElem?_append_left hlt]
      exact h.slots i
    · rw [Function.update_self, List.getElem?_concat_length]
      rfl
    · rw [Function.update_of_ne (Nat.ne_of_gt hgt), h.slots, List.getElem?_eq_none (Nat.le_of_lt hgt),
        List.getElem?_eq_none (by rw [List.length_append, List.length_singleton]; omega)]
  · rw [hlive]
    simp only [htasks]
    refine h.tasks.created hplaced.task_ne fun hmem => ?_
    obtain ⟨p, hp, heq⟩ := List.mem_map.mp hmem
    exact (hother p hp).2 heq
  · simp only [htasks]
    exact taskNew_first h.first
  · rw [List.getLast?_concat]
    rfl

end Load

/-! ## Handing over the argument -/

section Argument

variable {drive : Drive} {filename text : List (BitVec 8)} {k k' : Kernel} {process process₀ argument root : Nat}
  {nodes : List Nat} {ps : List Started} {res : Int}

/-- Writing beside the taken blocks. -/
theorem StartedInTurn.setMemory (h : StartedInTurn k ps) {m : Mem} (hm : ∀ a, k.heap.InTaken a → m a = k.memory a) :
    StartedInTurn { k with memory := m } ps :=
  ⟨h.clean, fun i hi => (h.started i hi).frame rfl (Task.SameBut.refl _) subset_rfl hm, h.slots, h.tasks, h.first,
    h.focus⟩

/-- **The last program gets its arguments**, or none. -/
theorem StartedInTurn.inject (h : StartedInTurn k (ps ++ [⟨process, []⟩]))
    (hpath : Path (commandArgumentNext k.memory) 0 root nodes) (hnodes : NodesSheltered k nodes)
    (hlen : nodes.length ≤ 1024)
    (hrun : processInjectArguments process root k = .ok (res, k')) : ∃ arguments,
      (arguments = [] ∨ arguments = nodes.map (argumentAt k.memory)) ∧
        StartedInTurn k' (ps ++ [⟨process, arguments⟩]) := by
  have hkept := (processInjectArguments_injected (keptReadyRule k.heap.taken k.heap) h.clean.shields.kept hrun).1
  have hinjected := processInjectArguments_injected cleanReadyRule h.clean hrun
  have hsheltered := processInjectArguments_sheltered k res k' h.clean.sheltered hrun
  have hat : ps.length < (ps ++ [Started.mk process []]).length := by
    rw [List.length_append, List.length_singleton]
    omega
  have hlast : StartedProgram k ps.length ⟨process, []⟩ := by
    have hstarted := h.started ps.length hat
    rwa [List.getElem_concat_length rfl] at hstarted
  -- what was handed over
  obtain ⟨arguments, hcases, hgiven, hinside⟩ : ∃ arguments,
      (arguments = [] ∨ arguments = nodes.map (argumentAt k.memory)) ∧ k'.HasArguments process arguments ∧
        ∀ a, StringsByte k'.memory (k'.process process).argv arguments a → k'.heap.InTaken a := by
    rcases Int.lt_or_eq_of_le (processInjectArguments_le hrun) with hneg | rfl
    · have hsame := processInjectArguments_arguments k res k' ⟨hlast.given.argc, rfl⟩ hrun hneg
      exact ⟨[], Or.inl rfl, ⟨hsame.1, True.intro⟩, fun a ha => ha.elim⟩
    · exact ⟨_, Or.inr rfl, processInjectArguments_run h.clean hpath hnodes hrun,
        fun a ha => processInjectArguments_inside h.clean hpath hnodes hlen hrun ha⟩
  have hself := hinjected.self
  have hother : ∀ i (hi : i < ps.length), k'.process ps[i].process = k.process ps[i].process := by
    intro i hi
    refine hinjected.other fun heq => ?_
    have hstarted := h.started i (by omega)
    rw [List.getElem_append_left hi] at hstarted
    have hid := hstarted.placed.id
    rw [heq, hlast.placed.id] at hid
    omega
  obtain ⟨hclean, heap, memory, pages, allocations, argc, argv, hk'⟩ := hinjected
  have htasks : k'.tasks = k.tasks := by rw [hk']
  have hslots : (ps ++ [Started.mk process arguments]).map Started.process
      = (ps ++ [Started.mk process []]).map Started.process := by
    rw [List.map_append, List.map_append]
    rfl
  have hlive : (ps ++ [Started.mk process arguments]).map (fun p => (k'.process p.process).task)
      = (ps ++ [Started.mk process []]).map fun p => (k.process p.process).task := by
    rw [List.map_append, List.map_append]
    congr 1
    · refine List.map_congr_left fun p hp => ?_
      obtain ⟨i, hi, rfl⟩ := List.mem_iff_getElem.mp hp
      rw [hother i hi]
    · obtain ⟨_, _, _, hprocess⟩ := hself
      simp only [List.map_cons, List.map_nil, hprocess]
  have htask : ∀ a, (k.tasks.task a).SameBut (k'.tasks.task a) := by
    intro a
    rw [htasks]
    exact Task.SameBut.refl _
  refine ⟨arguments, hcases, hclean, fun i hi => ?_, fun i => ?_, ?_, ?_, ?_⟩
  · rcases Nat.lt_or_ge i ps.length with hlt | hge
    · have hstarted := h.started i (by omega)
      rw [List.getElem_append_left hlt] at hstarted ⊢
      exact hstarted.frame (hother i hlt) (htask _) hkept.shields.taken fun a ha => hsheltered.memory a ha.inShelter
    · obtain rfl : i = ps.length := by
        rw [List.length_append, List.length_singleton] at hi
        omega
      rw [List.getElem_concat_length rfl]
      exact ⟨hlast.change hself (htask _) hkept.shields.taken, hgiven, hinside⟩
  · rw [← List.getElem?_map, hslots, List.getElem?_map]
    have hsame : k'.processes = k.processes := by rw [hk']
    rw [hsame]
    exact h.slots i
  · rw [hlive, htasks]
    exact h.tasks
  · rw [htasks]
    exact h.first
  · have hfocus : k'.currentProcess = k.currentProcess := by rw [hk']
    rw [hfocus, h.focus, List.getLast?_concat, List.getLast?_concat]
    rfl

/-- The structure on the stack, with the argument in it. -/
def withArgument (m : Mem) (argument : Nat) (text : List (BitVec 8)) : Mem :=
  store32 (storeBytes m argument (text ++ [0])) (argument + sizeofArgument) 0

theorem withArgument_outside {m : Mem} {a : Nat} (hfit : text.length + 1 ≤ sizeofArgument)
    (ha : a < argument ∨ argument + sizeofCommandArgument ≤ a) : withArgument m argument text a = m a := by
  have hone : sizeofArgument = 512 := rfl
  have hnodeSize : sizeofCommandArgument = 516 := rfl
  have hlength : (text ++ [0]).length = text.length + 1 := by rw [List.length_append, List.length_singleton]
  unfold withArgument
  rw [store32_of_outside (by omega)]
  exact if_neg (by omega)

/-- It is a list of one node. -/
theorem withArgument_node {m : Mem} (hne : argument ≠ 0) (htext : ∀ c ∈ text, c ≠ 0)
    (hfit : text.length + 1 ≤ sizeofArgument) :
    Path (commandArgumentNext (withArgument m argument text)) 0 argument [argument] ∧
      argumentAt (withArgument m argument text) argument = text := by
  have hstring : HoldsString (withArgument m argument text) argument text :=
    (HoldsString.store htext).store32 fun c _ hhi => by omega
  refine ⟨⟨rfl, hne, ?_⟩, ?_⟩
  · unfold commandArgumentNext withArgument
    rw [load32_store32]
    rfl
  · unfold argumentAt
    rw [hstring.stringAt, List.take_of_length_le (by omega)]

/-- The parts of a start in which the load succeeds. -/
theorem startProgram_run (hrun : startProgram drive argument filename text process₀ k = .ok ((0, process), k')) :
    text.length + 1 ≤ sizeofArgument ∧ ∃ k₁ code, processLoadSwitch drive filename k = .ok ((0, process), k₁) ∧
      processInjectArguments process argument { k₁ with memory := withArgument k₁.memory argument text }
        = .ok (code, k') := by
  obtain ⟨⟨res, loaded⟩, k₁, hload, hrest⟩ := bind_eq_ok.mp hrun
  dsimp only at hrest
  by_cases hfit : sizeofArgument < text.length + 1
  · rw [if_pos hfit] at hrest
    cases hrest
  rw [if_neg hfit, modify_bind, modify_bind] at hrest
  obtain ⟨_, k₂, hderef, hafter⟩ := bind_eq_ok.mp hrest
  obtain ⟨_, rfl⟩ := deref_run hderef
  obtain ⟨code, k₃, hinject, hdone⟩ := bind_eq_ok.mp hafter
  obtain ⟨hret, rfl⟩ := Prod.mk.inj (Except.ok.inj hdone)
  obtain ⟨rfl, rfl⟩ := Prod.mk.inj hret
  exact ⟨Nat.not_lt.mp hfit, k₁, code, hload, hinject⟩

/-- The list is below the heap. -/
theorem nodesSheltered_below (hplace : argument + sizeofCommandArgument ≤ bimbleosHeapAddress) :
    NodesSheltered k [argument] := by
  intro n hn a _ hhi
  obtain rfl := List.mem_singleton.mp hn
  exact Or.inl (by omega)

/-- **One more program is started.** -/
theorem StartedInTurn.start (h : StartedInTurn k ps) (hne : argument ≠ 0)
    (hplace : argument + sizeofCommandArgument ≤ bimbleosHeapAddress) (htext : ∀ c ∈ text, c ≠ 0)
    (hrun : startProgram drive argument filename text process₀ k = .ok ((0, process), k')) : ∃ arguments,
      (arguments = [] ∨ arguments = [text]) ∧ StartedInTurn k' (ps ++ [⟨process, arguments⟩]) := by
  obtain ⟨hfit, k₁, code, hload, hinject⟩ := startProgram_run hrun
  obtain ⟨hpath, hcopied⟩ := @withArgument_node text argument k₁.memory hne htext hfit
  have hready : StartedInTurn { k₁ with memory := withArgument k₁.memory argument text } (ps ++ [⟨process, []⟩]) := by
    refine (h.load hload).setMemory fun a ha => withArgument_outside hfit ?_
    have hle := ha.le
    omega
  obtain ⟨arguments, hcases, hstarted⟩ :=
    hready.inject hpath (nodesSheltered_below hplace) (show 1 ≤ 1024 by decide) hinject
  rw [List.map_cons, List.map_nil, hcopied] at hcases
  exact ⟨arguments, hcases, hstarted⟩

/-- **What a start leaves alone**: the memory below the heap and in taken blocks, apart from the structure on the stack,
    and the table of open files. -/
theorem startProgram_keeps (hclean : k.heap.Clean)
    (hrun : startProgram drive argument filename text process₀ k = .ok ((0, process), k')) :
    k.heap.taken ⊆ k'.heap.taken ∧ k'.fileDescriptors = k.fileDescriptors ∧
      ∀ a, InShelter k.heap.taken a → (a < argument ∨ argument + sizeofCommandArgument ≤ a) →
        k'.memory a = k.memory a := by
  obtain ⟨hfit, k₁, code, hswitch, hinject⟩ := startProgram_run hrun
  obtain ⟨k₂, hload, rfl⟩ := processLoadSwitch_run hswitch
  rw [if_pos rfl] at hinject
  have hloaded := processLoad_sheltered hclean hload
  have hclean₂ := processLoad_keeps cleanReadyRule hclean hload
  obtain ⟨_, _, htable, _⟩ := processLoad_made hclean.ready hload
  have hsheltered := processInjectArguments_sheltered _ code k' (Heap.Clean.sheltered (k := { k₂ with
    currentProcess := process
    memory := withArgument k₂.memory argument text }) hclean₂) hinject
  obtain ⟨_, _, _, _, _, _, _, hk'⟩ := processInjectArguments_injected cleanReadyRule (k := { k₂ with
    currentProcess := process
    memory := withArgument k₂.memory argument text }) hclean₂ hinject
  refine ⟨hloaded.shields.taken.trans hsheltered.shields.taken, ?_, fun a ha hout => ?_⟩
  · rw [hk']
    exact htable
  · rw [hsheltered.memory a (ha.mono hloaded.shields.taken)]
    exact (withArgument_outside hfit hout).trans (hloaded.memory a ha)

end Argument

/-! ## A series of programs -/

/-- A program that was started: its file, its argument, and its process. -/
structure ProgramStart where
  filename : List (BitVec 8)
  text : List (BitVec 8)
  process : Nat

/-- A start in which the load succeeds. -/
inductive StartStep (drive : Drive) (argument : Nat) : Kernel → ProgramStart → Kernel → Prop where
  | start {k k' : Kernel} {e : ProgramStart} {process₀ : Nat}
      (hrun : startProgram drive argument e.filename e.text process₀ k = .ok ((0, e.process), k')) :
      StartStep drive argument k e k'

/-- The process of a start, with its argument or, where there was no memory for it, without. -/
def HasOwn (e : ProgramStart) (p : Started) : Prop :=
  p.process = e.process ∧ (p.arguments = [] ∨ p.arguments = [e.text])

/-- The induction is on the starts. -/
theorem startPrograms_run {drive : Drive} {argument : Nat} {k₀ k : Kernel} {tr : List (Kernel × ProgramStart)}
    (h₀ : StartedInTurn k₀ []) (hne : argument ≠ 0) (hplace : argument + sizeofCommandArgument ≤ bimbleosHeapAddress)
    (hrun : Trace (StartStep drive argument) k₀ tr k) (htext : ∀ q ∈ tr, ∀ c ∈ q.2.text, c ≠ 0) :
    ∃ ps, List.Forall₂ HasOwn (tr.map Prod.snd) ps ∧ StartedInTurn k ps := by
  induction hrun with
  | nil => exact ⟨[], .nil, h₀⟩
  | @snoc tr k k' e _ hstep ih =>
      obtain ⟨ps, hown, hstarted⟩ := ih fun q hq => htext q (List.mem_append_left _ hq)
      obtain ⟨hstart⟩ := hstep
      have hlast := htext (k, e) (List.mem_append_right _ (List.mem_singleton.mpr rfl))
      obtain ⟨arguments, hcases, hstarted'⟩ := hstarted.start hne hplace hlast hstart
      refine ⟨_, ?_, hstarted'⟩
      rw [List.map_append]
      exact List.rel_append hown (.cons ⟨rfl, hcases⟩ .nil)

/-- The tasks of the programs, in the order of the starts. -/
def startedTasks (k : Kernel) (ps : List Started) : List Nat := ps.map fun p => (k.process p.process).task

/-- **The turns** go through the tasks in the order of the starts. -/
theorem StartedInTurn.turns {k : Kernel} {ps : List Started} {n : Nat} (h : StartedInTurn k ps) (hn : n ≤ ps.length) :
    ∃ l', taskNextRun n k.tasks = some (((startedTasks k ps).rotate 1).take n, l') := by
  cases ps with
  | nil =>
      obtain rfl : n = 0 := Nat.le_zero.mp hn
      exact ⟨k.tasks, rfl⟩
  | cons p ps =>
      have hpath : Path k.tasks.nextOf 0 k.tasks.taskHead (startedTasks k (p :: ps)) := h.tasks.linked.path
      have hcurrent : (startedTasks k (p :: ps))[0]? = some k.tasks.currentTask := by
        rw [h.first]
        exact congrArg some hpath.1.symm
      have hturn := TurnOrder.of_path hpath (Nat.zero_lt_succ _) hcurrent
      rw [List.rotate_zero] at hturn
      have hlength : n ≤ (startedTasks k (p :: ps)).length := by
        unfold startedTasks
        rwa [List.length_map]
      obtain ⟨l', hrun, _⟩ := hturn.run hlength
      exact ⟨l', hrun⟩

/-- **Programs that are started one after the other**, however many: each of them has its slot, its own argument and
    its place on the task list in the order of the starts. The first one has the first turn, the others follow it, and
    the last one has the keyboard. -/
theorem startPrograms_started {drive : Drive} {argument : Nat} {k₀ k : Kernel} {tr : List (Kernel × ProgramStart)}
    (h₀ : StartedInTurn k₀ []) (hne : argument ≠ 0) (hplace : argument + sizeofCommandArgument ≤ bimbleosHeapAddress)
    (hrun : Trace (StartStep drive argument) k₀ tr k) (htext : ∀ q ∈ tr, ∀ c ∈ q.2.text, c ≠ 0) :
    ∃ ps, List.Forall₂ HasOwn (tr.map Prod.snd) ps ∧ StartedInTurn k ps ∧
      ∀ n, n ≤ ps.length → ∃ l', taskNextRun n k.tasks = some (((startedTasks k ps).rotate 1).take n, l') := by
  obtain ⟨ps, hown, hstarted⟩ := startPrograms_run h₀ hne hplace hrun htext
  exact ⟨ps, hown, hstarted, fun n hn => hstarted.turns hn⟩

/-! ### A start that goes through -/

section Goes

variable {drive : Drive} {filename text bytes : List (BitVec 8)} {k k₁ k' : Kernel}
  {process process₀ argument n m : Nat} {volume : FatVolume} {item : FatDirectoryItem} {ps : List Started}

/-- With the program loaded, two blocks are all that is missing. -/
theorem startProgram_goes (hclean : k.heap.Clean) (hload : processLoad drive filename k = .ok ((0, process), k₁))
    (hroom : k₁.heap.TailRoom (n + 2)) (hprocess : process ≠ 0) (hne : argument ≠ 0)
    (hplace : argument + sizeofCommandArgument ≤ bimbleosHeapAddress) (htext : ∀ c ∈ text, c ≠ 0)
    (hfit : text.length + 1 ≤ sizeofArgument) :
    ∃ k', startProgram drive argument filename text process₀ k = .ok ((0, process), k') ∧ k'.heap.TailRoom n ∧
      Sheltered k₁.heap.taken ∅ (withArgument k₁.memory argument text) k' := by
  have hnodeSize : sizeofCommandArgument = 516 := rfl
  have hsmall : bimbleosHeapAddress < 4294967296 := by decide
  obtain ⟨hslots, htask⟩ := processLoad_fresh hclean.ready hload
  have hclean₁ := processLoad_keeps cleanReadyRule hclean hload
  obtain ⟨hpath, _⟩ := @withArgument_node text argument k₁.memory hne htext hfit
  generalize hk₂ : { k₁ with
    currentProcess := process
    memory := withArgument k₁.memory argument text } = k₂
  have hheap : k₂.heap = k₁.heap := by rw [← hk₂]
  have hmemory : k₂.memory = withArgument k₁.memory argument text := by rw [← hk₂]
  have hsame : k₂.process = k₁.process := by rw [← hk₂]
  rw [← hmemory] at hpath ⊢
  rw [← hheap] at hroom hclean₁ ⊢
  have hcan : CanAllocate k₂ process 0 ([argument].length + 1) := by
    have hblocks := hroom.freeBlocks
    refine ⟨hclean₁, by rwa [hsame], ⟨fun j hj => absurd hj (Nat.not_lt_zero j), fun j _ => ?_⟩,
      show 2 ≤ 1024 by decide, ?_⟩
    · rw [hsame, hslots]
    · rw [List.length_singleton]
      omega
  have hnodes : NodesSheltered k₂ [argument] := nodesSheltered_below hplace
  obtain ⟨k', hrun, _⟩ := processInjectArguments_goes hcan hpath hnodes
    (fun m hm => by rw [List.mem_singleton.mp hm]; omega) (List.cons_ne_nil _ _)
  refine ⟨k', ?_, ?_, processInjectArguments_sheltered k₂ 0 k' hclean₁.sheltered hrun⟩
  · unfold startProgram
    rw [bind_of_ok (processLoadSwitch_loaded hload)]
    dsimp only
    rw [if_pos rfl, if_neg (Nat.not_lt.mpr hfit), modify_bind, modify_bind, bind_of_ok (deref_of_ne hprocess)]
    rw [← hk₂] at hrun
    exact bind_of_ok hrun
  · exact processInjectArguments_tail hclean₁ hpath hnodes (show 1 ≤ 1024 by decide) hroom hrun

/-- What the next start needs. -/
structure CanStart (n : Nat) (k : Kernel) : Prop where
  clean : k.heap.Clean
  room : k.heap.TailRoom n
  table : k.fileDescriptors = fun _ => none
  slot : ∃ slot, FirstSlot k slot
  cleared : ∀ process k₁, kzalloc sizeofProcess k = .ok (process, k₁) → k₁.FirstCleared

/-- The first block of the heap stays cleared. -/
theorem Kernel.FirstCleared.kzalloc (h : k.FirstCleared) (hclean : k.heap.Clean)
    (hrun : BimbleOS.kzalloc sizeofProcess k = .ok (process, k₁)) : k₁.FirstCleared :=
  h.sheltered h.taken (kzalloc_sheltered (by decide) k process k₁ hclean.sheltered hrun).2

/-- **A raw image is loaded**, and after it the next one can be, if there is a slot. -/
theorem RawFile.next (h : RawFile drive filename volume item bytes) (hlength : 116 ≤ bytes.length)
    (hbase : (load32 (fun j => bytes.getD j 0) 112).toNat = bimbleosHeapAddress) (hcan : CanStart m k)
    (hm : n + 4134 ≤ m) : ∃ process k', process ≠ 0 ∧ processLoad drive filename k = .ok ((0, process), k') ∧
      k'.heap.TailRoom n ∧ k'.FirstCleared ∧ k'.fileDescriptors = fun _ => none := by
  obtain ⟨slot, hslot⟩ := hcan.slot
  have hblocks : heapBlocks sizeofProcess = 3 := by decide
  have hroom : k.heap.TailRoom (n + 4 * processSizes.length + 19 + heapBlocks sizeofProcess) := by
    refine hcan.room.mono ?_
    rw [processSizes_length, hblocks]
    omega
  obtain ⟨process, k₁, halloc, hprocess, _⟩ := @kzalloc_tail (n + 4 * processSizes.length + 19) sizeofProcess
    (by decide) k ⟨hroom, fun hzero => absurd hzero (by decide)⟩
  have hcleared := hcan.cleared process k₁ halloc
  have hfirst : FirstFree k 0 := ⟨by decide, by rw [hcan.table], fun j hj => absurd hj (Nat.not_lt_zero j)⟩
  obtain ⟨k', hload, hloaded⟩ := h.load hlength hbase hcan.clean hroom hslot hfirst (by decide) halloc hcleared
  exact ⟨process, k', hprocess, hload, hloaded.room, hcleared.sheltered hcleared.taken hloaded.since,
    hloaded.table.trans hcan.table⟩

/-- **A raw image is started**, and after it the next one can be, if there is a slot. -/
theorem RawFile.start (h : RawFile drive filename volume item bytes) (hlength : 116 ≤ bytes.length)
    (hbase : (load32 (fun j => bytes.getD j 0) 112).toNat = bimbleosHeapAddress) (hcan : CanStart (n + 4136) k)
    (hne : argument ≠ 0) (hplace : argument + sizeofCommandArgument ≤ bimbleosHeapAddress) (htext : ∀ c ∈ text, c ≠ 0)
    (hfit : text.length + 1 ≤ sizeofArgument) : ∃ process k',
      startProgram drive argument filename text process₀ k = .ok ((0, process), k') ∧ k'.heap.TailRoom n ∧
        k'.FirstCleared ∧ k'.fileDescriptors = fun _ => none := by
  obtain ⟨process, k₂, hprocess, hload, hroom, hcleared, _⟩ :=
    h.next hlength hbase hcan (show n + 2 + 4134 ≤ n + 4136 by omega)
  obtain ⟨k', hrun, hroom', hsheltered⟩ :=
    @startProgram_goes drive filename text k k₂ process process₀ argument n hcan.clean
    hload hroom hprocess hne hplace htext hfit
  refine ⟨process, k', hrun, hroom', ?_, ?_⟩
  · refine ⟨hsheltered.shields.taken hcleared.taken, fun a hlo hhi => ?_⟩
    rw [hsheltered.memory a (Or.inr ⟨0, hcleared.taken, by omega, by omega⟩), ← hcleared.zero a hlo hhi]
    exact withArgument_outside hfit (Or.inr (by omega))
  · exact (startProgram_keeps hcan.clean hrun).2.1.trans hcan.table

/-- There is a slot while there are less than twelve processes. -/
theorem StartedInTurn.firstSlot (h : StartedInTurn k ps) (hlen : ps.length < 12) : FirstSlot k ps.length := by
  refine ⟨hlen, ?_, fun j hj => ?_⟩
  · rw [h.slots, List.getElem?_eq_none (Nat.le_refl _)]
    rfl
  · rw [h.slots, List.getElem?_eq_getElem hj]
    exact (h.started j hj).ne

end Goes

theorem bootKernel_started : StartedInTurn bootKernel [] where
  clean := bootKernel_clean
  started := fun _ hi => absurd hi (Nat.not_lt_zero _)
  slots := fun _ => rfl
  tasks := noTasks_ok _
  first := rfl
  focus := rfl

/-- Two programs, started with the arguments of `kernel_main`. -/
theorem startPrograms_started_two : ∃ (p q : Nat) (k : Kernel) (tr : List (Kernel × ProgramStart)),
    tr.map Prod.snd = [⟨splitPath, [0x50, 0x31], p⟩, ⟨splitPath, [0x50, 0x32], q⟩] ∧
      ∃ ps, List.Forall₂ HasOwn (tr.map Prod.snd) ps ∧ StartedInTurn k ps ∧
        ∀ n, n ≤ ps.length → ∃ l', taskNextRun n k.tasks = some (((startedTasks k ps).rotate 1).take n, l') := by
  have hne : 0x500000 ≠ 0 := by decide
  have hplace : 0x500000 + sizeofCommandArgument ≤ bimbleosHeapAddress := by decide
  have hfirst : ∀ c ∈ ([0x50, 0x31] : List (BitVec 8)), c ≠ 0 := by decide
  have hsecond : ∀ c ∈ ([0x50, 0x32] : List (BitVec 8)), c ≠ 0 := by decide
  have hcan₀ : CanStart (4136 + 4136) bootKernel :=
    ⟨bootKernel_clean, bootKernel_tailRoom (by decide), rfl, ⟨0, bootKernel_started.firstSlot (by decide)⟩,
      fun _ _ halloc => (bootKernel_firstFits.alloc halloc).2.1⟩
  obtain ⟨p, k₁, hrun₁, hroom₁, hcleared₁, htable₁⟩ :=
    @RawFile.start _ _ _ _ _ 0 _ _ _ _ pointerDrive_rawFile (by decide)
    (by decide) hcan₀ hne hplace hfirst (by decide)
  obtain ⟨arguments, _, hstarted₁⟩ := bootKernel_started.start hne hplace hfirst hrun₁
  have hcan₁ : CanStart (0 + 4136) k₁ :=
    ⟨hstarted₁.clean, hroom₁, htable₁, ⟨1, hstarted₁.firstSlot (show 1 < 12 by decide)⟩,
      fun _ _ halloc => hcleared₁.kzalloc hstarted₁.clean halloc⟩
  obtain ⟨q, k₂, hrun₂, _⟩ := @RawFile.start _ _ _ _ _ p _ _ _ _ pointerDrive_rawFile (by decide)
    (by decide) hcan₁ hne hplace hsecond (by decide)
  have htrace : Trace (StartStep pointerDrive 0x500000) bootKernel
      [(bootKernel, ⟨splitPath, [0x50, 0x31], p⟩), (k₁, ⟨splitPath, [0x50, 0x32], q⟩)] k₂ :=
    (Trace.nil.snoc ⟨hrun₁⟩).snoc ⟨hrun₂⟩
  refine ⟨p, q, k₂, _, rfl, startPrograms_started bootKernel_started hne hplace htrace fun e he => ?_⟩
  rcases List.mem_cons.mp he with rfl | he
  · exact hfirst
  · rw [List.mem_singleton.mp he]
    exact hsecond

end BimbleOS
