import BimbleOS.Task.ArgumentAllocations
import BimbleOS.Task.LoadFrame
import BimbleOS.Task.LoadMemory

/-!
# `Task.ArgumentFrame` — what handing over arguments leaves alone

`process_inject_arguments` changes memory that was free, the page tables of one process, and the fields of this process
that name its allocations and its arguments (`processInjectArguments_injected`, `processInjectArguments_sheltered`). The
strings that it hands over are in taken blocks, so that they stay as long as nothing is written to these
(`processInjectArguments_inside`).
-/

namespace BimbleOS

open Bytes CWord Exec Links

/-! ## `process_malloc` -/

/-- A fact about the kernel that the heap makes of another one, and that the rest of an allocation keeps; `Ok` is what
    is known about the memory. -/
structure MallocRule (I₀ I : Kernel → Prop) (Ok : Nat → Prop) (process size : Nat) : Prop where
  kzalloc : Triple I₀ (kzalloc size) fun ptr k => Ok ptr ∧ I k
  kfree : ∀ {ptr : Nat}, Ok ptr → Triple I (kfree ptr) fun _ => I
  pages : ∀ k pages, I k → I { k with pages := pages }
  slots : ∀ k slots, I k → I (k.setProcess process { k.process process with allocations := slots })

section Malloc

variable {I₀ I : Kernel → Prop} {Ok : Nat → Prop} {process size : Nat}

/-- **`process_malloc`** allocates, maps, and notes the allocation, or gives back what it has allocated. -/
theorem MallocRule.processMalloc (hr : MallocRule I₀ I Ok process size) :
    Triple I₀ (processMalloc process size) fun ptr k => (ptr ≠ 0 → Ok ptr) ∧ I k := by
  have hzero : Triple I (pure 0 : KM Nat) fun ptr k => (ptr ≠ 0 → Ok ptr) ∧ I k :=
    Triple.pure fun _ hk => ⟨fun hne => absurd rfl hne, hk⟩
  unfold BimbleOS.processMalloc
  refine Triple.bind hr.kzalloc fun ptr => Triple.const fun hptr => ?_
  have hfail : Triple I (BimbleOS.kfree ptr >>= fun _ => pure 0) fun (ptr : Nat) k => (ptr ≠ 0 → Ok ptr) ∧ I k :=
    Triple.bind (hr.kfree hptr) fun _ => hzero
  refine Triple.ite (fun _ => hzero) fun _ => ?_
  refine Triple.get_bind fun k₁ h₁ => Triple.pre (P := I) (fun k hk => hk ▸ h₁) ?_
  refine Triple.ite (fun _ => hfail) fun _ => ?_
  refine Triple.bind processPageDirectory_keeps fun d => Triple.pre (P := I) (fun _ hk => hk.2) ?_
  refine Triple.bind (R := fun _ => I) (fun k res k' hk hrun => ?_) fun res => ?_
  · rw [kernelMapTo_eq] at hrun
    cases hrun
    exact hr.pages k _ hk
  refine Triple.ite (fun _ => hfail) fun _ => ?_
  refine Triple.bind (Triple.modify fun k hk => ?_) fun _ => Triple.pure fun _ hk => ⟨fun _ => hptr, hk⟩
  exact hr.slots k _ hk

end Malloc

/-! ## The kernel -/

/-- Handing over arguments to `process` changes the heap, the bytes in memory, the page tables, and the fields of the
    process that name its allocations and its arguments. -/
def Injected (P : Heap → Prop) (process : Nat) (k k' : Kernel) : Prop := P k'.heap ∧
  ∃ heap memory pages allocations argc argv, k' = { k with
    heap := heap
    memory := memory
    pages := pages
    process := Function.update k.process process
      { k.process process with allocations := allocations, argc := argc, argv := argv } }

section Kernel

variable {P : Heap → Prop} {Ok : Nat → Prop} {process q size root : Nat} {k k' : Kernel} {res : Int}

theorem Injected.refl (hP : P k.heap) : Injected P process k k := by
  refine ⟨hP, k.heap, k.memory, k.pages, (k.process process).allocations, (k.process process).argc,
    (k.process process).argv, ?_⟩
  have hsame : Function.update k.process process (k.process process) = k.process := Function.update_eq_self ..
  show k = { k with process := Function.update k.process process (k.process process) }
  rw [hsame]

theorem Injected.setHeap (h : Injected P process k k') {heap : Heap} {memory : Mem} (hP : P heap) :
    Injected P process k { k' with heap := heap, memory := memory } := by
  obtain ⟨_, _, _, pages, allocations, argc, argv, rfl⟩ := h
  exact ⟨hP, heap, memory, pages, allocations, argc, argv, rfl⟩

theorem Injected.setPages (h : Injected P process k k') {pages : PageStore} :
    Injected P process k { k' with pages := pages } := by
  obtain ⟨hP, heap, memory, _, allocations, argc, argv, rfl⟩ := h
  exact ⟨hP, heap, memory, pages, allocations, argc, argv, rfl⟩

theorem Injected.setFields (h : Injected P process k k') {allocations : Nat → ProcessAllocation} {argc argv : Nat} :
    Injected P process k (k'.setProcess process
      { k'.process process with allocations := allocations, argc := argc, argv := argv }) := by
  obtain ⟨hP, heap, memory, pages, _, _, _, rfl⟩ := h
  refine ⟨hP, heap, memory, pages, allocations, argc, argv, ?_⟩
  simp only [Kernel.setProcess, Function.update_self, Function.update_idem]

theorem injectedMallocRule (hr : ReadyRule P Ok) (hsize : size < 4294967296) :
    MallocRule (Injected P process k) (Injected P process k) Ok process size where
  kzalloc := by
    intro k₁ ptr k₂ h hrun
    obtain ⟨hptr, memory, rfl⟩ := kzalloc_run hrun
    obtain ⟨hP, hok⟩ := hr.malloc h.1 hsize
    exact ⟨hptr ▸ hok, h.setHeap hP⟩
  kfree := fun hok => Triple.modify fun _ h => h.setHeap (hr.free h.1 hok)
  pages := fun _ _ h => h.setPages
  slots := fun _ _ h => h.setFields

theorem injectedRule (hr : ReadyRule P Ok) : ArgumentRule (Injected P process k) process where
  malloc := fun _ hsize => (injectedMallocRule hr hsize).processMalloc.consequence (fun _ hk => hk) fun _ _ hk => hk.2
  memory := fun _ _ h => h.setHeap h.1
  arguments := fun _ _ _ h => h.setFields

/-- **`process_inject_arguments`** leaves everything else alone, whether it succeeds or not. -/
theorem processInjectArguments_injected (hr : ReadyRule P Ok) (hP : P k.heap)
    (hrun : processInjectArguments process root k = .ok (res, k')) : Injected P process k k' :=
  processInjectArguments_keeps (injectedRule hr) k res k' (Injected.refl hP) hrun

/-- A call that fails leaves the arguments of the process as they were. -/
theorem processInjectArguments_arguments {argc argv : Nat} :
    Triple (ArgumentsAre process argc argv) (processInjectArguments process root)
      fun res k => res < 0 → ArgumentsAre process argc argv k := by
  unfold processInjectArguments
  refine Triple.bind processCountLoop_keeps fun count => ?_
  refine Triple.ite (fun _ => Triple.pure fun _ h _ => h) fun _ => ?_
  refine Triple.bind processMalloc_arguments fun ptr => ?_
  refine Triple.ite (fun _ => Triple.pure fun _ h _ => h) fun _ => ?_
  refine Triple.bind processInjectLoop_arguments fun res => ?_
  refine Triple.ite (fun _ => Triple.pure fun _ h _ => h) fun hnot => ?_
  refine Triple.bind (R := fun _ _ => True) (Triple.modify fun _ _ => True.intro) fun _ => ?_
  exact Triple.pure fun _ _ hneg => absurd hneg hnot

theorem Injected.other (h : Injected P process k k') (hq : q ≠ process) : k'.process q = k.process q := by
  obtain ⟨_, _, _, _, _, _, _, rfl⟩ := h
  exact Function.update_of_ne hq _ _

theorem Injected.self (h : Injected P process k k') : ∃ allocations argc argv,
    k'.process process = { k.process process with allocations := allocations, argc := argc, argv := argv } := by
  obtain ⟨_, _, _, _, allocations, argc, argv, rfl⟩ := h
  exact ⟨allocations, argc, argv, Function.update_self ..⟩

end Kernel

/-! ## The memory -/

section Memory

variable {B E : Set Nat} {m : Mem} {process size argv current left i ptr root : Nat} {k k' : Kernel} {res : Int}

/-- The memory below the heap and in the blocks that are taken now. -/
theorem Heap.Clean.sheltered (h : k.heap.Clean) : Sheltered k.heap.taken ∅ k.memory k := by
  obtain ⟨hready, htaken, hborder, _⟩ := h.shields
  exact ⟨⟨hready, htaken, hborder, fun b hb => hb.elim⟩, fun _ _ => rfl⟩

/-- `strncpy` writes to its destination. -/
theorem strncpyLoop_outside {dest src a : Nat} (ha : a < dest + i ∨ dest + i + left < a) :
    strncpyLoop dest src left i m a = m a := by
  induction left generalizing i m with
  | zero => exact Function.update_of_ne (by omega) _ _
  | succ left ih =>
      unfold strncpyLoop
      split
      · exact Function.update_of_ne (by omega) _ _
      · rw [ih (by omega)]
        exact Function.update_of_ne (by omega) _ _

theorem shelteredMallocRule (hsize : size < 4294967296) :
    MallocRule (Sheltered B E m) (Sheltered B E m) (fun ptr => (ptr ≠ 0 → Beside B ptr size) ∧ Misses B ptr) process
      size
    where
  kzalloc := by
    intro k ptr k' h hrun
    obtain ⟨hbeside, hmisses, h'⟩ := kzalloc_beside h hsize hrun
    exact ⟨⟨hbeside, hmisses⟩, h'⟩
  kfree := fun hok => shelteredClient.kfree hok.2
  pages := fun _ _ h => h.congr rfl rfl
  slots := fun _ _ h => h.congr rfl rfl

/-- What a process is granted is beside the shelter. -/
theorem processMalloc_sheltered (hsize : size < 4294967296) : Triple (Sheltered B E m) (processMalloc process size)
    fun ptr k => (ptr ≠ 0 → Beside B ptr size) ∧ Sheltered B E m k :=
  (shelteredMallocRule hsize).processMalloc.consequence (fun _ h => h) fun _ _ h => ⟨fun hne => (h.1 hne).1 hne, h.2⟩

/-- One round writes to the block that it is granted, and to the array. -/
theorem processInjectArgument_sheltered (hargv : Beside B argv size) :
    Triple (Sheltered B E m) (processInjectArgument process argv size current i) fun _ => Sheltered B E m := by
  unfold processInjectArgument
  refine Triple.bind (processMalloc_sheltered (by decide)) fun ptr => Triple.const fun hptr => ?_
  refine Triple.ite (fun _ => Triple.pure fun _ h => h) fun hne => ?_
  refine Triple.ite (fun _ => Triple.throw) fun hin => ?_
  refine Triple.bind (R := fun _ => Sheltered B E m) (Triple.modify fun k h => h.store fun a ha => ?_) fun _ => ?_
  · have hout := hptr hne a ha
    have hone : sizeofArgument = 512 := rfl
    exact strncpyLoop_outside (by omega)
  refine Triple.bind (R := fun _ => Sheltered B E m) (Triple.modify fun k h => h.store fun a ha => ?_) fun _ => ?_
  · have hout := hargv a ha
    exact store32_of_outside (by omega)
  · exact Triple.bind followArgument_keeps fun _ => Triple.pure fun _ h => h

theorem processInjectLoop_sheltered (hargv : Beside B argv size) :
    Triple (Sheltered B E m) (processInjectLoop process argv size left current i) fun _ => Sheltered B E m := by
  induction left generalizing current i with
  | zero =>
      unfold processInjectLoop
      refine Triple.ite (fun _ => Triple.pure fun _ h => h) fun _ => ?_
      refine Triple.bind (processInjectArgument_sheltered hargv) fun round => ?_
      cases round with
      | error res => exact Triple.pure fun _ h => h
      | ok next => exact Triple.throw
  | succ left ih =>
      unfold processInjectLoop
      refine Triple.ite (fun _ => Triple.pure fun _ h => h) fun _ => ?_
      refine Triple.bind (processInjectArgument_sheltered hargv) fun round => ?_
      cases round with
      | error res => exact Triple.pure fun _ h => h
      | ok next => exact ih

/-- **`process_inject_arguments`** leaves the memory below the heap and in taken blocks alone. -/
theorem processInjectArguments_sheltered :
    Triple (Sheltered B E m) (processInjectArguments process root) fun _ => Sheltered B E m := by
  unfold processInjectArguments
  refine Triple.bind processCountLoop_keeps fun argc => ?_
  refine Triple.ite (fun _ => Triple.pure fun _ h => h) fun _ => ?_
  refine Triple.bind (processMalloc_sheltered (u32_lt _)) fun argv => Triple.const fun hargv => ?_
  refine Triple.ite (fun _ => Triple.pure fun _ h => h) fun hne => ?_
  refine Triple.bind (processInjectLoop_sheltered (hargv hne)) fun res => ?_
  refine Triple.ite (fun _ => Triple.pure fun _ h => h) fun _ => ?_
  refine Triple.bind (Triple.modify fun k h => ?_) fun _ => Triple.pure fun _ h => h
  exact h.congr rfl rfl

end Memory

/-! ## The room that is left -/

section Room

variable {process size argv current left i n root : Nat} {nodes : List Nat} {k k' : Kernel} {res : Int}

/-- An allocation of one block. -/
theorem processMalloc_tail (h₁ : 1 ≤ size) (h₂ : size ≤ 4096) :
    Triple (fun k => k.heap.TailRoom (n + 1)) (processMalloc process size) fun _ k => k.heap.TailRoom n := by
  have hrule :
      MallocRule (fun k => k.heap.TailRoom (n + 1)) (fun k => k.heap.TailRoom n) (fun _ => True) process size := by
    refine ⟨fun k ptr k' h hrun => ?_, fun _ => Triple.modify fun _ h => h.kfree, fun _ _ h => h, fun _ _ h => h⟩
    obtain ⟨ptr', k'', hrun', _, hroom, _⟩ := kzalloc_small h₁ h₂ k h
    obtain ⟨_, rfl⟩ := Prod.mk.inj (Except.ok.inj (hrun'.symm.trans hrun))
    exact ⟨True.intro, hroom⟩
  exact hrule.processMalloc.consequence (fun _ h => h) fun _ _ h => h.2

theorem processInjectArgument_tail : Triple (fun k => k.heap.TailRoom (n + 1))
    (processInjectArgument process argv size current i) fun _ k => k.heap.TailRoom n := by
  unfold processInjectArgument
  refine Triple.bind (processMalloc_tail (by decide) (by decide)) fun ptr => ?_
  refine Triple.ite (fun _ => Triple.pure fun _ h => h) fun _ => Triple.ite (fun _ => Triple.throw) fun _ => ?_
  refine Triple.bind (R := fun _ (k : Kernel) => k.heap.TailRoom n) (Triple.modify fun _ h => h) fun _ => ?_
  refine Triple.bind (R := fun _ (k : Kernel) => k.heap.TailRoom n) (Triple.modify fun _ h => h) fun _ => ?_
  exact Triple.bind followArgument_keeps fun _ => Triple.pure fun _ h => h

/-- The loop at a node: it stops in this round, or the rest of it follows. -/
theorem processInjectLoop_step (hne : current ≠ 0)
    (hrun : processInjectLoop process argv size left current i k = .ok (res, k')) :
    processInjectArgument process argv size current i k = .ok (.error res, k') ∨
      ∃ next k₁ left', processInjectArgument process argv size current i k = .ok (.ok next, k₁) ∧
        processInjectLoop process argv size left' next (i + 1) k₁ = .ok (res, k') := by
  unfold processInjectLoop at hrun
  rw [if_neg hne] at hrun
  obtain ⟨round, k₁, hround, hrest⟩ := bind_eq_ok.mp hrun
  cases round with
  | error code =>
      cases hrest
      exact Or.inl hround
  | ok next =>
      cases left with
      | zero => cases hrest
      | succ left => exact Or.inr ⟨next, k₁, left, hround, hrest⟩

/-- Each string takes a block. The induction is on the nodes. -/
theorem processInjectLoop_tail (hclean : k.heap.Clean) (hpath : Path (commandArgumentNext k.memory) 0 current nodes)
    (hnodes : NodesApart k argv size nodes) (hargv : ∀ a, argv ≤ a → a < argv + size → k.heap.OutsideFree a)
    (hroom : k.heap.TailRoom (n + nodes.length))
    (hrun : processInjectLoop process argv size left current i k = .ok (res, k')) : k'.heap.TailRoom n := by
  induction nodes generalizing k current i left with
  | nil =>
      obtain rfl : current = 0 := hpath
      obtain ⟨_, rfl⟩ := processInjectLoop_nil hrun
      exact hroom
  | cons m nodes ih =>
      obtain ⟨rfl, hne, hpath⟩ := hpath
      have hroom₁ : k.heap.TailRoom (n + nodes.length + 1) := hroom
      rcases processInjectLoop_step hne hrun with hround | ⟨next, k₁, left', hround, hrest⟩
      · exact (processInjectArgument_tail k _ k' hroom₁ hround).mono (Nat.le_add_right n _)
      have hfirst : NodesApart k argv size [current] := fun m hm =>
        hnodes m (List.mem_singleton.mp hm ▸ List.mem_cons_self)
      have hothers : NodesApart k argv size nodes := fun m hm => hnodes m (List.mem_cons_of_mem _ hm)
      have hroom₂ := processInjectArgument_tail k _ k₁ hroom₁ hround
      obtain ⟨rfl, hin, ptr, hdone⟩ := processInjectArgument_done hclean hfirst hargv hround
      obtain ⟨hpath₁, hnodes₁, hargv₁⟩ := hdone.keeps hpath hothers hargv hin
      exact ih hdone.clean hpath₁ hnodes₁ hargv₁ hroom₂ hrest

/-- **One block for each argument, and one for the array.** -/
theorem processInjectArguments_tail (hclean : k.heap.Clean) (hpath : Path (commandArgumentNext k.memory) 0 root nodes)
    (hnodes : NodesSheltered k nodes) (hlen : nodes.length ≤ 1024) (hroom : k.heap.TailRoom (n + nodes.length + 1))
    (hrun : processInjectArguments process root k = .ok (res, k')) : k'.heap.TailRoom n := by
  obtain ⟨argc, k₁, hcount, hrest⟩ := bind_eq_ok.mp hrun
  obtain ⟨rfl, nodes', hpath', hargc⟩ := processCountLoop_run hcount
  obtain rfl := hpath'.unique hpath
  rw [Nat.zero_add] at hargc
  subst hargc
  by_cases hzero : nodes'.length = 0
  · rw [if_pos hzero] at hrest
    cases hrest
    exact hroom.mono (by omega)
  rw [if_neg hzero] at hrest
  obtain ⟨argv, k₂, halloc, hafter⟩ := bind_eq_ok.mp hrest
  rw [u32_of_lt (show 4 * nodes'.length < 4294967296 by omega)] at halloc hafter
  have hroom₂ := processMalloc_tail (by omega) (by omega) k₁ argv k₂ hroom halloc
  by_cases hnull : argv = 0
  · rw [if_pos hnull] at hafter
    cases hafter
    exact hroom₂.mono (Nat.le_add_right n _)
  rw [if_neg hnull] at hafter
  have harray := hclean.array hpath hnodes (by omega) halloc hnull
  obtain ⟨code, k₃, hloop, hdone⟩ := bind_eq_ok.mp hafter
  have hroom₃ := processInjectLoop_tail harray.clean harray.path harray.apart harray.array hroom₂ hloop
  split at hdone
  · cases hdone
    exact hroom₃
  · cases hdone
    exact hroom₃

end Room

/-! ## The strings -/

/-- The byte at `a` is in a taken block. -/
def Heap.InTaken (heap : Heap) (a : Nat) : Prop :=
  ∃ b ∈ heap.taken, bimbleosHeapAddress + 4096 * b ≤ a ∧ a < bimbleosHeapAddress + 4096 * b + 4096

/-- The bytes from `ptr` on are in taken blocks. -/
def Heap.Covers (heap : Heap) (ptr size : Nat) : Prop := ∀ a, ptr ≤ a → a < ptr + size → heap.InTaken a

section Strings

variable {m : Mem} {process argv size current left i a ptr root : Nat} {nodes : List Nat} {k k' : Kernel}
  {heap heap' : Heap} {ss : List (List (BitVec 8))}

theorem Heap.InTaken.mono (h : heap.InTaken a) (hsub : heap.taken ⊆ heap'.taken) : heap'.InTaken a := by
  obtain ⟨b, hb, hin⟩ := h
  exact ⟨b, hsub hb, hin⟩

theorem Heap.InTaken.inShelter (h : heap.InTaken a) : InShelter heap.taken a := Or.inr h

theorem Heap.InTaken.le (h : heap.InTaken a) : bimbleosHeapAddress ≤ a := by
  obtain ⟨b, _, hlo, _⟩ := h
  omega

theorem Heap.Covers.mono (h : heap.Covers ptr size) (hsub : heap.taken ⊆ heap'.taken) : heap'.Covers ptr size :=
  fun a hlo hhi => (h a hlo hhi).mono hsub

/-- What is granted is in a taken block, if it is no more than one. -/
theorem processMalloc_covers (hclean : k.heap.Clean) (h₁ : 1 ≤ size) (h₂ : size ≤ 4096)
    (hrun : processMalloc process size k = .ok (ptr, k')) (hne : ptr ≠ 0) : k'.heap.Covers ptr size := by
  obtain ⟨_, _, _, _, hptr, _, rfl⟩ := processMalloc_granted hrun hne
  obtain ⟨s, hs, hlt, htotal, hrange⟩ := hclean.malloc h₁ (by omega) hptr hne
  have hone := heapBlocks_one h₁ h₂
  have htaken : s ∈ (heapMalloc k.heap size).2.taken := ⟨by omega, (hrange s (Nat.le_refl s) (by omega) hlt).2.1⟩
  intro a hlo hhi
  exact ⟨s, htaken, by omega, by omega⟩

/-- Copying strings gives back no block that was taken. -/
theorem processInjectLoop_taken {res : Int} (hclean : k.heap.Clean)
    (hrun : processInjectLoop process argv size left current i k = .ok (res, k')) : k.heap.taken ⊆ k'.heap.taken := by
  have h := processInjectLoop_keeps (injectedRule (keptReadyRule k.heap.taken k.heap)) k res k'
    (Injected.refl hclean.shields.kept) hrun
  exact h.1.shields.taken

/-- The string of a round is in a taken block. -/
theorem processInjectArgument_covers {next : Nat} (hclean : k.heap.Clean)
    (hrun : processInjectArgument process argv size current i k = .ok (.ok next, k')) :
    k'.heap.Covers (argvPointer k'.memory argv i) sizeofArgument := by
  obtain ⟨ptr, k₁, halloc, hne, _, rfl, _⟩ := processInjectArgument_run hrun
  obtain ⟨_, _, _, _, _, hend, _⟩ := processMalloc_granted halloc hne
  have hone : sizeofArgument = 512 := rfl
  have hpointer : argvPointer (store32 (strncpy k₁.memory ptr current sizeofArgument) (argv + 4 * i)
      (BitVec.ofNat 32 ptr)) argv i = ptr := by
    unfold argvPointer
    rw [load32_store32, BitVec.toNat_ofNat, Nat.mod_eq_of_lt (by omega)]
  rw [hpointer]
  have hcovers : k₁.heap.Covers ptr sizeofArgument := processMalloc_covers hclean (by omega) (by omega) halloc hne
  exact hcovers

/-- **The strings of the loop** are in taken blocks. The induction is on the nodes. -/
theorem processInjectLoop_covers (hclean : k.heap.Clean) (hpath : Path (commandArgumentNext k.memory) 0 current nodes)
    (hnodes : NodesApart k argv size nodes) (hargv : ∀ a, argv ≤ a → a < argv + size → k.heap.OutsideFree a)
    (hrun : processInjectLoop process argv size left current i k = .ok (0, k')) :
    ∀ j, j < nodes.length → k'.heap.Covers (argvPointer k'.memory argv (i + j)) sizeofArgument := by
  induction nodes generalizing k current i left with
  | nil => exact fun j hj => absurd hj (Nat.not_lt_zero j)
  | cons n nodes ih =>
      obtain ⟨rfl, hne, hpath⟩ := hpath
      rcases processInjectLoop_cons hne hrun with hneg | ⟨next, k₁, left', hround, rfl, hrest⟩
      · exact absurd hneg (by decide)
      have hfirst : NodesApart k argv size [current] := fun m hm =>
        hnodes m (List.mem_singleton.mp hm ▸ List.mem_cons_self)
      have hothers : NodesApart k argv size nodes := fun m hm => hnodes m (List.mem_cons_of_mem _ hm)
      have hcovers := processInjectArgument_covers hclean hround
      obtain ⟨rfl, hroom, ptr, hdone⟩ := processInjectArgument_done hclean hfirst hargv hround
      obtain ⟨hpath₁, hnodes₁, hargv₁⟩ := hdone.keeps hpath hothers hargv hroom
      have hcopied := (processInjectLoop_run hdone.clean hpath₁ hnodes₁ hargv₁ hrest).1
      intro j hj
      cases j with
      | zero =>
          -- the element of this round is not written again
          have hstays : argvPointer k'.memory argv i = argvPointer k₁.memory argv i := by
            unfold argvPointer
            congr 1
            apply load32_congr
            intro j hj
            exact hcopied.memory _ (hdone.outside _ (hargv _ (by omega) (by omega))) (by omega)
          rw [Nat.add_zero, hstays]
          exact hcovers.mono (processInjectLoop_taken hdone.clean hrest)
      | succ j =>
          rw [show i + (j + 1) = i + 1 + j by omega]
          rw [List.length_cons] at hj
          exact ih hdone.clean hpath₁ hnodes₁ hargv₁ hrest j (by omega)

/-- A byte of an array of strings is one of an element, or one of its string. -/
theorem stringsByte_element (h : StringsByte m argv ss a) : ∃ i, ∃ hi : i < ss.length,
    (argv + 4 * i ≤ a ∧ a < argv + 4 * i + 4) ∨
      (argvPointer m argv i ≤ a ∧ a ≤ argvPointer m argv i + ss[i].length) := by
  induction ss generalizing argv with
  | nil => exact h.elim
  | cons s ss ih =>
      rcases h with hslot | hstring | hrest
      · exact ⟨0, Nat.zero_lt_succ _, Or.inl hslot⟩
      · exact ⟨0, Nat.zero_lt_succ _, Or.inr hstring⟩
      · obtain ⟨i, hi, helement⟩ := ih hrest
        have haddr : argvPointer m (argv + 4) i = argvPointer m argv (i + 1) := by
          unfold argvPointer
          rw [show argv + 4 + 4 * i = argv + 4 * (i + 1) by omega]
        rw [haddr] at helement
        refine ⟨i + 1, Nat.succ_lt_succ hi, ?_⟩
        rcases helement with hslot | hstring
        · exact Or.inl (by omega)
        · exact Or.inr hstring

/-- The bytes of an array of strings, where none of them was changed. -/
theorem stringsByte_congr {m' : Mem} (h : StringsByte m' argv ss a)
    (hm : ∀ b, StringsByte m argv ss b → m' b = m b) : StringsByte m argv ss a := by
  induction ss generalizing argv with
  | nil => exact h.elim
  | cons s ss ih =>
      have hpointer : load32 m' argv = load32 m argv :=
        load32_congr fun i hi => hm _ (Or.inl ⟨by omega, by omega⟩)
      rcases h with hslot | hstring | hrest
      · exact Or.inl hslot
      · exact Or.inr (Or.inl (hpointer ▸ hstring))
      · exact Or.inr (Or.inr (ih hrest fun b hb => hm b (Or.inr (Or.inr hb))))

/-- **What a process was given** is in taken blocks, if the array is no more than one. -/
theorem processInjectArguments_inside (hclean : k.heap.Clean) (hpath : Path (commandArgumentNext k.memory) 0 root nodes)
    (hnodes : NodesSheltered k nodes) (hlen : nodes.length ≤ 1024)
    (hrun : processInjectArguments process root k = .ok (0, k'))
    (ha : StringsByte k'.memory (k'.process process).argv (nodes.map (argumentAt k.memory)) a) :
    k'.heap.InTaken a := by
  obtain ⟨argc, k₁, hcount, hrest⟩ := bind_eq_ok.mp hrun
  obtain ⟨rfl, nodes', hpath', hargc⟩ := processCountLoop_run hcount
  obtain rfl := hpath'.unique hpath
  rw [Nat.zero_add] at hargc
  subst hargc
  by_cases hzero : nodes'.length = 0
  · rw [if_pos hzero] at hrest
    cases hrest
  rw [if_neg hzero] at hrest
  obtain ⟨argv, k₂, halloc, hrest⟩ := bind_eq_ok.mp hrest
  by_cases hnull : argv = 0
  · rw [if_pos hnull] at hrest
    cases hrest
  rw [if_neg hnull] at hrest
  obtain ⟨res, k₃, hloop, hdone⟩ := bind_eq_ok.mp hrest
  by_cases hneg : res < 0
  · rw [if_pos hneg] at hdone
    cases hdone
    exact absurd hneg (by decide)
  rw [if_neg hneg, bind_of_ok rfl] at hdone
  obtain ⟨rfl, rfl⟩ := Prod.mk.inj (Except.ok.inj hdone)
  rw [u32_of_lt (show 4 * nodes'.length < 4294967296 by omega)] at halloc hloop
  have harray := hclean.array hpath hnodes (by omega) halloc hnull
  have hstrings := processInjectLoop_covers harray.clean harray.path harray.apart harray.array hloop
  have hself : (k₃.setProcess process { k₃.process process with argc := nodes'.length, argv := argv }).process process
      = { k₃.process process with argc := nodes'.length, argv := argv } := Function.update_self ..
  have hgiven : StringsByte k₃.memory argv (nodes'.map (argumentAt k₂.memory)) a := by
    have hargv := congrArg Process.argv hself
    rw [harray.strings] at ha
    rw [← show _ = argv from hargv]
    exact ha
  obtain ⟨i, hi, hslot | hstring⟩ := stringsByte_element hgiven
  · rw [List.length_map] at hi
    have hcovers := (processMalloc_covers hclean (by omega) (by omega) halloc hnull).mono
      (processInjectLoop_taken harray.clean hloop)
    exact hcovers a (by omega) (by omega)
  · have hin : i < nodes'.length := by rwa [List.length_map] at hi
    have hlength := @length_argumentAt k₂.memory nodes'[i]
    rw [List.getElem_map] at hstring
    have hcovers := hstrings i hin
    rw [Nat.zero_add] at hcovers
    have hone : sizeofArgument = 512 := rfl
    exact hcovers a hstring.1 (by omega)

end Strings

end BimbleOS
