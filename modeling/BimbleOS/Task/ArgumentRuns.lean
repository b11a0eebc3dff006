import BimbleOS.Task.LoadProgress
import BimbleOS.Task.ProcessArguments
import BimbleOS.Task.Isolation
import BimbleOS.Lib.Links

/-!
# `Task.ArgumentRuns` — what `process_inject_arguments` hands over

The list is counted, an array is allocated, and for every node a block with a copy of its string. Everything
is written to memory that was free, so that a list that is not in free memory stays as it is, and what was
copied stays too. A call that succeeds has given the process the strings of the list, in its order
(`processInjectArguments_run`).
-/

namespace BimbleOS

open Bytes CWord Exec Links BlockRuns

/-! ## Memory that is not free -/

/-- The byte at `a` is in no free block. -/
def Heap.OutsideFree (heap : Heap) (a : Nat) : Prop :=
  ∀ b, b < heap.table.totalEntries → heap.table.Free b →
    ¬ (bimbleosHeapAddress + 4096 * b ≤ a ∧ a < bimbleosHeapAddress + 4096 * b + 4096)

theorem InShelter.outsideFree {heap : Heap} {a : Nat} (h : InShelter heap.taken a) : heap.OutsideFree a := by
  rintro b hb hfree ⟨hlo, hhi⟩
  rcases h with hlow | ⟨b', ⟨_, htaken⟩, hlo', hhi'⟩
  · omega
  · obtain rfl : b' = b := by omega
    exact htaken hfree

/-! ## A `process_malloc` that is granted -/

section Malloc

variable {k k' : Kernel} {p size ptr : Nat}

/-- **A `process_malloc` that returns memory** has cleared it, mapped it and put it into a free slot. -/
theorem processMalloc_granted (hrun : processMalloc p size k = .ok (ptr, k')) (hne : ptr ≠ 0) :
    ∃ i pages, i < bimbleosMaxProgramAllocations ∧ ((k.process p).allocations i).ptr = 0 ∧
      (heapMalloc k.heap size).1 = ptr ∧ ptr + size ≤ 4294967296 ∧ k' = { k with
        heap := (heapMalloc k.heap size).2
        memory := fill k.memory ptr size 0
        pages := pages
        process := Function.update k.process p { k.process p with
          allocations := Function.update (k.process p).allocations i ⟨ptr, size⟩ } } := by
  obtain ⟨a, k₁, halloc, hrest⟩ := bind_eq_ok.mp hrun
  by_cases hnull : a = 0
  · rw [if_pos hnull] at hrest
    cases hrest
    exact absurd rfl hne
  rw [if_neg hnull] at hrest
  obtain ⟨hinside, hk₁⟩ := kzalloc_used halloc hnull
  obtain ⟨ha, _⟩ := kzalloc_run halloc
  obtain ⟨k₂, k₂', hget, hrest⟩ := bind_eq_ok.mp hrest
  cases hget
  have hback : ∀ {ptr : Nat} {k' : Kernel}, (kfree a >>= fun _ => pure 0 : KM Nat) k₁ = .ok (ptr, k') → ptr = 0 := by
    intro ptr k' hfree
    obtain ⟨_, _, _, hdone⟩ := bind_eq_ok.mp hfree
    cases hdone
    rfl
  by_cases hfull : processFindFreeAllocationIndex (k₁.process p) < 0
  · rw [if_pos hfull] at hrest
    exact absurd (hback hrest) hne
  rw [if_neg hfull] at hrest
  obtain ⟨i, hindex, hi, hslot⟩ := processFindFreeAllocationIndex_ok hfull
  obtain ⟨d, k₃, hdir, hmapped⟩ := bind_eq_ok.mp hrest
  have hsame : k₃ = k₁ := by
    rw [processPageDirectory_eq] at hdir
    split at hdir
    · cases hdir
    · cases hdir
      rfl
  subst hsame
  obtain ⟨res, k₄, hmap, hdone⟩ := bind_eq_ok.mp hmapped
  rw [kernelMapTo_eq] at hmap
  have hk₄ := (Prod.mk.inj (Except.ok.inj hmap)).2
  by_cases hneg : res < 0
  · rw [if_pos hneg] at hdone
    obtain ⟨_, _, _, hzero⟩ := bind_eq_ok.mp hdone
    cases hzero
    exact absurd rfl hne
  rw [if_neg hneg] at hdone
  have hindex' : (processFindFreeAllocationIndex (k₃.process p)).toNat = i := by
    rw [hindex]
    rfl
  rw [bind_of_ok rfl, hindex'] at hdone
  obtain ⟨rfl, rfl⟩ := Prod.mk.inj (Except.ok.inj hdone)
  have hprocess : k₃.process = k.process := by rw [hk₁]
  rw [hprocess] at hslot
  subst hk₄ hk₁
  exact ⟨i, _, hi, hslot, ha.symm, hinside, rfl⟩

/-- The memory that was granted: it was free, it is taken now, and nothing else in the heap has changed. -/
structure Granted (heap heap' : Heap) (ptr size : Nat) : Prop where
  clean : heap'.Clean
  outside : ∀ a, heap.OutsideFree a → heap'.OutsideFree a
  region : ∀ a, ptr ≤ a → a < ptr + size → heap'.OutsideFree a ∧ ¬ InShelter heap.taken a

theorem heapMalloc_granted {heap : Heap} (hclean : heap.Clean) (h₁ : 1 ≤ size) (hptr : (heapMalloc heap size).1 = ptr)
    (hne : ptr ≠ 0) (hend : ptr + size ≤ 4294967296) : Granted heap (heapMalloc heap size).2 ptr size := by
  obtain ⟨start, hstart⟩ := heapMalloc_address hclean.ready hptr hne
  have h₂ : size ≤ 0xFFFFF000 := by
    unfold bimbleosHeapAddress at hstart
    omega
  obtain ⟨_, hcover, _⟩ := heapBlocks_of_le h₁ h₂
  obtain ⟨s, hs, hlt, htotal, hrange⟩ := hclean.malloc h₁ h₂ hptr hne
  have hkept := ((shieldRule heap.taken _).malloc hclean.shields (show size < 4294967296 by omega)).1.taken
  refine ⟨(cleanRule.malloc hclean (by omega)).1, fun a ha b hb hfree hin => ?_, fun a hlo hhi => ⟨?_, ?_⟩⟩
  · rw [htotal] at hb
    refine ha b hb ?_ hin
    by_contra htaken
    exact (hkept ⟨hb, htaken⟩).2 hfree
  · rintro b hb hfree ⟨hlo', hhi'⟩
    rw [htotal] at hb
    exact (hrange b (by omega) (by omega) hb).2.1 hfree
  · rintro (hlow | ⟨b, hb, hlo', hhi'⟩)
    · omega
    · have hapart := hclean.shields.apart hb (by omega) hptr hne hend
      omega

/-- A request of one block was served from a free block. -/
theorem heapMalloc_one_free {heap : Heap} (hclean : heap.Clean) (h₁ : 1 ≤ size) (h₂ : size ≤ 4096)
    (hptr : (heapMalloc heap size).1 = ptr) (hne : ptr ≠ 0) {a : Nat} (ha : heap.OutsideFree a) :
    a < ptr ∨ ptr + size ≤ a := by
  obtain ⟨s, hs, hlt, _, hrange⟩ := hclean.malloc h₁ (by omega) hptr hne
  have hone := heapBlocks_one h₁ h₂
  have hfree := (hrange s (Nat.le_refl s) (by omega) hlt).1
  have hout := ha s hlt hfree
  omega

end Malloc

/-! ## Following the list -/

section Follow

variable {k k' : Kernel} {current next left i argc : Nat} {nodes : List Nat}

theorem followArgument_run (hrun : followArgument current k = .ok (next, k')) : k' = k ∧
    next = commandArgumentNext k.memory current ∧ current + sizeofCommandArgument ≤ 4294967296 := by
  obtain ⟨k₁, k₁', hget, hrest⟩ := bind_eq_ok.mp hrun
  cases hget
  by_cases hfit : 4294967296 < current + sizeofCommandArgument
  · rw [if_pos hfit] at hrest
    cases hrest
  · rw [if_neg hfit] at hrest
    cases hrest
    exact ⟨rfl, rfl, Nat.not_lt.mp hfit⟩

theorem followArgument_of_fit (hfit : current + sizeofCommandArgument ≤ 4294967296) :
    followArgument current k = .ok (commandArgumentNext k.memory current, k) := by
  refine bind_eq_ok.mpr ⟨k, k, rfl, ?_⟩
  rw [if_neg (Nat.not_lt.mpr hfit)]
  rfl

/-- **Counting** a list that ends. The induction is on the nodes. -/
theorem processCountLoop_of_path (hpath : Path (commandArgumentNext k.memory) 0 current nodes)
    (hfit : ∀ n ∈ nodes, n + sizeofCommandArgument ≤ 4294967296) (hlen : nodes.length ≤ left) :
    processCountLoop left current i k = .ok (i + nodes.length, k) := by
  induction nodes generalizing current left i with
  | nil =>
      obtain rfl : current = 0 := hpath
      unfold processCountLoop
      rw [if_pos rfl]
      rfl
  | cons n nodes ih =>
      obtain ⟨rfl, hne, hrest⟩ := hpath
      obtain ⟨left, rfl⟩ := Nat.exists_eq_succ_of_ne_zero (Nat.ne_of_gt (Nat.lt_of_lt_of_le (Nat.succ_pos _) hlen))
      unfold processCountLoop
      rw [if_neg hne]
      have hnext := ih (i := i + 1) hrest (fun m hm => hfit m (List.mem_cons_of_mem _ hm)) (Nat.le_of_succ_le_succ hlen)
      have hlength : i + 1 + nodes.length = i + (current :: nodes).length := by
        rw [List.length_cons]
        omega
      rw [← hlength, ← hnext]
      exact bind_of_ok (followArgument_of_fit (hfit current List.mem_cons_self))

/-- A count that returns has come to the end of the list. -/
theorem processCountLoop_run (hrun : processCountLoop left current i k = .ok (argc, k')) : k' = k ∧
    ∃ nodes, Path (commandArgumentNext k.memory) 0 current nodes ∧ argc = i + nodes.length := by
  have hend : current = 0 → processCountLoop left current i k = .ok (i, k) := by
    intro hzero
    unfold processCountLoop
    rw [if_pos hzero]
    rfl
  induction left generalizing current i with
  | zero =>
      by_cases hzero : current = 0
      · rw [hend hzero] at hrun
        cases hrun
        exact ⟨rfl, [], hzero, rfl⟩
      · unfold processCountLoop at hrun
        rw [if_neg hzero] at hrun
        cases hrun
  | succ left ih =>
      by_cases hzero : current = 0
      · rw [hend hzero] at hrun
        cases hrun
        exact ⟨rfl, [], hzero, rfl⟩
      unfold processCountLoop at hrun
      rw [if_neg hzero] at hrun
      obtain ⟨next, k₁, hfollow, hrest⟩ := bind_eq_ok.mp hrun
      obtain ⟨rfl, rfl, _⟩ := followArgument_run hfollow
      obtain ⟨rfl, nodes, hpath, rfl⟩ := ih hrest fun hzero => by
        unfold processCountLoop
        rw [if_pos hzero]
        rfl
      exact ⟨rfl, current :: nodes, ⟨rfl, hzero, hpath⟩, by rw [List.length_cons]; omega⟩

end Follow

/-! ## Copying the strings -/

section Inject

variable {k k' : Kernel} {p argv size current i next left : Nat} {nodes : List Nat}

/-- A round that goes on. -/
theorem processInjectArgument_run (hrun : processInjectArgument p argv size current i k = .ok (.ok next, k')) :
    ∃ ptr k₁, processMalloc p sizeofArgument k = .ok (ptr, k₁) ∧ ptr ≠ 0 ∧ 4 * (i + 1) ≤ size ∧
      k' = { k₁ with
        memory := store32 (strncpy k₁.memory ptr current sizeofArgument) (argv + 4 * i) (BitVec.ofNat 32 ptr) } ∧
      next = commandArgumentNext k'.memory current := by
  obtain ⟨ptr, k₁, halloc, hrest⟩ := bind_eq_ok.mp hrun
  by_cases hnull : ptr = 0
  · rw [if_pos hnull] at hrest
    cases hrest
  rw [if_neg hnull] at hrest
  by_cases hout : 4294967296 < current + sizeofArgument ∨ size < 4 * (i + 1)
  · rw [if_pos hout] at hrest
    cases hrest
  rw [if_neg hout] at hrest
  obtain ⟨_, k₂, hcopy, hrest⟩ := bind_eq_ok.mp hrest
  cases hcopy
  obtain ⟨_, k₃, hstore, hrest⟩ := bind_eq_ok.mp hrest
  cases hstore
  obtain ⟨next', k₄, hfollow, hdone⟩ := bind_eq_ok.mp hrest
  obtain ⟨rfl, rfl, _⟩ := followArgument_run hfollow
  cases hdone
  exact ⟨ptr, k₁, halloc, hnull, by omega, rfl, rfl⟩

theorem processInjectArgument_error {res : Int}
    (hrun : processInjectArgument p argv size current i k = .ok (.error res, k')) :
    res < 0 := by
  obtain ⟨ptr, k₁, halloc, hrest⟩ := bind_eq_ok.mp hrun
  by_cases hnull : ptr = 0
  · rw [if_pos hnull] at hrest
    cases hrest
    decide
  rw [if_neg hnull] at hrest
  by_cases hout : 4294967296 < current + sizeofArgument ∨ size < 4 * (i + 1)
  · rw [if_pos hout] at hrest
    cases hrest
  rw [if_neg hout] at hrest
  obtain ⟨_, k₂, hcopy, hrest⟩ := bind_eq_ok.mp hrest
  obtain ⟨_, k₃, hstore, hrest⟩ := bind_eq_ok.mp hrest
  obtain ⟨next', k₄, hfollow, hdone⟩ := bind_eq_ok.mp hrest
  cases hdone

/-- The loop at the end of the list. -/
theorem processInjectLoop_nil {res : Int} (hrun : processInjectLoop p argv size left 0 i k = .ok (res, k')) :
    res = 0 ∧ k' = k := by
  unfold processInjectLoop at hrun
  rw [if_pos rfl] at hrun
  cases hrun
  exact ⟨rfl, rfl⟩

/-- The loop at a node: it stops with an error, or a round is done and the rest of it follows. -/
theorem processInjectLoop_cons {res : Int} (hne : current ≠ 0)
    (hrun : processInjectLoop p argv size left current i k = .ok (res, k')) :
    res < 0 ∨ ∃ next k₁ left', processInjectArgument p argv size current i k = .ok (.ok next, k₁) ∧
      left = left' + 1 ∧ processInjectLoop p argv size left' next (i + 1) k₁ = .ok (res, k') := by
  unfold processInjectLoop at hrun
  rw [if_neg hne] at hrun
  obtain ⟨round, k₁, hround, hrest⟩ := bind_eq_ok.mp hrun
  cases round with
  | error code =>
      have hneg := processInjectArgument_error hround
      cases hrest
      exact Or.inl hneg
  | ok next =>
      cases left with
      | zero => cases hrest
      | succ left => exact Or.inr ⟨next, k₁, left, hround, rfl, hrest⟩

/-- The string of a node, as it is copied. -/
@[irreducible] def argumentAt (m : Mem) (n : Nat) : List (BitVec 8) := stringAt m n (sizeofArgument - 1)

theorem argumentAt_congr {m m' : Mem} {n n' : Nat} (h : ∀ j, j < sizeofArgument → m' (n + j) = m (n' + j)) :
    argumentAt m' n = argumentAt m n' := by
  unfold argumentAt
  exact stringAt_congr fun j hj => h j (by omega)

theorem length_argumentAt {m : Mem} {n : Nat} : (argumentAt m n).length ≤ sizeofArgument - 1 := by
  unfold argumentAt
  exact length_stringAt

theorem strncpy_argument {m : Mem} {dest src : Nat}
    (h : dest + sizeofArgument ≤ src ∨ src + sizeofArgument ≤ dest) :
    HoldsString (strncpy m dest src sizeofArgument) dest (argumentAt m src) := by
  have hcopy : ∀ count, sizeofArgument = count → HoldsString (strncpy m dest src count) dest (argumentAt m src) := by
    rintro count hcount
    have hread : argumentAt m src = stringAt m src (count - 1) := by
      unfold argumentAt
      rw [hcount]
    have hpos : 0 < sizeofArgument := by decide
    rw [hcount] at h hpos
    rw [hread]
    exact (strncpy_apart hpos h).1
  exact hcopy _ rfl

/-- The bytes of the nodes are in no free block, and beside the array. -/
def NodesApart (k : Kernel) (argv size : Nat) (nodes : List Nat) : Prop :=
  ∀ n ∈ nodes, ∀ a, n ≤ a → a < n + sizeofCommandArgument → k.heap.OutsideFree a ∧ (a < argv ∨ argv + size ≤ a)

/-- What a round leaves: a string in a block that was free, and its address in the array. -/
structure RoundDone (k k' : Kernel) (argv i ptr : Nat) (s : List (BitVec 8)) : Prop where
  clean : k'.heap.Clean
  outside : ∀ a, k.heap.OutsideFree a → k'.heap.OutsideFree a
  memory : ∀ a, k.heap.OutsideFree a → (a < argv + 4 * i ∨ argv + 4 * (i + 1) ≤ a) → k'.memory a = k.memory a
  pointer : load32 k'.memory (argv + 4 * i) = BitVec.ofNat 32 ptr
  small : ptr < 4294967296
  string : HoldsString k'.memory ptr s
  region : ∀ a, ptr ≤ a → a < ptr + sizeofArgument → k'.heap.OutsideFree a ∧ ¬ k.heap.OutsideFree a

/-- **One round.** -/
theorem processInjectArgument_done (hclean : k.heap.Clean) (hnodes : NodesApart k argv size [current])
    (hargv : ∀ a, argv ≤ a → a < argv + size → k.heap.OutsideFree a)
    (hrun : processInjectArgument p argv size current i k = .ok (.ok next, k')) :
    next = commandArgumentNext k.memory current ∧ 4 * (i + 1) ≤ size ∧
      ∃ ptr, RoundDone k k' argv i ptr (argumentAt k.memory current) := by
  obtain ⟨ptr, k₁, halloc, hne, hroom, hk', rfl⟩ := processInjectArgument_run hrun
  obtain ⟨slot, pages, _, _, hptr, hend, hk₁⟩ := processMalloc_granted halloc hne
  have hgranted := heapMalloc_granted hclean (by decide) hptr hne hend
  have hone : sizeofArgument = 512 := rfl
  have hnodeSize : sizeofCommandArgument = 516 := rfl
  have hfree : ∀ a, k.heap.OutsideFree a → a < ptr ∨ ptr + sizeofArgument ≤ a := fun a ha =>
    heapMalloc_one_free hclean (by decide) (by decide) hptr hne ha
  have hnode : ∀ a, current ≤ a → a < current + sizeofCommandArgument →
      k.heap.OutsideFree a ∧ (a < argv ∨ argv + size ≤ a) := hnodes current (List.mem_singleton.mpr rfl)
  -- the source is beside the new block
  have hapart : ptr + sizeofArgument ≤ current ∨ current + sizeofArgument ≤ ptr := by
    by_contra hover
    by_cases hlo : current ≤ ptr
    · have hin := hfree ptr (hnode ptr hlo (by omega)).1
      omega
    · have hin := hfree current (hnode current (Nat.le_refl _) (by omega)).1
      omega
  -- the block is cleared, the string is copied, and its address is stored
  have hcleared : ∀ a, a < ptr ∨ ptr + sizeofArgument ≤ a → k₁.memory a = k.memory a := by
    intro a ha
    rw [hk₁]
    exact if_neg (by omega)
  have hcopied := @strncpy_argument k₁.memory ptr current hapart
  rw [argumentAt_congr fun j hj => hcleared _ (by omega)] at hcopied
  have hframe := (@strncpy_apart k₁.memory ptr current sizeofArgument (by decide) hapart).2
  have hstored : k'.memory
      = store32 (strncpy k₁.memory ptr current sizeofArgument) (argv + 4 * i) (BitVec.ofNat 32 ptr) := by rw [hk']
  have hheap : k'.heap = (heapMalloc k.heap sizeofArgument).2 := by rw [hk', hk₁]
  have hmemory : ∀ a, k.heap.OutsideFree a → (a < argv + 4 * i ∨ argv + 4 * (i + 1) ≤ a) →
      k'.memory a = k.memory a := by
    intro a ha hbeside
    rw [hstored, store32_of_outside (by omega), hframe a (hfree a ha), hcleared a (hfree a ha)]
  refine ⟨?_, hroom, ptr, ?_⟩
  · refine congrArg BitVec.toNat (load32_congr fun j hj => ?_)
    have hbyte := hnode (current + sizeofArgument + j) (by omega) (by omega)
    exact hmemory _ hbyte.1 (by omega)
  rw [← hheap] at hgranted
  have hbeside :
      ∀ b, ptr ≤ b → b ≤ ptr + (argumentAt k.memory current).length → b < argv + 4 * i ∨ argv + 4 * i + 4 ≤ b := by
    intro b hlo hhi
    have hlen := @length_argumentAt k.memory current
    by_contra hin
    have hslot := hfree b (hargv b (by omega) (by omega))
    omega
  refine ⟨hgranted.clean, hgranted.outside, hmemory, ?_, by omega, ?_, fun a hlo hhi => ⟨(hgranted.region a hlo hhi).1, ?_⟩⟩
  · rw [hstored]
    exact load32_store32
  · rw [hstored]
    exact HoldsString.store32 hcopied hbeside
  · intro hin
    have hslot := hfree a hin
    omega

/-- What the loop leaves: the strings of the nodes, and the array that points to them. -/
structure ArgumentsCopied (k k' : Kernel) (argv i : Nat) (nodes : List Nat) : Prop where
  clean : k'.heap.Clean
  outside : ∀ a, k.heap.OutsideFree a → k'.heap.OutsideFree a
  memory : ∀ a, k.heap.OutsideFree a → (a < argv + 4 * i ∨ argv + 4 * (i + nodes.length) ≤ a) → k'.memory a = k.memory a
  strings : HoldsStrings k'.memory (argv + 4 * i) (nodes.map (argumentAt k.memory))

/-- The rest of the list is where it was. -/
theorem RoundDone.keeps {k₁ : Kernel} {s : List (BitVec 8)} {ptr : Nat} (h : RoundDone k k₁ argv i ptr s)
    (hpath : Path (commandArgumentNext k.memory) 0 next nodes) (hnodes : NodesApart k argv size nodes)
    (hargv : ∀ a, argv ≤ a → a < argv + size → k.heap.OutsideFree a) (hroom : 4 * (i + 1) ≤ size) :
    Path (commandArgumentNext k₁.memory) 0 next nodes ∧ NodesApart k₁ argv size nodes ∧
      ∀ a, argv ≤ a → a < argv + size → k₁.heap.OutsideFree a := by
  have hone : sizeofArgument = 512 := rfl
  have hnodeSize : sizeofCommandArgument = 516 := rfl
  refine ⟨?_, fun n hn a hlo hhi => ⟨h.outside a (hnodes n hn a hlo hhi).1, (hnodes n hn a hlo hhi).2⟩,
    fun a hlo hhi => h.outside a (hargv a hlo hhi)⟩
  refine hpath.congr fun n hn => congrArg BitVec.toNat (load32_congr fun j hj => ?_)
  obtain ⟨hout, hbeside⟩ := hnodes n hn (n + sizeofArgument + j) (by omega) (by omega)
  exact h.memory _ hout (by omega)

/-- The loop after its first round. -/
theorem RoundDone.copied {k₁ : Kernel} {n ptr : Nat} (h : RoundDone k k₁ argv i ptr (argumentAt k.memory n))
    (hargv : ∀ a, argv ≤ a → a < argv + size → k.heap.OutsideFree a)
    (hnodes : NodesApart k argv size nodes) (hroom : 4 * (i + 1 + nodes.length) ≤ size)
    (hrest : ArgumentsCopied k₁ k' argv (i + 1) nodes) : ArgumentsCopied k k' argv i (n :: nodes) := by
  have hone : sizeofArgument = 512 := rfl
  have hnodeSize : sizeofCommandArgument = 516 := rfl
  refine ⟨hrest.clean, fun a ha => hrest.outside a (h.outside a ha), fun a ha hbeside => ?_, ?_, ?_⟩
  · rw [List.length_cons] at hbeside
    rw [hrest.memory a (h.outside a ha) (by omega), h.memory a ha (by omega)]
  · -- the string of the first round and its address are still there
    have hpointer : load32 k'.memory (argv + 4 * i) = BitVec.ofNat 32 ptr := by
      rw [← h.pointer]
      refine load32_congr fun j hj => hrest.memory _ (h.outside _ (hargv _ (by omega) (by omega))) (by omega)
    show HoldsString k'.memory (load32 k'.memory (argv + 4 * i)).toNat (argumentAt k.memory n)
    rw [hpointer, BitVec.toNat_ofNat, Nat.mod_eq_of_lt h.small]
    have hlen := @length_argumentAt k.memory n
    refine HoldsString.congr_within h.string fun b hlo hhi => ?_
    obtain ⟨hout, hfree⟩ := h.region b hlo (by omega)
    refine hrest.memory b hout ?_
    by_contra hin
    exact hfree (hargv b (by omega) (by omega))
  · -- the other nodes are read as they were
    have hsame : nodes.map (argumentAt k.memory) = nodes.map (argumentAt k₁.memory) := by
      refine List.map_congr_left fun m hm => (argumentAt_congr fun j hj => ?_).symm
      obtain ⟨hout, hbeside⟩ := hnodes m hm (m + j) (by omega) (by omega)
      exact h.memory _ hout (by omega)
    have hnext : argv + 4 * i + 4 = argv + 4 * (i + 1) := by omega
    show HoldsStrings k'.memory (argv + 4 * i + 4) (nodes.map (argumentAt k.memory))
    rw [hsame, hnext]
    exact hrest.strings

/-- **The loop** copies the strings of a list that is not in free memory. The induction is on the nodes. -/
theorem processInjectLoop_run (hclean : k.heap.Clean) (hpath : Path (commandArgumentNext k.memory) 0 current nodes)
    (hnodes : NodesApart k argv size nodes) (hargv : ∀ a, argv ≤ a → a < argv + size → k.heap.OutsideFree a)
    (hrun : processInjectLoop p argv size left current i k = .ok (0, k')) :
    ArgumentsCopied k k' argv i nodes ∧ (nodes ≠ [] → 4 * (i + nodes.length) ≤ size) := by
  have hone : sizeofArgument = 512 := rfl
  have hnodeSize : sizeofCommandArgument = 516 := rfl
  induction nodes generalizing k current i left with
  | nil =>
      obtain rfl : current = 0 := hpath
      obtain ⟨-, rfl⟩ := processInjectLoop_nil hrun
      exact ⟨⟨hclean, fun _ ha => ha, fun _ _ _ => rfl, True.intro⟩, fun hne => absurd rfl hne⟩
  | cons n nodes ih =>
      obtain ⟨rfl, hne, hpath⟩ := hpath
      rcases processInjectLoop_cons hne hrun with hneg | ⟨next, k₁, left', hround, rfl, hrest⟩
      · exact absurd hneg (by decide)
      have hfirst : NodesApart k argv size [current] := fun m hm =>
        hnodes m (List.mem_singleton.mp hm ▸ List.mem_cons_self)
      have hothers : NodesApart k argv size nodes := fun m hm => hnodes m (List.mem_cons_of_mem _ hm)
      obtain ⟨rfl, hroom, ptr, hdone⟩ := processInjectArgument_done hclean hfirst hargv hround
      obtain ⟨hpath₁, hnodes₁, hargv₁⟩ := hdone.keeps hpath hothers hargv hroom
      obtain ⟨hcopied, hroom₁⟩ := ih hdone.clean hpath₁ hnodes₁ hargv₁ hrest
      have hroom₂ : 4 * (i + 1 + nodes.length) ≤ size := by
        cases nodes with
        | nil => exact hroom
        | cons => exact hroom₁ (List.cons_ne_nil _ _)
      refine ⟨hdone.copied hargv hothers hroom₂ hcopied, fun _ => ?_⟩
      rw [List.length_cons]
      omega

/-- A loop that gets through a round has an array. -/
theorem processInjectLoop_size (hne : current ≠ 0)
    (hrun : processInjectLoop p argv size left current i k = .ok (0, k')) :
    1 ≤ size := by
  rcases processInjectLoop_cons hne hrun with hneg | ⟨next, k₁, left', hround, -, -⟩
  · exact absurd hneg (by decide)
  · obtain ⟨_, _, _, _, hroom, _⟩ := processInjectArgument_run hround
    omega

/-- The result codes of the loop. -/
theorem processInjectLoop_le {res : Int} (hrun : processInjectLoop p argv size left current i k = .ok (res, k')) :
    res ≤ 0 := by
  induction left generalizing current i k with
  | zero =>
      by_cases hend : current = 0
      · subst hend
        exact Int.le_of_eq (processInjectLoop_nil hrun).1
      · rcases processInjectLoop_cons hend hrun with hneg | ⟨_, _, _, _, hleft, _⟩
        · exact Int.le_of_lt hneg
        · cases hleft
  | succ left ih =>
      by_cases hend : current = 0
      · subst hend
        exact Int.le_of_eq (processInjectLoop_nil hrun).1
      · rcases processInjectLoop_cons hend hrun with hneg | ⟨_, _, _, _, hleft, hrest⟩
        · exact Int.le_of_lt hneg
        · cases hleft
          exact ih hrest

theorem processInjectArguments_le {res : Int} (hrun : processInjectArguments p current k = .ok (res, k')) :
    res ≤ 0 := by
  obtain ⟨argc, k₁, _, hrest⟩ := bind_eq_ok.mp hrun
  by_cases hzero : argc = 0
  · rw [if_pos hzero] at hrest
    cases hrest
    decide
  rw [if_neg hzero] at hrest
  obtain ⟨argv, k₂, _, hrest⟩ := bind_eq_ok.mp hrest
  by_cases hnull : argv = 0
  · rw [if_pos hnull] at hrest
    cases hrest
    decide
  rw [if_neg hnull] at hrest
  obtain ⟨code, k₃, hloop, hdone⟩ := bind_eq_ok.mp hrest
  have hle := processInjectLoop_le hloop
  by_cases hneg : code < 0
  · rw [if_pos hneg] at hdone
    cases hdone
    exact hle
  · rw [if_neg hneg, bind_of_ok rfl] at hdone
    cases hdone
    exact hle

/-- The process has been given the strings. -/
structure Kernel.HasArguments (k : Kernel) (process : Nat) (arguments : List (List (BitVec 8))) : Prop where
  argc : (k.process process).argc = arguments.length
  argv : HoldsStrings k.memory (k.process process).argv arguments

/-- There is one list of strings that a process has been given. -/
theorem Kernel.HasArguments.unique {arguments arguments' : List (List (BitVec 8))} (h : k.HasArguments p arguments)
    (h' : k.HasArguments p arguments') : arguments = arguments' :=
  h.argv.unique h'.argv (h.argc.symm.trans h'.argc)

/-- The list is in memory that an allocation leaves alone. -/
def NodesSheltered (k : Kernel) (nodes : List Nat) : Prop :=
  ∀ n ∈ nodes, ∀ a, n ≤ a → a < n + sizeofCommandArgument → InShelter k.heap.taken a

/-- The array is there, and the list is as it was. -/
structure ArrayReady (k k₁ : Kernel) (argv size current : Nat) (nodes : List Nat) : Prop where
  clean : k₁.heap.Clean
  path : Path (commandArgumentNext k₁.memory) 0 current nodes
  apart : NodesApart k₁ argv size nodes
  array : ∀ a, argv ≤ a → a < argv + size → k₁.heap.OutsideFree a
  strings : nodes.map (argumentAt k.memory) = nodes.map (argumentAt k₁.memory)

theorem Heap.Clean.array {k₁ : Kernel} (hclean : k.heap.Clean)
    (hpath : Path (commandArgumentNext k.memory) 0 current nodes) (hnodes : NodesSheltered k nodes) (hpos : 1 ≤ size)
    (halloc : processMalloc p size k = .ok (argv, k₁)) (hne : argv ≠ 0) : ArrayReady k k₁ argv size current nodes := by
  have hone : sizeofArgument = 512 := rfl
  have hnodeSize : sizeofCommandArgument = 516 := rfl
  obtain ⟨slot, pages, _, _, hptr, hend, hk₁⟩ := processMalloc_granted halloc hne
  have hgranted := heapMalloc_granted hclean hpos hptr hne hend
  have hheap : k₁.heap = (heapMalloc k.heap size).2 := by rw [hk₁]
  rw [← hheap] at hgranted
  have hbeside : ∀ n ∈ nodes, ∀ a, n ≤ a → a < n + sizeofCommandArgument → a < argv ∨ argv + size ≤ a := by
    intro n hn a hlo hhi
    by_contra hin
    exact (hgranted.region a (by omega) (by omega)).2 (hnodes n hn a hlo hhi)
  have hmemory : ∀ n ∈ nodes, ∀ a, n ≤ a → a < n + sizeofCommandArgument → k₁.memory a = k.memory a := by
    intro n hn a hlo hhi
    have hout := hbeside n hn a hlo hhi
    rw [hk₁]
    exact if_neg (by omega)
  refine ⟨hgranted.clean, ?_, fun n hn a hlo hhi => ?_, fun a hlo hhi => (hgranted.region a hlo hhi).1, ?_⟩
  · refine hpath.congr fun n hn => congrArg BitVec.toNat (load32_congr fun j hj => ?_)
    exact hmemory n hn _ (by omega) (by omega)
  · exact ⟨hgranted.outside a (hnodes n hn a hlo hhi).outsideFree, hbeside n hn a hlo hhi⟩
  · refine List.map_congr_left fun n hn => (argumentAt_congr fun j hj => ?_).symm
    exact hmemory n hn _ (by omega) (by omega)

/-- **`process_inject_arguments`** hands over the strings of a list that is not in free memory. -/
theorem processInjectArguments_run (hclean : k.heap.Clean) (hpath : Path (commandArgumentNext k.memory) 0 current nodes)
    (hnodes : NodesSheltered k nodes) (hrun : processInjectArguments p current k = .ok (0, k')) :
    k'.HasArguments p (nodes.map (argumentAt k.memory)) := by
  obtain ⟨argc, k₁, hcount, hrest⟩ := bind_eq_ok.mp hrun
  obtain ⟨rfl, nodes', hpath', hargc⟩ := processCountLoop_run hcount
  obtain rfl := hpath'.unique hpath
  rw [Nat.zero_add] at hargc
  subst hargc
  by_cases hzero : nodes'.length = 0
  · rw [if_pos hzero] at hrest
    cases hrest
  rw [if_neg hzero] at hrest
  obtain ⟨argv, k₂, halloc, hrest⟩ := bind_eq_ok.mp hrest
  by_cases hnull : argv = 0
  · rw [if_pos hnull] at hrest
    cases hrest
  rw [if_neg hnull] at hrest
  obtain ⟨res, k₃, hloop, hdone⟩ := bind_eq_ok.mp hrest
  by_cases hneg : res < 0
  · rw [if_pos hneg] at hdone
    cases hdone
    exact absurd hneg (by decide)
  rw [if_neg hneg, bind_of_ok rfl] at hdone
  obtain ⟨rfl, rfl⟩ := Prod.mk.inj (Except.ok.inj hdone)
  generalize hsize : u32 (4 * nodes'.length : Nat) = size at halloc hloop
  have hpos : 1 ≤ size := by
    rcases nodes' with _ | ⟨n, nodes'⟩
    · exact absurd rfl hzero
    · exact processInjectLoop_size (hpath.1 ▸ hpath.2.1) hloop
  have harray := hclean.array hpath hnodes hpos halloc hnull
  obtain ⟨hcopied, _⟩ := processInjectLoop_run harray.clean harray.path harray.apart harray.array hloop
  rw [harray.strings]
  refine ⟨?_, ?_⟩
  · show (Function.update k₃.process p _ p).argc = _
    rw [Function.update_self, List.length_map]
  · show HoldsStrings k₃.memory (Function.update k₃.process p _ p).argv _
    rw [Function.update_self]
    exact hcopied.strings

end Inject

/-! ## When the copy goes through -/

section Progress

variable {k : Kernel} {p argv size current i left c : Nat} {nodes : List Nat}

/-- The first `c` slots of the table are taken, and no others. -/
structure SlotsUsed (process : Process) (c : Nat) : Prop where
  used : ∀ j, j < c → (process.allocations j).ptr ≠ 0
  free : ∀ j, c ≤ j → (process.allocations j).ptr = 0

theorem SlotsUsed.index {process : Process} (h : SlotsUsed process c) (hc : c < bimbleosMaxProgramAllocations) :
    processFindFreeAllocationIndex process = (c : Nat) := by
  have hfind : (List.range bimbleosMaxProgramAllocations).find? (fun i => decide ((process.allocations i).ptr = 0))
      = some c := by
    refine List.find?_range_eq_some.mpr ⟨decide_eq_true (h.free c (Nat.le_refl c)), List.mem_range.mpr hc, fun j hj => ?_⟩
    simpa using h.used j hj
  unfold processFindFreeAllocationIndex
  rw [hfind]

/-- What a process needs to be granted `n` more blocks. -/
structure CanAllocate (k : Kernel) (p c n : Nat) : Prop where
  clean : k.heap.Clean
  task : (k.process p).task ≠ 0
  slots : SlotsUsed (k.process p) c
  room : c + n ≤ bimbleosMaxProgramAllocations
  blocks : n ≤ k.heap.freeBlocks

theorem CanAllocate.malloc {n : Nat} (h : CanAllocate k p c (n + 1)) (h₁ : 1 ≤ size) (h₂ : size ≤ 4096) :
    ∃ ptr k₁, processMalloc p size k = .ok (ptr, k₁) ∧ ptr ≠ 0 ∧ CanAllocate k₁ p (c + 1) n := by
  have hroom := h.room
  have hblocks := h.blocks
  obtain ⟨s, hs, _, hcount, hrun⟩ := processMalloc_one h.clean.ready h₁ h₂ (by omega) h.task (h.slots.index (by omega))
  have hne : runAddress ⟨s, 1⟩ ≠ 0 := by
    have hptr : runAddress ⟨s, 1⟩ = 16777216 + 4096 * s := rfl
    omega
  obtain ⟨_, _, _, _, hptr, hend, hk₁⟩ := processMalloc_granted hrun hne
  have hclean := (heapMalloc_granted h.clean h₁ hptr hne hend).clean
  have hheap : (heapMalloc k.heap size).2 = heapMarkBlocksTaken k.heap s 1 := by
    have hsame := congrArg Kernel.heap hk₁
    exact hsame.symm
  rw [hheap] at hclean
  have hself : (k.afterMalloc p size ⟨s, 1⟩ c (fill k.memory (runAddress ⟨s, 1⟩) size 0)).process p
      = { k.process p with
          allocations := Function.update (k.process p).allocations c ⟨runAddress ⟨s, 1⟩, size⟩ } := Function.update_self ..
  refine ⟨_, _, hrun, hne, hclean, ?_, ?_, by omega, ?_⟩
  · rw [hself]
    exact h.task
  · rw [hself]
    refine ⟨fun j hj => ?_, fun j hj => ?_⟩
    · by_cases hjc : j = c
      · subst hjc
        show (Function.update (k.process p).allocations j _ j).ptr ≠ 0
        rw [Function.update_self]
        exact hne
      · show (Function.update (k.process p).allocations c _ j).ptr ≠ 0
        rw [Function.update_of_ne hjc]
        exact h.slots.used j (by omega)
    · show (Function.update (k.process p).allocations c _ j).ptr = 0
      rw [Function.update_of_ne (by omega)]
      exact h.slots.free j (by omega)
  · show n ≤ (heapMarkBlocksTaken k.heap s 1).freeBlocks
    omega

theorem CanAllocate.round {n : Nat} (h : CanAllocate k p c (n + 1)) (hroom : 4 * (i + 1) ≤ size)
    (hfit : current + sizeofCommandArgument ≤ 4294967296) : ∃ next k₁,
      processInjectArgument p argv size current i k = .ok (.ok next, k₁) ∧ CanAllocate k₁ p (c + 1) n := by
  have hone : sizeofArgument = 512 := rfl
  have hnodeSize : sizeofCommandArgument = 516 := rfl
  obtain ⟨ptr, k₁, hrun, hne, hcan⟩ := h.malloc (show 1 ≤ sizeofArgument by omega) (by omega)
  have hin : ¬ (4294967296 < current + sizeofArgument ∨ size < 4 * (i + 1)) := by omega
  obtain ⟨k₂, hk₂⟩ : ∃ k₂, k₂ = { k₁ with
      memory := store32 (strncpy k₁.memory ptr current sizeofArgument) (argv + 4 * i) (BitVec.ofNat 32 ptr) } := ⟨_, rfl⟩
  have hcan₂ : CanAllocate k₂ p (c + 1) n := by
    rw [hk₂]
    exact ⟨hcan.clean, hcan.task, hcan.slots, hcan.room, hcan.blocks⟩
  refine ⟨commandArgumentNext k₂.memory current, k₂, ?_, hcan₂⟩
  unfold processInjectArgument
  rw [bind_of_ok hrun, if_neg hne, if_neg hin, modify_bind, modify_bind, ← hk₂, bind_of_ok (followArgument_of_fit hfit)]
  rfl

/-- The loop gets to the end of the list. The induction is on the nodes. -/
theorem processInjectLoop_goes (hcan : CanAllocate k p c nodes.length)
    (hpath : Path (commandArgumentNext k.memory) 0 current nodes) (hnodes : NodesApart k argv size nodes)
    (hfit : ∀ n ∈ nodes, n + sizeofCommandArgument ≤ 4294967296)
    (hargv : ∀ a, argv ≤ a → a < argv + size → k.heap.OutsideFree a) (hroom : 4 * (i + nodes.length) ≤ size)
    (hleft : nodes.length ≤ left) :
    ∃ k', processInjectLoop p argv size left current i k = .ok (0, k') ∧ (k'.process p).task ≠ 0 := by
  have hone : sizeofArgument = 512 := rfl
  have hnodeSize : sizeofCommandArgument = 516 := rfl
  induction nodes generalizing k current i left c with
  | nil =>
      obtain rfl : current = 0 := hpath
      unfold processInjectLoop
      rw [if_pos rfl]
      exact ⟨k, rfl, hcan.task⟩
  | cons n nodes ih =>
      obtain ⟨rfl, hne, hpath⟩ := hpath
      rw [List.length_cons] at hroom hleft
      obtain ⟨left, rfl⟩ := Nat.exists_eq_succ_of_ne_zero (Nat.ne_of_gt (Nat.lt_of_lt_of_le (Nat.succ_pos _) hleft))
      obtain ⟨next, k₁, hround, hcan₁⟩ := @CanAllocate.round k p argv size current i c _ hcan (by omega)
        (hfit current List.mem_cons_self)
      have hfirst : NodesApart k argv size [current] := fun m hm =>
        hnodes m (List.mem_singleton.mp hm ▸ List.mem_cons_self)
      have hothers : NodesApart k argv size nodes := fun m hm => hnodes m (List.mem_cons_of_mem _ hm)
      obtain ⟨rfl, _, ptr, hdone⟩ := processInjectArgument_done hcan.clean hfirst hargv hround
      obtain ⟨hpath₁, hnodes₁, hargv₁⟩ := hdone.keeps hpath hothers hargv (by omega)
      have hfit₁ : ∀ n ∈ nodes, n + sizeofCommandArgument ≤ 4294967296 := fun m hm => hfit m (List.mem_cons_of_mem _ hm)
      obtain ⟨k', hrun, htask⟩ :=
        @ih k₁ (commandArgumentNext k.memory current) (i + 1) left _ hcan₁ hpath₁ hnodes₁ hfit₁ hargv₁
        (by omega) (by omega)
      refine ⟨k', ?_, htask⟩
      unfold processInjectLoop
      rw [if_neg hne, bind_of_ok hround]
      exact hrun

/-- The nodes of a list are counted. -/
theorem processCountCommandArguments_length (hpath : Path (commandArgumentNext k.memory) 0 current nodes)
    (hfit : ∀ n ∈ nodes, n + sizeofCommandArgument ≤ 4294967296) (hlen : nodes.length ≤ 1024) :
    processCountCommandArguments current k = .ok (nodes.length, k) ∧ u32
    (4 * nodes.length : Nat) = 4 * nodes.length := by
  have hcount : processCountCommandArguments current k = .ok (0 + nodes.length, k) :=
    processCountLoop_of_path hpath hfit (by unfold intMax; omega)
  rw [Nat.zero_add] at hcount
  exact ⟨hcount, u32_of_lt (by omega)⟩

/-- **`process_inject_arguments` succeeds** when the process has the slots and the heap the blocks. -/
theorem processInjectArguments_goes (hcan : CanAllocate k p c (nodes.length + 1))
    (hpath : Path (commandArgumentNext k.memory) 0 current nodes) (hnodes : NodesSheltered k nodes)
    (hfit : ∀ n ∈ nodes, n + sizeofCommandArgument ≤ 4294967296) (hne : nodes ≠ []) :
    ∃ k', processInjectArguments p current k = .ok (0, k') ∧ (k'.process p).task ≠ 0 := by
  have hroom := hcan.room
  have hslots : bimbleosMaxProgramAllocations = 1024 := rfl
  have hlength : 0 < nodes.length := List.length_pos_of_ne_nil hne
  obtain ⟨hcount, hsize⟩ := processCountCommandArguments_length hpath hfit (by omega)
  obtain ⟨argv, k₁, halloc, hnull, hcan₁⟩ := hcan.malloc (show 1 ≤ 4 * nodes.length by omega) (by omega)
  have harray := hcan.clean.array hpath hnodes (by omega) halloc hnull
  obtain ⟨k₂, hloop, htask⟩ := @processInjectLoop_goes k₁ p argv (4 * nodes.length) current 0 intMax (c + 1) nodes hcan₁
    harray.path harray.apart hfit harray.array (by omega) (by unfold intMax; omega)
  have hself : (k₂.setProcess p { k₂.process p with argc := nodes.length, argv := argv }).process p
      = { k₂.process p with argc := nodes.length, argv := argv } := Function.update_self ..
  refine ⟨k₂.setProcess p { k₂.process p with argc := nodes.length, argv := argv }, ?_, by rw [hself]; exact htask⟩
  unfold processInjectArguments
  rw [bind_of_ok hcount, if_neg (Nat.ne_of_gt hlength)]
  simp only [hsize]
  rw [bind_of_ok halloc, if_neg hnull, bind_of_ok hloop, if_neg (by decide)]
  rfl

/-- Without a free block there is no array. -/
theorem processInjectArguments_noRoom (hready : k.heap.Ready) (hfull : k.heap.freeBlocks = 0)
    (hpath : Path (commandArgumentNext k.memory) 0 current nodes)
    (hfit : ∀ n ∈ nodes, n + sizeofCommandArgument ≤ 4294967296) (hne : nodes ≠ []) (hlen : nodes.length ≤ 1024) :
    processInjectArguments p current k = .ok (-ENOMEM, k) := by
  have hlength : 0 < nodes.length := List.length_pos_of_ne_nil hne
  obtain ⟨hcount, hsize⟩ := processCountCommandArguments_length hpath hfit (by omega)
  have halloc : processMalloc p (4 * nodes.length) k = .ok (0, k) := by
    rcases kzalloc_one (4 * nodes.length) hready (by omega) (by omega) with ⟨hnone, _⟩ | ⟨_, _, _, _, _, hcount⟩
    · unfold processMalloc
      rw [bind_of_ok hnone, if_pos rfl]
      rfl
    · omega
  unfold processInjectArguments
  rw [bind_of_ok hcount, if_neg (Nat.ne_of_gt hlength)]
  simp only [hsize]
  rw [bind_of_ok halloc, if_pos rfl]
  rfl

end Progress

end BimbleOS
