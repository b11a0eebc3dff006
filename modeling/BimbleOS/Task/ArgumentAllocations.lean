import BimbleOS.Task.ArgumentRuns

/-!
# `Task.ArgumentAllocations` — whose memory the arguments of a process are in

`process_inject_arguments` allocates the array and one block for each string. The array and the blocks are
allocations of the process, all at different addresses, and stay so while the rest of the list is copied. A call
that fails leaves `argc` and `argv` as they were.
-/

namespace BimbleOS

open Bytes CWord Exec Links Window

/-! ## Allocations of the process -/

/-- The memory at `ptr` is in a slot of the process, and in no free block. -/
structure LiveAllocation (k : Kernel) (p ptr size : Nat) : Prop where
  ne : ptr ≠ 0
  slot : ∃ i, i < bimbleosMaxProgramAllocations ∧ (k.process p).allocations i = ⟨ptr, size⟩
  memory : ∀ a, ptr ≤ a → a < ptr + size → k.heap.OutsideFree a

/-- The pointer in element `i` of the array at `argv`. -/
def argvPointer (m : Mem) (argv i : Nat) : Nat := (load32 m (argv + 4 * i)).toNat

section Live

variable {k k' : Kernel} {p argv size current i left next ptr : Nat} {nodes : List Nat}

/-- What is granted is an allocation of the process, and the others stay. -/
theorem processMalloc_live (hclean : k.heap.Clean) (h₁ : 1 ≤ size) (hrun : processMalloc p size k = .ok (ptr, k'))
    (hne : ptr ≠ 0) : LiveAllocation k' p ptr size ∧
      ∀ q n, LiveAllocation k p q n → LiveAllocation k' p q n := by
  obtain ⟨i, pages, hi, hempty, hptr, hend, rfl⟩ := processMalloc_granted hrun hne
  have hgranted := heapMalloc_granted hclean h₁ hptr hne hend
  constructor
  · refine ⟨hne, ⟨i, hi, ?_⟩, ?_⟩
    · simp only [Function.update_self]
    · intro a hlo hhi
      exact (hgranted.region a hlo hhi).1
  · intro q n hlive
    obtain ⟨j, hj, hslot⟩ := hlive.slot
    have hji : j ≠ i := by
      rintro rfl
      rw [hslot] at hempty
      exact hlive.ne hempty
    refine ⟨hlive.ne, ⟨j, hj, ?_⟩, ?_⟩
    · simp only [Function.update_self, Function.update_of_ne hji]
      exact hslot
    · intro a hlo hhi
      exact hgranted.outside a (hlive.memory a hlo hhi)

/-- What a round does to the allocations. -/
theorem processInjectArgument_live (hclean : k.heap.Clean)
    (hrun : processInjectArgument p argv size current i k = .ok (.ok next, k')) :
    LiveAllocation k' p (argvPointer k'.memory argv i) sizeofArgument ∧
      ∀ q n, LiveAllocation k p q n → LiveAllocation k' p q n := by
  obtain ⟨ptr, k₁, halloc, hne, _, rfl, _⟩ := processInjectArgument_run hrun
  obtain ⟨_, _, _, _, _, hend, _⟩ := processMalloc_granted halloc hne
  have hone : sizeofArgument = 512 := rfl
  obtain ⟨hlive, hkept⟩ := processMalloc_live hclean (by omega) halloc hne
  have hpointer : argvPointer (store32 (strncpy k₁.memory ptr current sizeofArgument) (argv + 4 * i)
      (BitVec.ofNat 32 ptr)) argv i = ptr := by
    unfold argvPointer
    rw [load32_store32, BitVec.toNat_ofNat, Nat.mod_eq_of_lt (by omega)]
  constructor
  · rw [hpointer]
    exact ⟨hlive.ne, hlive.slot, hlive.memory⟩
  · intro q n hq
    have hq₁ := hkept q n hq
    exact ⟨hq₁.ne, hq₁.slot, hq₁.memory⟩

/-- What the loop has put into the array from element `i` on: `n` blocks that were free, all different. -/
structure PointersGiven (k k' : Kernel) (p argv i n : Nat) : Prop where
  kept : ∀ q m, LiveAllocation k p q m → LiveAllocation k' p q m
  live : ∀ j, j < n → LiveAllocation k' p (argvPointer k'.memory argv (i + j)) sizeofArgument
  fresh : ∀ j, j < n → ¬ k.heap.OutsideFree (argvPointer k'.memory argv (i + j))
  distinct : ∀ j j', j < j' → j' < n →
    argvPointer k'.memory argv (i + j) ≠ argvPointer k'.memory argv (i + j')

/-- **The blocks of the strings.** The induction is on the nodes; a block that was handed out is not free in the
    later rounds, so that it is not handed out again. -/
theorem processInjectLoop_pointers (hclean : k.heap.Clean)
    (hpath : Path (commandArgumentNext k.memory) 0 current nodes) (hnodes : NodesApart k argv size nodes)
    (hargv : ∀ a, argv ≤ a → a < argv + size → k.heap.OutsideFree a)
    (hrun : processInjectLoop p argv size left current i k = .ok (0, k')) :
    PointersGiven k k' p argv i nodes.length := by
  induction nodes generalizing k current i left with
  | nil =>
      obtain rfl : current = 0 := hpath
      obtain ⟨-, rfl⟩ := processInjectLoop_nil hrun
      refine ⟨fun _ _ hq => hq, ?_, ?_, ?_⟩
      · intro j hj
        exact absurd hj (Nat.not_lt_zero j)
      · intro j hj
        exact absurd hj (Nat.not_lt_zero j)
      · intro j j' _ hj'
        exact absurd hj' (Nat.not_lt_zero j')
  | cons n nodes ih =>
      obtain ⟨rfl, hne, hpath⟩ := hpath
      rcases processInjectLoop_cons hne hrun with hneg | ⟨next, k₁, left', hround, rfl, hrest⟩
      · exact absurd hneg (by decide)
      have hfirst : NodesApart k argv size [current] := fun m hm =>
        hnodes m (List.mem_singleton.mp hm ▸ List.mem_cons_self)
      have hothers : NodesApart k argv size nodes := fun m hm => hnodes m (List.mem_cons_of_mem _ hm)
      obtain ⟨hlive, hkept⟩ := processInjectArgument_live hclean hround
      obtain ⟨rfl, hroom, ptr, hdone⟩ := processInjectArgument_done hclean hfirst hargv hround
      obtain ⟨hpath₁, hnodes₁, hargv₁⟩ := hdone.keeps hpath hothers hargv hroom
      have hcopied := (processInjectLoop_run hdone.clean hpath₁ hnodes₁ hargv₁ hrest).1
      have hgiven := ih hdone.clean hpath₁ hnodes₁ hargv₁ hrest
      have hone : sizeofArgument = 512 := rfl
      have hptr : argvPointer k₁.memory argv i = ptr := by
        unfold argvPointer
        rw [hdone.pointer, BitVec.toNat_ofNat, Nat.mod_eq_of_lt hdone.small]
      -- the element of this round is not written again
      have hstays : argvPointer k'.memory argv i = ptr := by
        rw [← hptr]
        unfold argvPointer
        congr 1
        apply load32_congr
        intro j hj
        exact hcopied.memory _ (hdone.outside _ (hargv _ (by omega) (by omega))) (by omega)
      have hlater : ∀ j, i + (j + 1) = i + 1 + j := fun j => by omega
      obtain ⟨houtside, hfree⟩ := hdone.region ptr (Nat.le_refl ptr) (by omega)
      rw [List.length_cons]
      refine ⟨fun q m hq => hgiven.kept q m (hkept q m hq), ?_, ?_, ?_⟩
      · intro j hj
        cases j with
        | zero =>
            rw [Nat.add_zero, hstays, ← hptr]
            exact hgiven.kept _ _ hlive
        | succ j =>
            rw [hlater j]
            exact hgiven.live j (by omega)
      · intro j hj
        cases j with
        | zero =>
            rw [Nat.add_zero, hstays]
            exact hfree
        | succ j =>
            rw [hlater j]
            intro hin
            exact hgiven.fresh j (by omega) (hdone.outside _ hin)
      · intro j j' hlt hj'
        obtain ⟨j', rfl⟩ :=
          Nat.exists_eq_succ_of_ne_zero (Nat.ne_of_gt (Nat.lt_of_le_of_lt (Nat.zero_le j) hlt))
        cases j with
        | zero =>
            rw [Nat.add_zero, hstays, Nat.succ_eq_add_one, hlater j']
            intro heq
            exact hgiven.fresh j' (by omega) (heq ▸ houtside)
        | succ j =>
            rw [Nat.succ_eq_add_one, hlater j, hlater j']
            exact hgiven.distinct j j' (by omega) (by omega)

end Live

/-! ## A call that fails -/

/-- The arguments that the process has are `argc` strings at `argv`. -/
def ArgumentsAre (p argc argv : Nat) (k : Kernel) : Prop := (k.process p).argc = argc ∧ (k.process p).argv = argv

section Fails

variable {k k' : Kernel} {p q argc argv size current i left : Nat}

theorem kzalloc_arguments : Triple (ArgumentsAre p argc argv) (kzalloc size) fun _ => ArgumentsAre p argc argv := by
  intro k ptr k' hk hrun
  obtain ⟨_, memory, rfl⟩ := kzalloc_run hrun
  exact hk

theorem kfree_arguments {ptr : Nat} : Triple (ArgumentsAre p argc argv) (kfree ptr) fun _ => ArgumentsAre p argc argv :=
  Triple.modify fun _ hk => hk

theorem processMalloc_arguments :
    Triple (ArgumentsAre p argc argv) (processMalloc p size) fun _ => ArgumentsAre p argc argv := by
  refine Triple.bind kzalloc_arguments fun ptr => ?_
  refine Triple.ite (fun _ => Triple.pure fun _ hk => hk) fun _ => ?_
  refine Triple.get_bind fun k hk => ?_
  have hback : Triple (ArgumentsAre p argc argv) (kfree ptr >>= fun _ => pure 0 : KM Nat)
      fun _ => ArgumentsAre p argc argv :=
    Triple.bind kfree_arguments fun _ => Triple.pure fun _ hk => hk
  refine Triple.pre (fun k' hk' => (hk' ▸ hk : ArgumentsAre p argc argv k')) ?_
  refine Triple.ite (fun _ => hback) fun _ => ?_
  refine Triple.bind (R := fun _ => ArgumentsAre p argc argv) ?_ fun d => ?_
  · intro k₁ d k₂ hk₁ hrun
    rw [processPageDirectory_eq] at hrun
    split at hrun
    · cases hrun
    · cases hrun
      exact hk₁
  refine Triple.bind (R := fun _ => ArgumentsAre p argc argv) ?_ fun res => ?_
  · intro k₁ res k₂ hk₁ hrun
    rw [kernelMapTo_eq] at hrun
    cases hrun
    exact hk₁
  refine Triple.ite (fun _ => hback) fun _ => ?_
  refine Triple.bind (R := fun _ => ArgumentsAre p argc argv) (Triple.modify fun k₁ hk₁ => ?_) fun _ =>
    Triple.pure fun _ hk => hk
  unfold ArgumentsAre
  simp only [Function.update_self]
  exact hk₁

theorem followArgument_arguments :
    Triple (ArgumentsAre p argc argv) (followArgument current) fun _ => ArgumentsAre p argc argv := by
  intro k next k' hk hrun
  obtain ⟨rfl, _⟩ := followArgument_run hrun
  exact hk

theorem processInjectArgument_arguments :
    Triple (ArgumentsAre p argc argv) (processInjectArgument p q size current i) fun _ => ArgumentsAre p argc argv := by
  refine Triple.bind processMalloc_arguments fun ptr => ?_
  refine Triple.ite (fun _ => Triple.pure fun _ hk => hk) fun _ => ?_
  refine Triple.ite (fun _ => Triple.throw) fun _ => ?_
  refine Triple.bind (R := fun _ => ArgumentsAre p argc argv) (Triple.modify fun _ hk => hk) fun _ => ?_
  refine Triple.bind (R := fun _ => ArgumentsAre p argc argv) (Triple.modify fun _ hk => hk) fun _ => ?_
  exact Triple.bind followArgument_arguments fun _ => Triple.pure fun _ hk => hk

/-- Copying the strings changes neither `argc` nor `argv`. -/
theorem processInjectLoop_arguments :
    Triple (ArgumentsAre p argc argv) (processInjectLoop p q size left current i) fun _ => ArgumentsAre p argc argv := by
  induction left generalizing current i with
  | zero =>
      unfold processInjectLoop
      refine Triple.ite (fun _ => Triple.pure fun _ hk => hk) fun _ => ?_
      refine Triple.bind processInjectArgument_arguments fun round => ?_
      cases round with
      | error res => exact Triple.pure fun _ hk => hk
      | ok next => exact Triple.throw
  | succ left ih =>
      unfold processInjectLoop
      refine Triple.ite (fun _ => Triple.pure fun _ hk => hk) fun _ => ?_
      refine Triple.bind processInjectArgument_arguments fun round => ?_
      cases round with
      | error res => exact Triple.pure fun _ hk => hk
      | ok next => exact ih

end Fails

/-! ## The whole call -/

/-- What a call that returns 0 has given to the process: an array of its own with a block of its own for each
    string of the list. -/
structure ArgumentsGiven (k k' : Kernel) (p : Nat) (nodes : List Nat) : Prop where
  nonempty : 1 ≤ nodes.length
  argc : (k'.process p).argc = nodes.length
  strings : ∀ i (hi : i < nodes.length),
    HoldsString k'.memory (argvPointer k'.memory (k'.process p).argv i) (argumentAt k.memory nodes[i])
  array : LiveAllocation k' p (k'.process p).argv (4 * nodes.length)
  blocks : ∀ i, i < nodes.length →
    LiveAllocation k' p (argvPointer k'.memory (k'.process p).argv i) sizeofArgument
  arrayApart : ∀ i, i < nodes.length → argvPointer k'.memory (k'.process p).argv i ≠ (k'.process p).argv
  distinct : ∀ i j, i < j → j < nodes.length →
    argvPointer k'.memory (k'.process p).argv i ≠ argvPointer k'.memory (k'.process p).argv j

section Spec

variable {k k' : Kernel} {p root : Nat} {res : Int} {nodes : List Nat}

theorem HoldsStrings.get {m : Mem} {argv : Nat} {ss : List (List (BitVec 8))} (h : HoldsStrings m argv ss) :
    ∀ i (hi : i < ss.length), HoldsString m (argvPointer m argv i) ss[i] := by
  induction ss generalizing argv with
  | nil =>
      intro i hi
      exact absurd hi (Nat.not_lt_zero i)
  | cons s ss ih =>
      intro i hi
      cases i with
      | zero => exact h.1
      | succ i =>
          have hrest := ih h.2 i (Nat.lt_of_succ_lt_succ hi)
          have haddr : argvPointer m (argv + 4) i = argvPointer m argv (i + 1) := by
            unfold argvPointer
            rw [show argv + 4 + 4 * i = argv + 4 * (i + 1) by omega]
          rwa [haddr] at hrest

/-- What the loop leaves, once `argc` and `argv` are set. -/
theorem ArgumentsGiven.of_loop {k₂ k₃ : Kernel} {argv : Nat} (hne : 1 ≤ nodes.length)
    (hstrings : HoldsStrings k₃.memory (argv + 4 * 0) (nodes.map (argumentAt k.memory)))
    (hlive : LiveAllocation k₃ p argv (4 * nodes.length)) (hgiven : PointersGiven k₂ k₃ p argv 0 nodes.length)
    (harray : ∀ a, argv ≤ a → a < argv + 4 * nodes.length → k₂.heap.OutsideFree a) :
    ArgumentsGiven k { k₃ with
      process := Function.update k₃.process p { k₃.process p with argc := nodes.length, argv := argv } } p nodes := by
  have hself : (Function.update k₃.process p { k₃.process p with argc := nodes.length, argv := argv }) p
      = { k₃.process p with argc := nodes.length, argv := argv } := Function.update_self ..
  have hstays : ∀ q m, LiveAllocation k₃ p q m → LiveAllocation { k₃ with
      process := Function.update k₃.process p { k₃.process p with argc := nodes.length, argv := argv } } p q m := by
    intro q m hq
    refine ⟨hq.ne, ?_, hq.memory⟩
    simp only [hself]
    exact hq.slot
  refine ⟨hne, ?_, ?_, ?_, ?_, ?_, ?_⟩
  · simp only [hself]
  · intro i hi
    have hstring := HoldsStrings.get hstrings i (by rw [List.length_map]; exact hi)
    rw [List.getElem_map] at hstring
    simp only [hself]
    exact hstring
  · simp only [hself]
    exact hstays _ _ hlive
  · intro i hi
    simp only [hself]
    have hblock := hstays _ _ (hgiven.live i hi)
    rwa [Nat.zero_add] at hblock
  · intro i hi
    simp only [hself]
    intro heq
    -- the array is in no free block when the strings get theirs
    have hfresh := hgiven.fresh i hi
    rw [Nat.zero_add, heq] at hfresh
    exact hfresh (harray argv (Nat.le_refl argv) (by omega))
  · intro i j hij hj
    simp only [hself]
    have hdistinct := hgiven.distinct i j hij hj
    rwa [Nat.zero_add, Nat.zero_add] at hdistinct

/-- **`process_inject_arguments`** gives the process the strings of the list in memory of its own, or leaves its
    arguments as they were. -/
theorem processInjectArguments_spec (hclean : k.heap.Clean) (hpath : Path (commandArgumentNext k.memory) 0 root nodes)
    (hnodes : NodesSheltered k nodes) (hrun : processInjectArguments p root k = .ok (res, k')) :
    (res = 0 → ArgumentsGiven k k' p nodes) ∧
      (res ≠ 0 → (k'.process p).argc = (k.process p).argc ∧ (k'.process p).argv = (k.process p).argv) := by
  obtain ⟨argc, k₁, hcount, hrest⟩ := bind_eq_ok.mp hrun
  obtain ⟨rfl, nodes', hpath', hargc⟩ := processCountLoop_run hcount
  obtain rfl := hpath'.unique hpath
  rw [Nat.zero_add] at hargc
  subst hargc
  have hsame : ArgumentsAre p (k₁.process p).argc (k₁.process p).argv k₁ := ⟨rfl, rfl⟩
  by_cases hzero : nodes'.length = 0
  · rw [if_pos hzero] at hrest
    cases hrest
    exact ⟨fun h => absurd h (by decide), fun _ => hsame⟩
  rw [if_neg hzero] at hrest
  obtain ⟨argv, k₂, halloc, hrest⟩ := bind_eq_ok.mp hrest
  have hsame₂ := processMalloc_arguments k₁ argv k₂ hsame halloc
  by_cases hnull : argv = 0
  · rw [if_pos hnull] at hrest
    cases hrest
    exact ⟨fun h => absurd h (by decide), fun _ => hsame₂⟩
  rw [if_neg hnull] at hrest
  obtain ⟨code, k₃, hloop, hdone⟩ := bind_eq_ok.mp hrest
  have hsame₃ := processInjectLoop_arguments k₂ code k₃ hsame₂ hloop
  have hle := processInjectLoop_le hloop
  by_cases hneg : code < 0
  · rw [if_pos hneg] at hdone
    cases hdone
    exact ⟨fun h => absurd h (Int.ne_of_lt hneg), fun _ => hsame₃⟩
  rw [if_neg hneg, bind_of_ok rfl] at hdone
  obtain rfl : code = 0 := by omega
  obtain ⟨rfl, rfl⟩ := Prod.mk.inj (Except.ok.inj hdone)
  refine ⟨fun _ => ?_, fun h => absurd rfl h⟩
  generalize hsize : u32 (4 * nodes'.length : Nat) = size at halloc hloop
  have hne : nodes' ≠ [] := by
    rintro rfl
    exact hzero rfl
  have hpos : 1 ≤ size := by
    rcases nodes' with _ | ⟨n, nodes'⟩
    · exact absurd rfl hne
    · exact processInjectLoop_size (hpath.1 ▸ hpath.2.1) hloop
  have harray := hclean.array hpath hnodes hpos halloc hnull
  obtain ⟨hcopied, hroom⟩ := processInjectLoop_run harray.clean harray.path harray.apart harray.array hloop
  have hgiven := processInjectLoop_pointers harray.clean harray.path harray.apart harray.array hloop
  have hlive := hgiven.kept _ _ (processMalloc_live hclean hpos halloc hnull).1
  have hexact : size = 4 * nodes'.length := by
    have hfits := hroom hne
    rw [u32_natCast] at hsize
    omega
  have hstrings := hcopied.strings
  rw [← harray.strings] at hstrings
  subst hexact
  exact ArgumentsGiven.of_loop (List.length_pos_of_ne_nil hne) hstrings hlive hgiven harray.array

end Spec

/-- A process at `0x3000`, and a list of one node with the string `"A"` at `0x500000`. -/
def oneNodeKernel : Kernel := { bootKernel with
  memory := fun a => if a = 0x500000 then 0x41 else 0
  process := fun _ => { task := 0x2000 } }

theorem processInjectArguments_spec_one : ∃ k', processInjectArguments 0x3000 0x500000 oneNodeKernel = .ok (0, k') ∧
    ((0 : Int) = 0 → ArgumentsGiven oneNodeKernel k' 0x3000 [0x500000]) ∧
      ((0 : Int) ≠ 0 → (k'.process 0x3000).argc = (oneNodeKernel.process 0x3000).argc ∧
        (k'.process 0x3000).argv = (oneNodeKernel.process 0x3000).argv) := by
  have hpath : Path (commandArgumentNext oneNodeKernel.memory) 0 0x500000 [0x500000] := ⟨rfl, by decide, rfl⟩
  have hnodes : NodesSheltered oneNodeKernel [0x500000] := by
    intro n hn a hlo hhi
    obtain rfl := List.mem_singleton.mp hn
    have hsize : sizeofCommandArgument = 516 := rfl
    refine Or.inl ?_
    unfold bimbleosHeapAddress
    omega
  have hblocks : [0x500000].length + 1 ≤ oneNodeKernel.heap.freeBlocks := by
    show 2 ≤ bootKernel.heap.freeBlocks
    rw [bootKernel_freeBlocks]
    decide
  have hcan : CanAllocate oneNodeKernel 0x3000 0 ([0x500000].length + 1) :=
    ⟨bootKernel_clean, by decide, ⟨fun j hj => absurd hj (Nat.not_lt_zero j), fun _ _ => rfl⟩, by decide, hblocks⟩
  have hfit : ∀ n ∈ [0x500000], n + sizeofCommandArgument ≤ 4294967296 := by decide
  obtain ⟨k', hrun, _⟩ := processInjectArguments_goes hcan hpath hnodes hfit (List.cons_ne_nil _ _)
  exact ⟨k', hrun, processInjectArguments_spec bootKernel_clean hpath hnodes hrun⟩

end BimbleOS
