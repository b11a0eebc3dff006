import BimbleOS.Fs.Faults
import BimbleOS.Task.ArgumentRuns

/-!
# `Task.ArgumentEnd` — when handing over arguments ends

`process_count_command_arguments` follows the list as it finds it in the memory of the caller, with nothing that would
stop it on a list that comes back to one of its nodes; it ends exactly when the list does. The loop of
`process_inject_arguments` would stop on any list, since every round fills a slot of the process's table of
allocations (`processInjectLoop_ends`); but the list is counted first (`processInjectArguments_ends_iff`).
-/

namespace BimbleOS

open Bytes CWord Exec Links

/-- A call that comes to an end, by returning or by a fault on the way. The loops stop with `undefined` only when they
    have gone on until `i` cannot be counted up any more. -/
def Ends {α : Type} (x : KM α) (k : Kernel) : Prop := x k ≠ .error .undefined

/-- The list stops at this place: it is null, or a node that does not end inside the address space. -/
def ArgumentStops (node : Nat) : Prop := node = 0 ∨ 4294967296 < node + sizeofCommandArgument

/-- The list from `root` stops within `rounds` nodes; the place behind the last of them has to be null. -/
def ArgumentsEnd (m : Mem) (rounds root : Nat) : Prop :=
  ∃ n, n ≤ rounds ∧ ((commandArgumentNext m)^[n] root = 0 ∨
    n < rounds ∧ ArgumentStops ((commandArgumentNext m)^[n] root))

/-! ## Counting -/

section Count

variable {m : Mem} {k : Kernel} {rounds root current i left : Nat}

/-- The list from one node on. -/
theorem argumentsEnd_succ : ArgumentsEnd m (rounds + 1) current ↔
    ArgumentStops current ∨ ArgumentsEnd m rounds (commandArgumentNext m current) := by
  constructor
  · rintro ⟨n, hn, hstop⟩
    cases n with
    | zero => exact Or.inl (hstop.elim Or.inl And.right)
    | succ n => exact Or.inr ⟨n, by omega, hstop.imp_right (And.imp_left Nat.lt_of_succ_lt_succ)⟩
  · rintro (hstop | ⟨n, hn, hstop⟩)
    · exact ⟨0, Nat.zero_le _, Or.inr ⟨Nat.succ_pos _, hstop⟩⟩
    · exact ⟨n + 1, by omega, hstop.imp_right (And.imp_left Nat.succ_lt_succ)⟩

theorem argumentsEnd_zero : ArgumentsEnd m 0 current ↔ current = 0 := by
  constructor
  · rintro ⟨n, hn, hstop⟩
    obtain rfl : n = 0 := Nat.le_zero.mp hn
    exact hstop.elim id fun h => absurd h.1 (Nat.lt_irrefl 0)
  · exact fun h => ⟨0, Nat.le_refl 0, Or.inl h⟩

/-- Counting ends where the list does. The induction is on the rounds that are left. -/
theorem processCountLoop_ends_iff : Ends (processCountLoop left current i) k ↔ ArgumentsEnd k.memory left current := by
  induction left generalizing current i with
  | zero =>
      rw [argumentsEnd_zero]
      unfold Ends processCountLoop
      by_cases hnull : current = 0
      · rw [if_pos hnull]
        exact ⟨fun _ => hnull, fun _ h => by cases h⟩
      · rw [if_neg hnull]
        exact ⟨fun h => absurd rfl h, fun h => absurd h hnull⟩
  | succ left ih =>
      rw [argumentsEnd_succ]
      unfold Ends processCountLoop
      by_cases hnull : current = 0
      · rw [if_pos hnull]
        exact ⟨fun _ => Or.inl (Or.inl hnull), fun _ h => by cases h⟩
      rw [if_neg hnull]
      show ((followArgument current >>= fun next => processCountLoop left next (i + 1)) k ≠ _) ↔ _
      by_cases hfar : 4294967296 < current + sizeofCommandArgument
      · -- reading the link of this node is a fault
        have hfault : followArgument current k = .error .outOfBounds := by
          unfold followArgument
          rw [get_bind, if_pos hfar]
          rfl
        rw [bind_of_error hfault]
        exact ⟨fun _ => Or.inl (Or.inr hfar), fun _ h => by cases h⟩
      · have hgoes : ¬ ArgumentStops current := not_or.mpr ⟨hnull, hfar⟩
        rw [bind_of_ok (followArgument_of_fit (Nat.not_lt.mp hfar)), or_iff_right hgoes]
        exact ih

/-- A list that comes back to one of its nodes goes on for ever. -/
theorem not_argumentsEnd_of_repeat {j : Nat} (hij : i < j)
    (hsame : (commandArgumentNext m)^[i] root = (commandArgumentNext m)^[j] root)
    (hgoes : ∀ n, n < j → ¬ ArgumentStops ((commandArgumentNext m)^[n] root)) : ¬ ArgumentsEnd m rounds root := by
  rintro ⟨n, -, hstop⟩
  apply iterate_of_repeat (P := fun node => ¬ ArgumentStops node) hij hsame hgoes n
  exact hstop.elim Or.inl And.right

end Count

/-! ## Handing over -/

/-- The free slots in the table of allocations. -/
def emptySlots (allocations : Nat → ProcessAllocation) : Finset Nat :=
  (Finset.range bimbleosMaxProgramAllocations).filter fun i => (allocations i).ptr = 0

/-- The number of free slots that a process has. -/
def slotsLeft (process : Nat) (k : Kernel) : Nat := (emptySlots (k.process process).allocations).card

section Inject

variable {k k' : Kernel} {process size ptr argv current i left n root : Nat} {allocations : Nat → ProcessAllocation}

theorem slotsLeft_le : slotsLeft process k ≤ bimbleosMaxProgramAllocations := by
  have hle := Finset.card_filter_le (Finset.range bimbleosMaxProgramAllocations)
    fun i => ((k.process process).allocations i).ptr = 0
  rwa [Finset.card_range] at hle

theorem mem_emptySlots :
    i ∈ emptySlots allocations ↔ i < bimbleosMaxProgramAllocations ∧ (allocations i).ptr = 0 := by
  unfold emptySlots
  rw [Finset.mem_filter, Finset.mem_range]

/-- A slot that is filled is no free one. -/
theorem emptySlots_fill (hi : i ∈ emptySlots allocations) (hne : ptr ≠ 0) :
    emptySlots (Function.update allocations i ⟨ptr, size⟩) ⊂ emptySlots allocations := by
  have hfilled : i ∉ emptySlots (Function.update allocations i ⟨ptr, size⟩) := by
    rw [mem_emptySlots, Function.update_self]
    exact fun h => hne h.2
  refine (Finset.ssubset_iff_of_subset fun j hj => ?_).mpr ⟨i, hi, hfilled⟩
  have hji : j ≠ i := by
    rintro rfl
    exact hfilled hj
  rw [mem_emptySlots, Function.update_of_ne hji] at hj
  exact mem_emptySlots.mpr hj

/-- Memory that is granted takes a slot. -/
theorem processMalloc_slots (hrun : processMalloc process size k = .ok (ptr, k')) (hne : ptr ≠ 0) :
    slotsLeft process k' < slotsLeft process k := by
  obtain ⟨i, pages, hi, hempty, -, -, rfl⟩ := processMalloc_granted hrun hne
  unfold slotsLeft
  dsimp only
  rw [Function.update_self]
  exact Finset.card_lt_card (emptySlots_fill (mem_emptySlots.mpr ⟨hi, hempty⟩) hne)

theorem processMalloc_never {e : Fault} (hnull : .nullPointer ≠ e) (hbounds : .outOfBounds ≠ e) :
    Never e (processMalloc process size) := by
  have hget : Never e (get : KM Kernel) := fun _ h => by cases h
  have hback : ∀ ptr, Never e (kfree ptr >>= fun _ => pure 0 : KM Nat) := fun ptr =>
    Never.bind Never.modify fun _ => Never.pure
  have hdirectory : Never e (processPageDirectory process) := by
    intro k h
    rw [processPageDirectory_eq] at h
    split at h
    · cases h
      exact hnull rfl
    · cases h
  have hmap : ∀ d virt phys physEnd flags, Never e (kernelMapTo d virt phys physEnd flags) := by
    intro d virt phys physEnd flags k h
    rw [kernelMapTo_eq] at h
    cases h
  apply Never.bind (kzalloc_never hbounds)
  intro ptr
  apply Never.ite Never.pure
  apply Never.bind hget
  intro k
  apply Never.ite (hback ptr)
  apply Never.bind hdirectory
  intro d
  apply Never.bind (hmap _ _ _ _ _)
  intro res
  apply Never.ite (hback ptr)
  exact Never.bind Never.modify fun _ => Never.pure

theorem followArgument_never {e : Fault} (hbounds : .outOfBounds ≠ e) : Never e (followArgument current) := by
  intro k h
  unfold followArgument at h
  rw [get_bind] at h
  split at h
  · cases h
    exact hbounds rfl
  · cases h

theorem processInjectArgument_never {e : Fault} (hnull : .nullPointer ≠ e) (hbounds : .outOfBounds ≠ e) :
    Never e (processInjectArgument process argv size current i) := by
  apply Never.bind (processMalloc_never hnull hbounds)
  intro argumentStr
  apply Never.ite Never.pure
  apply Never.ite (Never.throw hbounds)
  apply Never.bind Never.modify
  intro _
  apply Never.bind Never.modify
  intro _
  exact Never.bind (followArgument_never hbounds) fun _ => Never.pure

/-- A round with which the loop goes on has taken a slot. -/
theorem processInjectArgument_slots {next : Nat}
    (hrun : processInjectArgument process argv size current i k = .ok (.ok next, k')) :
    slotsLeft process k' < slotsLeft process k := by
  obtain ⟨ptr, k₁, halloc, hne, -, rfl, -⟩ := processInjectArgument_run hrun
  have htaken : slotsLeft process k₁ < slotsLeft process k := processMalloc_slots halloc hne
  exact htaken

/-- A loop ends that ends from its second round on, if it comes to that. -/
theorem processInjectLoop_round (hnext : ∀ next k',
      processInjectArgument process argv size current i k = .ok (.ok next, k') →
      Ends (match left with
        | 0 => throw .undefined
        | left + 1 => processInjectLoop process argv size left next (i + 1)) k') :
    Ends (processInjectLoop process argv size left current i) k := by
  have hround : Ends (processInjectArgument process argv size current i) k :=
    processInjectArgument_never (by decide) (by decide) k
  unfold Ends processInjectLoop
  by_cases hnull : current = 0
  · rw [if_pos hnull]
    intro h
    cases h
  rw [if_neg hnull]
  rcases hrun : processInjectArgument process argv size current i k with fault | ⟨res | next, k'⟩
  · rw [bind_of_error hrun]
    exact fun h => hround (hrun.trans (congrArg _ (Except.error.inj h)))
  · rw [bind_of_ok hrun]
    intro h
    cases h
  · rw [bind_of_ok hrun]
    exact hnext next k' hrun

/-- **The loop that copies the arguments ends** on every list. The induction is on how often `i` can be counted up,
    which is more often than there are slots. -/
theorem processInjectLoop_ends (hslots : slotsLeft process k ≤ left) :
    Ends (processInjectLoop process argv size left current i) k := by
  induction left generalizing k current i with
  | zero =>
      apply processInjectLoop_round
      intro next k' hrun
      have htaken := processInjectArgument_slots hrun
      omega
  | succ left ih =>
      apply processInjectLoop_round
      intro next k' hrun
      have htaken := processInjectArgument_slots hrun
      exact ih (by omega)

end Inject

/-- **Handing over arguments ends** exactly when the list does. -/
theorem processInjectArguments_ends_iff {k : Kernel} {process rootArgument : Nat} :
    (Ends (processCountCommandArguments rootArgument) k ∧ Ends (processInjectArguments process rootArgument) k) ↔
      ArgumentsEnd k.memory intMax rootArgument := by
  rw [← @processCountLoop_ends_iff k rootArgument 0 intMax]
  constructor
  · exact And.left
  · intro hcount
    refine ⟨hcount, fun h => ?_⟩
    unfold processInjectArguments at h
    rcases hrun : processCountCommandArguments rootArgument k with fault | ⟨argc, k'⟩
    · rw [bind_of_error hrun] at h
      exact hcount (hrun.trans (congrArg _ (Except.error.inj h)))
    · -- whatever the number of the arguments is, copying them ends
      rw [bind_of_ok hrun] at h
      by_cases hzero : argc = 0
      · rw [if_pos hzero] at h
        cases h
      rw [if_neg hzero] at h
      revert h
      apply Avoids.bind (P := fun _ => True) (R := fun _ _ => True)
      · exact Avoids.of_never (processMalloc_never (by decide) (by decide))
      · exact fun _ _ _ _ _ => True.intro
      · intro argv
        refine Avoids.ite (fun _ => Avoids.pure) fun _ => ?_
        refine Avoids.bind (R := fun _ _ => True) ?_ (fun _ _ _ _ _ => True.intro) fun res => ?_
        · exact fun k _ => processInjectLoop_ends (Nat.le_trans slotsLeft_le (by decide))
        · exact Avoids.of_never (Never.ite Never.pure (Never.bind Never.modify fun _ => Never.pure))
      · exact True.intro

/-! A list of one node, which is its own next one. -/

/-- The node is at `0x500000`. -/
def ringKernel : Kernel := { bootKernel with memory := store32 (fun _ => 0x41) (0x500000 + sizeofArgument) 0x500000 }

theorem ringKernel_goes {rounds : Nat} : ¬ ArgumentsEnd ringKernel.memory rounds 0x500000 := by
  have hnext : commandArgumentNext ringKernel.memory 0x500000 = 0x500000 := by decide
  apply not_argumentsEnd_of_repeat (i := 0) (j := 1) (by decide)
  · exact hnext.symm
  · intro n hn
    obtain rfl : n = 0 := by omega
    exact fun h => h.elim (by decide) (by decide)

/-- However long it takes, counting goes on; and a call that hands over the list never comes to copy it. -/
theorem processInjectArguments_hangs :
    (∀ rounds, ¬ Ends (processCountLoop rounds 0x500000 0) ringKernel) ∧
    ¬ ∀ (k : Kernel) (process rootArgument : Nat),
      Ends (processCountCommandArguments rootArgument) k ∧ Ends (processInjectArguments process rootArgument) k := by
  have hcount : ∀ rounds, ¬ Ends (processCountLoop rounds 0x500000 0) ringKernel := by
    intro rounds h
    exact ringKernel_goes (processCountLoop_ends_iff.mp h)
  exact ⟨hcount, fun h => hcount intMax (h ringKernel 0 0x500000).1⟩

end BimbleOS
