import BimbleOS.Kernel.State

/-!
# `Memory.HeapLoans` — what is taken while structures of one block are on loan

A piece of code that allocates small structures and gives some of them back is followed by the list of the pointers
it still holds: the taken blocks are those of the start and one for each of these pointers (`Heap.Lends`). When the
list is empty again the heap is as it was (`Heap.Lends.settled`), and as long as it is not, blocks are missing
(`Heap.Lends.unsettled`).
-/

namespace BimbleOS

open CWord Exec

/-- The blocks of `ptrs` are taken, and besides them those of `T`. -/
structure Heap.Lends (T : Set Nat) (ptrs : List Nat) (heap : Heap) : Prop where
  ready : heap.Ready
  holding : heap.Holding ptrs
  taken : ∀ b, b ∈ heap.taken ↔ b ∈ T ∨ b ∈ ptrs.map kfreeBlock
  apart : ∀ ptr ∈ ptrs, kfreeBlock ptr ∉ T

section Lends

variable {heap : Heap} {T : Set Nat} {ptrs ptrs' : List Nat} {ptr size : Nat}

/-- A request of one block that is answered takes one block, which was free. -/
theorem Heap.Ready.malloc_single (h : heap.Ready) (h₁ : 1 ≤ size) (h₂ : size ≤ 4096)
    (hne : (heapMalloc heap size).1 ≠ 0) : kfreeBlock (heapMalloc heap size).1 ∉ heap.taken ∧
      ∀ b, b ∈ (heapMalloc heap size).2.taken ↔ b ∈ heap.taken ∨ b = kfreeBlock (heapMalloc heap size).1 := by
  have htotal := h.total
  rcases heapMalloc_one h h₁ h₂ with ⟨hnull, _⟩ | ⟨s, hs, hfree, hres, _⟩
  · rw [hnull] at hne
    exact absurd rfl hne
  have hblock : kfreeBlock (heap.saddr + 4096 * s) = s := by
    rw [h.start]
    exact kfreeBlock_block (by omega)
  rw [hres, hblock]
  refine ⟨fun hin => hin.2 hfree, fun b => ?_⟩
  have hmark := @free_mark_one heap s b (by omega)
  constructor
  · rintro ⟨hlt, hb⟩
    rw [heapMarkBlocksTaken_totalEntries] at hlt
    by_cases hbs : b = s
    · exact Or.inr hbs
    · exact Or.inl ⟨hlt, fun hfree' => hb (hmark.mpr ⟨hfree', hbs⟩)⟩
  · rintro (⟨hlt, hb⟩ | rfl)
    · refine ⟨?_, fun hfree' => hb (hmark.mp hfree').1⟩
      rwa [heapMarkBlocksTaken_totalEntries]
    · refine ⟨?_, fun hfree' => (hmark.mp hfree').2 rfl⟩
      rwa [heapMarkBlocksTaken_totalEntries]

/-- Giving back a structure of one block frees that block only. -/
theorem Heap.Ready.free_single (h : heap.Ready) (hsingle : ¬ heap.table.HasNext (kfreeBlock ptr)) (b : Nat) :
    b ∈ (heapFree heap ptr).taken ↔ b ∈ heap.taken ∧ b ≠ kfreeBlock ptr := by
  constructor
  · intro hb
    refine ⟨h.taken_free ptr hb, ?_⟩
    rintro rfl
    exact h.free_self ptr hb
  · rintro ⟨⟨hlt, hb⟩, hne⟩
    have hout : b ∉ heap.blocksFrom ptr := by
      rintro ⟨hlo, hchain⟩
      exact hsingle (hchain _ (Nat.le_refl _) (by omega))
    refine ⟨?_, ?_⟩
    · rwa [heapFree_totalEntries h]
    · unfold HeapTable.Free at hb ⊢
      rwa [heapFree_outside h hout]

/-- Nothing is on loan at the start. -/
theorem Heap.Ready.lends (h : heap.Ready) : heap.Lends heap.taken [] where
  ready := h
  holding := heap.holding_nil
  taken := fun b => by simp
  apart := fun ptr hptr => absurd hptr List.not_mem_nil

theorem Heap.Lends.perm (h : heap.Lends T ptrs) (hperm : ptrs.Perm ptrs') : heap.Lends T ptrs' where
  ready := h.ready
  holding := h.holding.perm hperm
  taken := fun b => by rw [h.taken b, (hperm.map kfreeBlock).mem_iff]
  apart := fun ptr hptr => h.apart ptr (hperm.mem_iff.mpr hptr)

/-- An answered request is one more loan. -/
theorem Heap.Lends.malloc (h : heap.Lends T ptrs) (h₁ : 1 ≤ size) (h₂ : size ≤ 4096)
    (hne : (heapMalloc heap size).1 ≠ 0) :
    (heapMalloc heap size).2.Lends T ((heapMalloc heap size).1 :: ptrs) := by
  obtain ⟨hnew, htaken⟩ := h.ready.malloc_single h₁ h₂ hne
  refine ⟨(heapMalloc_ready h.ready).1, h.holding.malloc h.ready h₁ h₂ hne, fun b => ?_, ?_⟩
  · rw [htaken b, h.taken b, List.map_cons, List.mem_cons]
    tauto
  · intro p hp
    rcases List.mem_cons.mp hp with rfl | hp
    · exact fun hin => hnew ((h.taken _).mpr (Or.inl hin))
    · exact h.apart p hp

/-- A request that is not answered changes nothing. -/
theorem Heap.Lends.refused (h : heap.Lends T ptrs) (hnull : (heapMalloc heap size).1 = 0) :
    (heapMalloc heap size).2.Lends T ptrs := by
  rcases @heapMalloc_answer heap size h.ready with ⟨heq, _⟩ | ⟨s, heq, _⟩
  · rw [heq]
    exact h
  · rw [heq] at hnull
    unfold bimbleosHeapAddress at hnull
    omega

/-- Giving one back settles it. -/
theorem Heap.Lends.free (h : heap.Lends T (ptr :: ptrs)) : (heapFree heap ptr).Lends T ptrs := by
  have hnew : kfreeBlock ptr ∉ ptrs.map kfreeBlock := (List.nodup_cons.mp h.holding.nodup).1
  refine ⟨h.ready.free, h.holding.free h.ready, fun b => ?_, fun p hp => h.apart p (List.mem_cons_of_mem ptr hp)⟩
  rw [h.ready.free_single (h.holding.single ptr List.mem_cons_self) b, h.taken b, List.map_cons, List.mem_cons]
  constructor
  · rintro ⟨hb | rfl | hb, hne⟩
    · exact Or.inl hb
    · exact absurd rfl hne
    · exact Or.inr hb
  · rintro (hb | hb)
    · refine ⟨Or.inl hb, ?_⟩
      rintro rfl
      exact h.apart ptr List.mem_cons_self hb
    · refine ⟨Or.inr (Or.inr hb), ?_⟩
      rintro rfl
      exact hnew hb

/-- **When everything is given back the heap is as it was.** -/
theorem Heap.Lends.settled (h : heap.Lends T []) : heap.taken = T := by
  ext b
  rw [h.taken b]
  simp

/-- **What is not given back is missing.** -/
theorem Heap.Lends.unsettled (h : heap.Lends T (ptr :: ptrs)) : heap.taken ≠ T := by
  intro heq
  apply h.apart ptr List.mem_cons_self
  rw [← heq]
  exact (h.taken _).mpr (Or.inr List.mem_cons_self)

end Lends

/-! ## In the kernel -/

section Kernel

variable {k k' : Kernel} {T : Set Nat} {ptrs : List Nat} {ptr size : Nat}

/-- `kzalloc` of a small structure: one more loan, or nothing. -/
theorem Heap.Lends.kzalloc (h : k.heap.Lends T ptrs) (h₁ : 1 ≤ size) (h₂ : size ≤ 4096)
    (hrun : kzalloc size k = .ok (ptr, k')) :
    (ptr = 0 ∧ k'.heap.Lends T ptrs) ∨ ptr ≠ 0 ∧ k'.heap.Lends T (ptr :: ptrs) := by
  obtain ⟨rfl, memory, rfl⟩ := kzalloc_run hrun
  by_cases hnull : (heapMalloc k.heap size).1 = 0
  · exact Or.inl ⟨hnull, h.refused hnull⟩
  · exact Or.inr ⟨hnull, h.malloc h₁ h₂ hnull⟩

end Kernel

end BimbleOS
