import Mathlib.Data.Set.Insert

/-!
# `Lib.Runs` — sets of pairwise disjoint runs of consecutive indices

The abstract side of a block allocator: what is allocated is a set of runs `[start, start + len)`, each
non-empty and no two overlapping. `RunSet` carries both facts as fields, so a set with overlapping runs
cannot be built; `insert` and `erase` are the two transitions of an allocator.
-/

namespace BlockRuns

/-- A run of consecutive indices. -/
structure Run where
  start : Nat
  len : Nat
  deriving DecidableEq, Repr

namespace Run

/-- One past the last index of the run. -/
def fin (r : Run) : Nat := r.start + r.len

/-- `i` is an index of the run. -/
def Has (r : Run) (i : Nat) : Prop := r.start ≤ i ∧ i < r.fin

instance (r : Run) (i : Nat) : Decidable (r.Has i) := inferInstanceAs (Decidable (_ ∧ _))

/-- Two runs that share no index and lie one after the other. -/
def Apart (r s : Run) : Prop := r.fin ≤ s.start ∨ s.fin ≤ r.start

theorem Apart.symm {r s : Run} (h : r.Apart s) : s.Apart r := Or.symm h

/-- Apart runs have no common index. -/
theorem Apart.not_has {r s : Run} (h : r.Apart s) {i : Nat} (hr : r.Has i) : ¬ s.Has i := by
  unfold Apart Has fin at *; omega

/-- Non-empty runs without a common index are apart. -/
theorem apart_of_not_has {r s : Run} (hr : 0 < r.len) (hs : 0 < s.len)
    (h : ∀ i, r.Has i → ¬ s.Has i) : r.Apart s := by
  have h₁ := h r.start
  have h₂ := h s.start
  unfold Apart Has fin at *; omega

end Run

/-- A set of non-empty, pairwise apart runs. -/
structure RunSet where
  runs : Set Run
  pos : ∀ r ∈ runs, 0 < r.len
  apart : ∀ r ∈ runs, ∀ s ∈ runs, r ≠ s → r.Apart s

namespace RunSet

/-- A set of runs is given by its runs. -/
theorem ext_runs {S T : RunSet} (h : S.runs = T.runs) : S = T := by
  cases S
  cases T
  simp only at h
  subst h
  rfl

/-- The index `i` belongs to some run of the set. -/
def Covers (S : RunSet) (i : Nat) : Prop := ∃ r ∈ S.runs, r.Has i

/-- No run at all. -/
def empty : RunSet where
  runs := ∅
  pos := fun _ h => absurd h (Set.notMem_empty _)
  apart := fun _ h => absurd h (Set.notMem_empty _)

/-- Add a run that is apart from every run of the set. -/
def insert (S : RunSet) (r : Run) (hpos : 0 < r.len) (hap : ∀ s ∈ S.runs, r.Apart s) : RunSet where
  runs := Insert.insert r S.runs
  pos := by
    intro s hs
    rcases Set.mem_insert_iff.mp hs with rfl | hs
    · exact hpos
    · exact S.pos s hs
  apart := by
    intro s hs t ht hne
    rcases Set.mem_insert_iff.mp hs with hs' | hs' <;> rcases Set.mem_insert_iff.mp ht with ht' | ht'
    · exact absurd (hs'.trans ht'.symm) hne
    · exact hs' ▸ hap t ht'
    · exact ht' ▸ (hap s hs').symm
    · exact S.apart s hs' t ht' hne

/-- Remove a run. -/
def erase (S : RunSet) (r : Run) : RunSet where
  runs := S.runs \ {r}
  pos := fun s hs => S.pos s hs.1
  apart := fun s hs t ht hne => S.apart s hs.1 t ht.1 hne

@[simp] theorem mem_insert {S : RunSet} {r s : Run} {hpos : 0 < r.len}
    {hap : ∀ s ∈ S.runs, r.Apart s} : s ∈ (S.insert r hpos hap).runs ↔ s = r ∨ s ∈ S.runs :=
  Set.mem_insert_iff

@[simp] theorem mem_erase {S : RunSet} {r s : Run} :
    s ∈ (S.erase r).runs ↔ s ∈ S.runs ∧ s ≠ r := Iff.rfl

@[simp] theorem not_covers_empty (i : Nat) : ¬ empty.Covers i :=
  fun ⟨_, h, _⟩ => absurd h (Set.notMem_empty _)

/-- An index lies in at most one run of the set. -/
theorem eq_of_has {S : RunSet} {r s : Run} (hr : r ∈ S.runs) (hs : s ∈ S.runs) {i : Nat}
    (hri : r.Has i) (hsi : s.Has i) : r = s := by
  by_contra hne
  exact (S.apart r hr s hs hne).not_has hri hsi

/-- Erasing a run uncovers exactly its indices. -/
theorem covers_erase {S : RunSet} {r : Run} (hr : r ∈ S.runs) {i : Nat} :
    (S.erase r).Covers i ↔ S.Covers i ∧ ¬ r.Has i := by
  constructor
  · rintro ⟨s, ⟨hs, hne⟩, hi⟩
    exact ⟨⟨s, hs, hi⟩, fun hri => hne (eq_of_has hs hr hi hri)⟩
  · rintro ⟨⟨s, hs, hi⟩, hri⟩
    exact ⟨s, ⟨hs, fun he => hri (he ▸ hi)⟩, hi⟩

/-- Inserting a run covers exactly its indices in addition. -/
theorem covers_insert {S : RunSet} {r : Run} {hpos : 0 < r.len} {hap : ∀ s ∈ S.runs, r.Apart s}
    {i : Nat} : (S.insert r hpos hap).Covers i ↔ r.Has i ∨ S.Covers i := by
  simp [Covers]

/-- The runs of the first `n` indices, when `f` gives every index the run it lies in. -/
def ofIndex (f : Nat → Run) (n : Nat) (hself : ∀ i, i < n → (f i).Has i)
    (hrun : ∀ i, i < n → ∀ j, (f i).Has j → j < n ∧ f j = f i) : RunSet where
  runs := { r | ∃ i, i < n ∧ f i = r }
  pos := by
    rintro r ⟨i, hi, rfl⟩
    have h := hself i hi
    unfold Run.Has Run.fin at h
    omega
  apart := by
    rintro r ⟨i, hi, rfl⟩ s ⟨j, hj, rfl⟩ hne
    have hi' := hself i hi
    have hj' := hself j hj
    refine Run.apart_of_not_has ?_ ?_ fun m hm hm' => ?_
    · unfold Run.Has Run.fin at hi'
      omega
    · unfold Run.Has Run.fin at hj'
      omega
    · exact hne ((hrun i hi m hm).2.symm.trans (hrun j hj m hm').2)

/-- Erasing the run that was just inserted. -/
theorem erase_insert {S : RunSet} {r : Run} {hpos : 0 < r.len} {hap : ∀ s ∈ S.runs, r.Apart s} :
    (S.insert r hpos hap).erase r = S := by
  have hnew : r ∉ S.runs := fun hr => by
    have := hap r hr
    unfold Run.Apart Run.fin at this
    omega
  have hruns : ((S.insert r hpos hap).erase r).runs = S.runs := by
    ext s
    rw [mem_erase, mem_insert]
    constructor
    · rintro ⟨rfl | hs, hne⟩
      · exact absurd rfl hne
      · exact hs
    · intro hs
      exact ⟨Or.inr hs, fun heq => hnew (heq ▸ hs)⟩
  exact ext_runs hruns

end RunSet

end BlockRuns
