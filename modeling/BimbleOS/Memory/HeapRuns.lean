import BimbleOS.Memory.HeapSpec
import Mathlib.Order.BooleanAlgebra.Set

/-!
# `Memory.HeapRuns` — the heap table as a set of disjoint runs

`Encodes t S` ties the flag bytes of the table to the abstract allocation state `S`, a `RunSet`. The
two lemmas `Encodes.mark` and `Encodes.free` say that the marking and freeing loops are `insert` and
`erase` on that set; everything the allocator guarantees its callers is read off `S`.
-/

namespace BimbleOS

open CWord BlockRuns

/-! ## Flag bytes -/

/-- The flag byte of index `i` of an allocated run. -/
def runByte (r : Run) (i : Nat) : HeapBlockTableEntry :=
  (if i = r.start then heapBlockIsFirst else 0#8) |||
    (if i + 1 < r.fin then heapBlockTableEntryTaken ||| heapBlockHasNext
      else heapBlockTableEntryTaken)

theorem runByte_hasNext (r : Run) (i : Nat) :
    runByte r i &&& heapBlockHasNext ≠ 0#8 ↔ i + 1 < r.fin := by
  unfold runByte
  by_cases hlast : i + 1 < r.fin
  · rw [if_pos hlast]; split <;> simp [hlast] <;> decide
  · rw [if_neg hlast]; split <;> simp [hlast] <;> decide

/-- Its `TAKEN` bit is set. -/
theorem runByte_taken_bit (r : Run) (i : Nat) : runByte r i &&& heapBlockTableEntryTaken ≠ 0#8 := by
  unfold runByte
  split <;> split <;> decide

theorem runByte_first (r : Run) (i : Nat) : runByte r i &&& heapBlockIsFirst ≠ 0#8 ↔ i = r.start := by
  unfold runByte
  by_cases hfirst : i = r.start
  · rw [if_pos hfirst]
    refine iff_of_true ?_ hfirst
    split <;> decide
  · rw [if_neg hfirst]
    refine iff_of_false ?_ hfirst
    split <;> decide

/-- The table encodes the runs of `S`: all their entries are taken, exactly the first one carries `IS_FIRST`,
    exactly those before the last one carry `HAS_NEXT`, and all other entries are zero. -/
structure Records (t : HeapTable) (S : RunSet) : Prop where
  bound : ∀ r ∈ S.runs, r.fin ≤ t.totalEntries
  taken : ∀ r ∈ S.runs, ∀ i, r.Has i → t.entries i &&& heapBlockTableEntryTaken ≠ 0#8
  first : ∀ r ∈ S.runs, ∀ i, r.Has i → (t.entries i &&& heapBlockIsFirst ≠ 0#8 ↔ i = r.start)
  next : ∀ r ∈ S.runs, ∀ i, r.Has i → (t.HasNext i ↔ i + 1 < r.fin)
  rest : ∀ i, i < t.totalEntries → ¬ S.Covers i → t.entries i = 0#8

/-- A taken entry is not free. -/
theorem taken_not_free {entry : HeapBlockTableEntry} (h : entry &&& heapBlockTableEntryTaken ≠ 0#8) :
    heapGetEntryType entry ≠ heapBlockTableEntryFree := by
  intro hfree
  refine h ?_
  have hmask : (0x0f#8 : BitVec 8) &&& heapBlockTableEntryTaken = heapBlockTableEntryTaken := by decide
  unfold heapGetEntryType at hfree
  rw [← hmask, ← BitVec.and_assoc, hfree]
  decide

theorem runByte_taken (r : Run) (i : Nat) : heapGetEntryType (runByte r i) ≠ heapBlockTableEntryFree :=
  taken_not_free (runByte_taken_bit r i)

namespace Records

variable {t : HeapTable} {S : RunSet}

/-- The scan sees an entry as free exactly when no run covers it. -/
theorem free_iff (h : Records t S) {i : Nat} (hi : i < t.totalEntries) :
    t.Free i ↔ ¬ S.Covers i := by
  constructor
  · rintro hfree ⟨r, hr, hri⟩
    exact taken_not_free (h.taken r hr i hri) hfree
  · intro hc
    unfold HeapTable.Free
    rw [h.rest i hi hc]
    decide

/-- A free run of the table is apart from every recorded run. -/
theorem apart_of_freeRun (h : Records t S) {s k : Nat} (hk : 0 < k) (hle : s + k ≤ t.totalEntries)
    (hfree : t.FreeRun s k) : ∀ r ∈ S.runs, Run.Apart ⟨s, k⟩ r := by
  intro r hr
  refine Run.apart_of_not_has hk (S.pos r hr) (fun i hi hri => ?_)
  have hlt : i < t.totalEntries := by simp only [Run.Has, Run.fin] at hi; omega
  have hcov : S.Covers i := ⟨r, hr, hri⟩
  exact (h.free_iff hlt).mp (hfree i hi.1 (by simpa [Run.fin] using hi.2)) hcov

/-- Freeing from the first block of a recorded run clears exactly the entries of that run. -/
theorem freeLoop_entries (h : Records t S) {r : Run} (hr : r ∈ S.runs) (j : Nat) :
    (heapFreeLoop t r.start (t.totalEntries - r.start)).entries j =
      if r.Has j then 0#8 else t.entries j := by
  obtain ⟨m, hm, hent, hchain, hstop⟩ :=
    heapFreeLoop_spec (t.totalEntries - r.start) t r.start
  have hb := h.bound r hr
  have hp := S.pos r hr
  have hlen : m = r.len := by
    have hlast : ¬ t.HasNext (r.start + r.len - 1) := by
      rw [h.next r hr _ (by unfold Run.Has Run.fin; omega)]
      unfold Run.fin; omega
    rcases Nat.lt_trichotomy m r.len with hlt | heq | hgt
    · rcases hstop with hstop | ⟨hpos, hno⟩
      · unfold Run.fin at hb; omega
      · refine absurd ?_ hno
        rw [h.next r hr _ (by unfold Run.Has Run.fin; omega)]
        unfold Run.fin; omega
    · exact heq
    · exact absurd (hchain (r.start + r.len - 1) (by omega) (by omega)) hlast
  rw [hent j, hlen]
  rfl

/-- The same through `heap_mark_blocks_free`. -/
theorem free_entries {heap : Heap} (h : Records heap.table S) {r : Run} (hr : r ∈ S.runs)
    (hn : heap.table.totalEntries ≤ 4294967296) (j : Nat) :
    (heapMarkBlocksFree heap r.start).table.entries j = if r.Has j then 0#8 else heap.table.entries j := by
  have hb := h.bound r hr
  have hp := S.pos r hr
  have hstart : u32 (r.start : Int) = r.start := u32_of_lt (by unfold Run.fin at hb; omega)
  simp only [heapMarkBlocksFree, hstart]
  exact h.freeLoop_entries hr j

/-- A marked entry of a free run. -/
theorem mark_entries {heap : Heap} (h : Records heap.table S) {s k : Nat} (hk : 0 < k)
    (hle : s + k ≤ heap.table.totalEntries) (hn : heap.table.totalEntries ≤ 4294967296)
    (hfree : heap.table.FreeRun s k) (j : Nat) :
    (heapMarkBlocksTaken heap s k).table.entries j =
      if Run.Has ⟨s, k⟩ j then runByte ⟨s, k⟩ j else heap.table.entries j := by
  rw [heapMarkBlocksTaken_entries hk (by omega)]
  by_cases hj : s ≤ j ∧ j < s + k
  · have hzero : heap.table.entries j = 0#8 :=
      h.rest j (by omega) ((h.free_iff (by omega)).mp (hfree j hj.1 hj.2))
    have hhas : Run.Has ⟨s, k⟩ j := hj
    rw [if_pos hj, if_pos hhas, hzero]
    rfl
  · have hhas : ¬ Run.Has ⟨s, k⟩ j := hj
    rw [if_neg hj, if_neg hhas]

/-- **Marking a free run adds it.** -/
theorem mark {heap : Heap} (h : Records heap.table S) {s k : Nat} (hk : 0 < k)
    (hle : s + k ≤ heap.table.totalEntries) (hn : heap.table.totalEntries ≤ 4294967296)
    (hfree : heap.table.FreeRun s k) :
    Records (heapMarkBlocksTaken heap s k).table
      (S.insert ⟨s, k⟩ hk (h.apart_of_freeRun hk hle hfree)) := by
  have hent := h.mark_entries hk hle hn hfree
  have hnew : ∀ i, Run.Has ⟨s, k⟩ i → (heapMarkBlocksTaken heap s k).table.entries i = runByte ⟨s, k⟩ i :=
    fun i hi => by rw [hent i, if_pos hi]
  have hold : ∀ r ∈ S.runs, ∀ i, r.Has i →
      (heapMarkBlocksTaken heap s k).table.entries i = heap.table.entries i := fun r hr i hi => by
    rw [hent i, if_neg ((h.apart_of_freeRun hk hle hfree r hr).symm.not_has hi)]
  refine ⟨fun r hr => ?_, fun r hr i hi => ?_, fun r hr i hi => ?_, fun r hr i hi => ?_, fun i hi hc => ?_⟩
  · rw [heapMarkBlocksTaken_totalEntries]
    rcases RunSet.mem_insert.mp hr with rfl | hr
    · exact hle
    · exact h.bound r hr
  · rcases RunSet.mem_insert.mp hr with rfl | hr
    · rw [hnew i hi]
      exact runByte_taken_bit _ i
    · rw [hold r hr i hi]
      exact h.taken r hr i hi
  · rcases RunSet.mem_insert.mp hr with rfl | hr
    · rw [hnew i hi]
      exact runByte_first _ i
    · rw [hold r hr i hi]
      exact h.first r hr i hi
  · unfold HeapTable.HasNext
    rcases RunSet.mem_insert.mp hr with rfl | hr
    · rw [hnew i hi]
      exact runByte_hasNext _ i
    · rw [hold r hr i hi]
      exact h.next r hr i hi
  · rw [heapMarkBlocksTaken_totalEntries] at hi
    have hc' := mt RunSet.covers_insert.mpr hc
    rw [hent i, if_neg fun hhas => hc' (Or.inl hhas)]
    exact h.rest i hi fun hcov => hc' (Or.inr hcov)

/-- **Freeing a recorded run takes it away.** -/
theorem free {heap : Heap} (h : Records heap.table S) {r : Run} (hr : r ∈ S.runs)
    (hn : heap.table.totalEntries ≤ 4294967296) :
    Records (heapMarkBlocksFree heap r.start).table (S.erase r) := by
  have hold : ∀ q ∈ (S.erase r).runs, ∀ i, q.Has i →
      (heapMarkBlocksFree heap r.start).table.entries i = heap.table.entries i := fun q hq i hi => by
    rw [h.free_entries hr hn i, if_neg fun hri => hq.2 (RunSet.eq_of_has hq.1 hr hi hri)]
  refine ⟨fun q hq => ?_, fun q hq i hi => ?_, fun q hq i hi => ?_, fun q hq i hi => ?_, fun i hi hc => ?_⟩
  · rw [heapMarkBlocksFree_totalEntries]
    exact h.bound q hq.1
  · rw [hold q hq i hi]
    exact h.taken q hq.1 i hi
  · rw [hold q hq i hi]
    exact h.first q hq.1 i hi
  · unfold HeapTable.HasNext
    rw [hold q hq i hi]
    exact h.next q hq.1 i hi
  · rw [heapMarkBlocksFree_totalEntries] at hi
    rw [h.free_entries hr hn i]
    split
    · rfl
    · rename_i hri
      exact h.rest i hi fun hcov => hc ((RunSet.covers_erase hr).mpr ⟨hcov, hri⟩)

end Records

/-- The table records exactly the runs of `S`, and no other bits: their entries carry the flags of
    `runByte`, all other entries are zero. -/
structure Encodes (t : HeapTable) (S : RunSet) : Prop where
  bound : ∀ r ∈ S.runs, r.fin ≤ t.totalEntries
  run : ∀ r ∈ S.runs, ∀ i, r.Has i → t.entries i = runByte r i
  rest : ∀ i, i < t.totalEntries → ¬ S.Covers i → t.entries i = 0#8

namespace Encodes

variable {t : HeapTable} {S : RunSet}

theorem records (h : Encodes t S) : Records t S where
  bound := h.bound
  taken := fun r hr i hi => by
    rw [h.run r hr i hi]
    exact runByte_taken_bit r i
  first := fun r hr i hi => by
    rw [h.run r hr i hi]
    exact runByte_first r i
  next := fun r hr i hi => by
    unfold HeapTable.HasNext
    rw [h.run r hr i hi]
    exact runByte_hasNext r i
  rest := h.rest

/-- The scan sees an entry as free exactly when no run covers it. -/
theorem free_iff (h : Encodes t S) {i : Nat} (hi : i < t.totalEntries) :
    t.Free i ↔ ¬ S.Covers i :=
  h.records.free_iff hi

/-- A cleared table encodes the empty set of runs. -/
theorem of_cleared (h : ∀ i, i < t.totalEntries → t.entries i = 0#8) : Encodes t RunSet.empty where
  bound := fun _ hr => absurd hr (Set.notMem_empty _)
  run := fun _ hr => absurd hr (Set.notMem_empty _)
  rest := fun i hi _ => h i hi

/-- A table that is filled from the front, block by block. -/
theorem of_index {t : HeapTable} {f : Nat → Run} {n : Nat} {hself : ∀ i, i < n → (f i).Has i}
    {hrun : ∀ i, i < n → ∀ j, (f i).Has j → j < n ∧ f j = f i} (hn : n ≤ t.totalEntries)
    (hentries : ∀ i, t.entries i = if i < n then runByte (f i) i else 0#8) :
    Encodes t (RunSet.ofIndex f n hself hrun) where
  bound := by
    rintro r ⟨i, hi, rfl⟩
    have hlast := hself i hi
    have hfin : (f i).Has ((f i).fin - 1) := by
      unfold Run.Has Run.fin at hlast ⊢
      omega
    have hlt := (hrun i hi _ hfin).1
    omega
  run := by
    rintro r ⟨i, hi, rfl⟩ j hj
    obtain ⟨hlt, heq⟩ := hrun i hi j hj
    rw [hentries j, if_pos hlt, heq]
  rest := by
    intro i _ hnot
    rw [hentries i, if_neg]
    exact fun hi => hnot ⟨f i, ⟨i, hi, rfl⟩, hself i hi⟩

/-- A free run of the table is apart from every recorded run. -/
theorem apart_of_freeRun (h : Encodes t S) {s k : Nat} (hk : 0 < k) (hle : s + k ≤ t.totalEntries)
    (hfree : t.FreeRun s k) : ∀ r ∈ S.runs, Run.Apart ⟨s, k⟩ r :=
  h.records.apart_of_freeRun hk hle hfree

/-- **Marking a free run inserts it.** -/
theorem mark {heap : Heap} (h : Encodes heap.table S) {s k : Nat} (hk : 0 < k)
    (hle : s + k ≤ heap.table.totalEntries) (hn : heap.table.totalEntries ≤ 4294967296)
    (hfree : heap.table.FreeRun s k) :
    Encodes (heapMarkBlocksTaken heap s k).table
      (S.insert ⟨s, k⟩ hk (h.apart_of_freeRun hk hle hfree)) := by
  have hnew := h.records.mark hk hle hn hfree
  refine ⟨hnew.bound, fun r hr i hi => ?_, hnew.rest⟩
  rw [h.records.mark_entries hk hle hn hfree i]
  rcases RunSet.mem_insert.mp hr with rfl | hr
  · exact if_pos hi
  · rw [if_neg ((h.apart_of_freeRun hk hle hfree r hr).symm.not_has hi)]
    exact h.run r hr i hi

/-- **Freeing a recorded run erases it.** -/
theorem free {heap : Heap} (h : Encodes heap.table S) {r : Run} (hr : r ∈ S.runs)
    (hn : heap.table.totalEntries ≤ 4294967296) :
    Encodes (heapMarkBlocksFree heap r.start).table (S.erase r) := by
  have hnew := h.records.free hr hn
  refine ⟨hnew.bound, fun q hq i hi => ?_, hnew.rest⟩
  rw [h.records.free_entries hr hn i, if_neg fun hri => hq.2 (RunSet.eq_of_has hq.1 hr hi hri)]
  exact h.run q hq.1 i hi

end Encodes

/-! ## A run leaves no trace -/

/-- `heap_mark_blocks_taken` or `heap_mark_blocks_free`. -/
inductive RunOp where
  | mark (s k : Nat)
  | free (s : Nat)

/-- An operation on a run other than `r`: it marks free entries, or frees a run that is recorded. -/
inductive RunStep (r : Run) : Heap → RunSet → RunOp → Heap → RunSet → Prop where
  | mark {heap : Heap} {S : RunSet} {s k : Nat} (hk : 0 < k) (hle : s + k ≤ heap.table.totalEntries)
      (hfree : heap.table.FreeRun s k) (hap : ∀ q ∈ S.runs, Run.Apart ⟨s, k⟩ q) :
      RunStep r heap S (.mark s k) (heapMarkBlocksTaken heap s k) (S.insert ⟨s, k⟩ hk hap)
  | free {heap : Heap} {S : RunSet} {q : Run} (hq : q ∈ S.runs) (hne : q ≠ r) :
      RunStep r heap S (.free q.start) (heapMarkBlocksFree heap q.start) (S.erase q)

/-- A series of them. -/
inductive RunSteps (r : Run) : Heap → RunSet → List RunOp → Heap → RunSet → Prop where
  | nil {heap : Heap} {S : RunSet} : RunSteps r heap S [] heap S
  | cons {heap heap' heap'' : Heap} {S S' S'' : RunSet} {op : RunOp} {ops : List RunOp}
      (hstep : RunStep r heap S op heap' S') (hrest : RunSteps r heap' S' ops heap'' S'') :
      RunSteps r heap S (op :: ops) heap'' S''

/-- `heap'` is `heap` without the run `r`. -/
structure Without (r : Run) (heap : Heap) (S : RunSet) (heap' : Heap) (S' : RunSet) : Prop where
  records : Records heap.table S
  mem : r ∈ S.runs
  records' : Records heap'.table S'
  runs : S'.runs = S.runs \ {r}
  total : heap'.table.totalEntries = heap.table.totalEntries
  small : heap.table.totalEntries ≤ 4294967296
  entries : ∀ i, heap'.table.entries i = if r.Has i then 0#8 else heap.table.entries i

section Without

variable {heap heap₁ heap' : Heap} {S S₁ S' : RunSet} {r : Run} {op : RunOp} {ops : List RunOp} {s k : Nat}

/-- What the marking of a run does to the rest of the table is what it does without the run `r`. -/
theorem Without.step (h : Without r heap S heap' S') (hstep : RunStep r heap S op heap₁ S₁) :
    ∃ heap₁' S₁', RunStep r heap' S' op heap₁' S₁' ∧ Without r heap₁ S₁ heap₁' S₁' := by
  cases hstep with
  | @mark s k hk hle hfree hap =>
      have hout : ∀ i, Run.Has ⟨s, k⟩ i → ¬ r.Has i := fun i hi => (hap r h.mem).not_has hi
      have hle' : s + k ≤ heap'.table.totalEntries := by rwa [h.total]
      have hfree' : heap'.table.FreeRun s k := by
        intro j hlo hhi
        unfold HeapTable.Free
        rw [h.entries j, if_neg (hout j ⟨hlo, hhi⟩)]
        exact hfree j hlo hhi
      have hsmall' : heap'.table.totalEntries ≤ 4294967296 := by
        rw [h.total]
        exact h.small
      have hap' := h.records'.apart_of_freeRun hk hle' hfree'
      refine ⟨_, _, .mark hk hle' hfree' hap', h.records.mark hk hle h.small hfree, ?_,
        h.records'.mark hk hle' hsmall' hfree', ?_, ?_, ?_, fun i => ?_⟩
      · exact RunSet.mem_insert.mpr (Or.inr h.mem)
      · have hne : (⟨s, k⟩ : Run) ∉ ({r} : Set Run) := by
          rintro rfl
          exact hout s ⟨Nat.le_refl s, Nat.lt_add_of_pos_right hk⟩ ⟨Nat.le_refl s, Nat.lt_add_of_pos_right hk⟩
        show Insert.insert _ S'.runs = Insert.insert _ S.runs \ {r}
        rw [h.runs, Set.insert_sdiff_of_notMem _ hne]
      · rw [heapMarkBlocksTaken_totalEntries, heapMarkBlocksTaken_totalEntries, h.total]
      · rw [heapMarkBlocksTaken_totalEntries]
        exact h.small
      · rw [h.records'.mark_entries hk hle' hsmall' hfree', h.records.mark_entries hk hle h.small hfree,
          h.entries i]
        by_cases hi : Run.Has ⟨s, k⟩ i
        · rw [if_pos hi, if_pos hi, if_neg (hout i hi)]
        · rw [if_neg hi, if_neg hi]
  | @free q hq hne =>
      have hq' : q ∈ S'.runs := by
        rw [h.runs]
        exact ⟨hq, hne⟩
      have hsmall' : heap'.table.totalEntries ≤ 4294967296 := by
        rw [h.total]
        exact h.small
      refine ⟨_, _, .free hq' hne, h.records.free hq h.small, ⟨h.mem, hne.symm⟩,
        h.records'.free hq' hsmall', ?_, ?_, ?_, fun i => ?_⟩
      · show S'.runs \ {q} = (S.runs \ {q}) \ {r}
        rw [h.runs, Set.sdiff_sdiff_comm]
      · rw [heapMarkBlocksFree_totalEntries, heapMarkBlocksFree_totalEntries, h.total]
      · rw [heapMarkBlocksFree_totalEntries]
        exact h.small
      · rw [h.records'.free_entries hq' hsmall', h.records.free_entries hq h.small, h.entries i]
        by_cases hi : q.Has i
        · rw [if_pos hi, if_pos hi, ite_self]
        · rw [if_neg hi, if_neg hi]

theorem Without.steps (h : Without r heap S heap' S') (hsteps : RunSteps r heap S ops heap₁ S₁) :
    ∃ heap₁' S₁', RunSteps r heap' S' ops heap₁' S₁' ∧ Without r heap₁ S₁ heap₁' S₁' := by
  induction hsteps generalizing heap' S' with
  | nil => exact ⟨heap', S', .nil, h⟩
  | cons hstep _ ih =>
      obtain ⟨heap₂, S₂, hstep', h₂⟩ := h.step hstep
      obtain ⟨heap₃, S₃, hrest, h₃⟩ := ih h₂
      exact ⟨heap₃, S₃, .cons hstep' hrest, h₃⟩

/-- A run that was just marked. -/
theorem Records.without (h : Records heap.table S) (hk : 0 < k) (hle : s + k ≤ heap.table.totalEntries)
    (hn : heap.table.totalEntries ≤ 4294967296) (hfree : heap.table.FreeRun s k) :
    Without ⟨s, k⟩ (heapMarkBlocksTaken heap s k)
      (S.insert ⟨s, k⟩ hk (h.apart_of_freeRun hk hle hfree)) heap S := by
  have hout : (⟨s, k⟩ : Run) ∉ S.runs := by
    intro hmem
    have hap := h.apart_of_freeRun hk hle hfree _ hmem
    exact hap.not_has (i := s) ⟨Nat.le_refl s, Nat.lt_add_of_pos_right hk⟩
      ⟨Nat.le_refl s, Nat.lt_add_of_pos_right hk⟩
  refine ⟨h.mark hk hle hn hfree, RunSet.mem_insert.mpr (Or.inl rfl), h, ?_, ?_, ?_, fun i => ?_⟩
  · show S.runs = Insert.insert _ S.runs \ {_}
    exact (Set.insert_sdiff_self_of_notMem hout).symm
  · rw [heapMarkBlocksTaken_totalEntries]
  · rwa [heapMarkBlocksTaken_totalEntries]
  · rw [h.mark_entries hk hle hn hfree i]
    by_cases hi : Run.Has ⟨s, k⟩ i
    · rw [if_pos hi]
      exact h.rest i (by simp only [Run.Has, Run.fin] at hi; omega)
        ((h.free_iff (by simp only [Run.Has, Run.fin] at hi; omega)).mp (hfree i hi.1 hi.2))
    · rw [if_neg hi, if_neg hi]

end Without

/-- Marking and freeing on a table that encodes the runs of `S`. -/
structure RunLaw (heap : Heap) (S : RunSet) : Prop where
  mark : ∀ s k, 1 ≤ k → s + k ≤ heap.table.totalEntries → heap.table.FreeRun s k →
    ∃ S', S'.runs = Insert.insert ⟨s, k⟩ S.runs ∧ Records (heapMarkBlocksTaken heap s k).table S'
  free : ∀ s k, ⟨s, k⟩ ∈ S.runs →
    ∃ S', S'.runs = S.runs \ {⟨s, k⟩} ∧ Records (heapMarkBlocksFree heap s).table S'
  /-- A run that is marked, and freed after a series of operations on other runs: the series alone leaves
      the same table. -/
  noTrace : ∀ s k, 1 ≤ k → s + k ≤ heap.table.totalEntries → heap.table.FreeRun s k →
    ∀ S' ops heap₁ S₁, S'.runs = Insert.insert ⟨s, k⟩ S.runs →
      RunSteps ⟨s, k⟩ (heapMarkBlocksTaken heap s k) S' ops heap₁ S₁ →
      ∃ heap₂ S₂, RunSteps ⟨s, k⟩ heap S ops heap₂ S₂ ∧ Records heap₂.table S₂ ∧
        S₂.runs = S₁.runs \ {⟨s, k⟩} ∧ ∀ i, i < heap.table.totalEntries →
          (heapMarkBlocksFree heap₁ s).table.entries i = heap₂.table.entries i

/-- **Marking and freeing are inverse on the runs of the table**, whatever is done to the other runs in
    between. -/
theorem heapRuns_law (heap : Heap) (S : RunSet) (hrecords : Records heap.table S)
    (htotal : heap.table.totalEntries < 4294967296) : RunLaw heap S where
  mark := fun _ _ hk hle hfree => ⟨_, rfl, hrecords.mark hk hle (Nat.le_of_lt htotal) hfree⟩
  free := fun _ _ hmem => ⟨_, rfl, hrecords.free hmem (Nat.le_of_lt htotal)⟩
  noTrace := by
    intro s k hk hle hfree S' ops heap₁ S₁ hruns hsteps
    have hset : S' = S.insert ⟨s, k⟩ hk (hrecords.apart_of_freeRun hk hle hfree) := RunSet.ext_runs hruns
    rw [hset] at hsteps
    obtain ⟨heap₂, S₂, hsteps', hwithout⟩ :=
      (hrecords.without hk hle (Nat.le_of_lt htotal) hfree).steps hsteps
    refine ⟨heap₂, S₂, hsteps', hwithout.records', hwithout.runs, fun i _ => ?_⟩
    rw [hwithout.entries i]
    exact hwithout.records.free_entries hwithout.mem hwithout.small i

/-- A cleared table of four entries. -/
def fourHeap : Heap where
  table := { entries := fun _ => heapBlockTableEntryFree, totalEntries := 4 }
  saddr := bimbleosHeapAddress

/-- Three runs are marked in it, and the one in the middle is freed again. -/
theorem heapRuns_law_four : ∃ S : RunSet, S.runs = {⟨3, 1⟩, ⟨0, 2⟩} ∧ RunLaw (heapMarkBlocksFree
    (heapMarkBlocksTaken (heapMarkBlocksTaken (heapMarkBlocksTaken fourHeap 0 2) 2 1) 3 1) 2) S := by
  have hfree : ∀ {heap : Heap} {b : Nat}, heap.table.Free b → heap.table.FreeRun b 1 := by
    intro heap b hb j hlo hhi
    obtain rfl : j = b := by omega
    exact hb
  have h₀ : Records fourHeap.table RunSet.empty := (Encodes.of_cleared fun _ _ => rfl).records
  have h₁ := h₀.mark (s := 0) (k := 2) (by decide) (by decide) (by decide) fun _ _ _ => (by decide :
    heapGetEntryType heapBlockTableEntryFree = heapBlockTableEntryFree)
  have h₂ := h₁.mark (s := 2) (k := 1) (by decide) (by decide) (by decide) (hfree (by decide))
  have h₃ := h₂.mark (s := 3) (k := 1) (by decide) (by decide) (by decide) (hfree (by decide))
  have h₄ := h₃.free (r := ⟨2, 1⟩) (RunSet.mem_insert.mpr (Or.inr (RunSet.mem_insert.mpr (Or.inl rfl)))) (by decide)
  refine ⟨_, ?_, heapRuns_law _ _ h₄ (by decide)⟩
  ext r
  rw [RunSet.mem_erase, RunSet.mem_insert, RunSet.mem_insert, RunSet.mem_insert, Set.mem_insert_iff,
    Set.mem_singleton_iff]
  constructor
  · rintro ⟨rfl | rfl | rfl | hnone, hne⟩
    · exact Or.inl rfl
    · exact absurd rfl hne
    · exact Or.inr rfl
    · exact absurd hnone (Set.notMem_empty r)
  · rintro (rfl | rfl)
    · exact ⟨Or.inl rfl, by decide⟩
    · exact ⟨Or.inr (Or.inr (Or.inl rfl)), by decide⟩

/-! ## Sizes and addresses -/

/-- The number of blocks `heap_malloc` asks for. -/
def heapBlocks (size : Nat) : Nat := heapAlignValueToUpper size / bimbleosHeapBlockSize

/-- Up to `0xFFFFF000` bytes the request is rounded up to whole blocks. -/
theorem heapBlocks_of_le {size : Nat} (h₁ : 1 ≤ size) (h₂ : size ≤ 0xFFFFF000) :
    0 < heapBlocks size ∧ size ≤ 4096 * heapBlocks size ∧ 4096 * heapBlocks size < size + 4096 := by
  unfold heapBlocks heapAlignValueToUpper bimbleosHeapBlockSize
  split
  · omega
  · rw [u32_natCast]; omega

/-- Above that the rounding wraps to 0 and no block is asked for. -/
theorem heapBlocks_of_gt {size : Nat} (h₁ : 0xFFFFF000 < size) (h₂ : size < 4294967296) :
    heapBlocks size = 0 := by
  unfold heapBlocks heapAlignValueToUpper bimbleosHeapBlockSize
  rw [if_neg (by omega), u32_natCast]; omega

theorem heapBlocks_lt (size : Nat) (h : size < 4294967296) : heapBlocks size < 1048576 := by
  unfold heapBlocks heapAlignValueToUpper bimbleosHeapBlockSize
  split
  · omega
  · rw [u32_natCast]; omega

theorem heapMalloc_eq (heap : Heap) (size : Nat) :
    heapMalloc heap size = heapMallocBlocks heap (heapBlocks size) := rfl

theorem heapBlockToAddress_eq {heap : Heap} {s : Nat} (h : heap.saddr + 4096 * s < 4294967296) :
    heapBlockToAddress heap (s : Int) = heap.saddr + 4096 * s := by
  unfold heapBlockToAddress bimbleosHeapBlockSize u32; omega

theorem heapAddressToBlock_eq {heap : Heap} {s : Nat} (h : s < 524288) :
    heapAddressToBlock heap (heap.saddr + 4096 * s) = s := by
  have hdist : s32 ((heap.saddr + 4096 * s : Nat) - heap.saddr) = 4096 * s := by
    unfold s32; omega
  unfold heapAddressToBlock bimbleosHeapBlockSize
  rw [hdist, Int.tdiv_eq_ediv_of_nonneg (by omega)]
  omega

end BimbleOS
