import BimbleOS.Task.Isolation

/-!
# `Task.IsolationRuns` — histories of `malloc` and `free` calls

`MallocInv` ties the heap table, the allocation tables and the page directories together through the runs
of the heap: every run has at most one owner, and a process can write to the heap pages of its own runs
only. Each call keeps it, except a `malloc` that `MallocOk` excludes: there the heap hands out blocks that
its table does not record.
-/

namespace BimbleOS

open CWord Bytes BlockRuns Exec Transition

/-! ## The invariant -/

/-- **The invariant.** `own p r` says that process `p` was given run `r` before the history began. -/
structure MallocInv (own : Nat → Run → Prop) (S : RunSet) (s : MallocState) : Prop where
  heap : KernelHeap s.kernel.heap
  enc : Encodes s.kernel.heap.table S
  tables : DirsOk s.kernel.pages s.kernel.IsDirectory
  directories : ∀ p q, s.kernel.Live p → s.kernel.Live q →
    s.kernel.directoryOf p = s.kernel.directoryOf q → p = q
  ownRun : ∀ p r, s.kernel.Live p → own p r → r ∈ S.runs
  ownApart : ∀ p q r, s.kernel.Live p → s.kernel.Live q → own p r → own q r → p = q
  slots : ∀ p i, s.kernel.Live p → i < bimbleosMaxProgramAllocations →
    (s.kernel.process p).allocations i = {} ∨
      ∃ r, r ∈ S.runs ∧ SlotHolds ((s.kernel.process p).allocations i) r ∧
        ∀ q, s.kernel.Live q → ¬ own q r
  slotsApart : ∀ p q i j, s.kernel.Live p → s.kernel.Live q → i < bimbleosMaxProgramAllocations →
    j < bimbleosMaxProgramAllocations → ((s.kernel.process p).allocations i).ptr ≠ 0 →
    ((s.kernel.process p).allocations i).ptr = ((s.kernel.process q).allocations j).ptr → p = q ∧ i = j
  writable : ∀ p page, s.kernel.Live p → IsPage page → UserWritable (s.kernel.entry p page) →
    HeapPage (frameOf (s.kernel.entry p page)) →
      (∃ r, own p r ∧ r.Has (heapBlockOf (frameOf (s.kernel.entry p page)))) ∨
        (frameOf (s.kernel.entry p page) = page ∧ ∃ r, s.kernel.Holds p r ∧ r.Has (heapBlockOf page))
  mapped : ∀ p page, s.kernel.Live p → IsPage page → s.mapped p page →
    UserWritable (s.kernel.entry p page) →
      frameOf (s.kernel.entry p page) = page ∧ HeapPage page ∧
        ∃ r, s.kernel.Holds p r ∧ r.Has (heapBlockOf page)

/-! ## What the two calls preserve -/

/-- The pages of a run are the heap pages of its blocks. -/
theorem inRun_iff {r : Run} {page : Nat} (hfin : r.fin ≤ 25600) :
    runAddress r ≤ page ∧ page < runAddress r + 4096 * r.len ↔
      HeapPage page ∧ r.Has (heapBlockOf page) := by
  unfold HeapPage Run.Has heapBlockOf runAddress bimbleosHeapAddress bimbleosHeapSizeBytes
  unfold Run.fin at hfin ⊢
  omega

theorem Kernel.directoryOf_afterMalloc (k : Kernel) (p size : Nat) (r : Run) (i : Nat) (m : Mem) (q : Nat) :
    (k.afterMalloc p size r i m).directoryOf q = k.directoryOf q := by
  unfold Kernel.afterMalloc Kernel.directoryOf
  by_cases h : q = p
  · subst h
    simp only [Function.update_self]
  · simp only [Function.update_of_ne h]

theorem Kernel.directoryOf_afterFree (k : Kernel) (p : Nat) (r : Run) (q : Nat) :
    (k.afterFree p r).directoryOf q = k.directoryOf q := by
  unfold Kernel.afterFree Kernel.directoryOf
  by_cases h : q = p
  · subst h
    simp only [Function.update_self]
    rfl
  · simp only [Function.update_of_ne h]

/-- The slots after `process_malloc`. -/
theorem Kernel.allocations_afterMalloc (k : Kernel) (p size : Nat) (r : Run) (i : Nat) (m : Mem)
    (q j : Nat) : ((k.afterMalloc p size r i m).process q).allocations j
      = if q = p ∧ j = i then ⟨runAddress r, size⟩ else (k.process q).allocations j := by
  unfold Kernel.afterMalloc
  by_cases h : q = p
  · subst h
    by_cases hj : j = i
    · subst hj
      simp only [Function.update_self, and_self, if_true]
    · simp only [Function.update_self, Function.update_of_ne hj, hj, and_false, if_false]
  · simp only [Function.update_of_ne h, h, false_and, if_false]

/-- The slots after `process_free`. -/
theorem Kernel.allocations_afterFree (k : Kernel) (p : Nat) (r : Run) (q j : Nat) :
    ((k.afterFree p r).process q).allocations j
      = if q = p ∧ j < bimbleosMaxProgramAllocations ∧ ((k.process p).allocations j).ptr = runAddress r
        then {} else (k.process q).allocations j := by
  unfold Kernel.afterFree
  by_cases h : q = p
  · subst h
    simp only [Function.update_self, true_and]
    rfl
  · simp only [Function.update_of_ne h, h, false_and, if_false]

section Invariant

variable {own : Nat → Run → Prop} {S : RunSet} {s : MallocState}

/-- After one run was mapped for one process. -/
theorem MallocInv.entry_setRun (h : MallocInv own S s) {k' : Kernel} {p : Nat} {r : Run}
    {flags : BitVec 32} (hp : s.kernel.Live p) (hfin : r.fin ≤ 25600)
    (hpages : k'.pages = s.kernel.pages.setRun (s.kernel.directoryOf p) r flags)
    (hdir : ∀ q, k'.directoryOf q = s.kernel.directoryOf q) {q page : Nat} (hq : s.kernel.Live q)
    (hpage : IsPage page) :
    k'.entry q page = if q = p ∧ HeapPage page ∧ r.Has (heapBlockOf page) then
        BitVec.ofNat 32 page ||| flags else s.kernel.entry q page := by
  have hentry := (@DirsOk.setRun _ _ (s.kernel.directoryOf p) r flags h.tables ⟨p, hp, rfl⟩ hfin).2
    (s.kernel.directoryOf q) page ⟨q, hq, rfl⟩ hpage
  unfold Kernel.entry
  rw [hpages, hdir q, hentry]
  have hsame : s.kernel.directoryOf q = s.kernel.directoryOf p ↔ q = p :=
    ⟨h.directories q p hq hp, fun heq => heq ▸ rfl⟩
  simp only [hsame, inRun_iff hfin]

/-- The runs that a process holds through its table are runs of the heap, and nobody's from before. -/
theorem MallocInv.holds (h : MallocInv own S s) {p : Nat} {r : Run} (hp : s.kernel.Live p)
    (hholds : s.kernel.Holds p r) : r ∈ S.runs ∧ ∀ q, s.kernel.Live q → ¬ own q r := by
  obtain ⟨i, hi, hslot⟩ := hholds
  rcases h.slots p i hp hi with hempty | ⟨r', hr', hslot', hown⟩
  · rw [hempty] at hslot
    exact absurd rfl hslot.ptr_ne_zero
  · have hstart : r.start = r'.start := by
      have hptr := hslot.ptr
      have hptr' := hslot'.ptr
      omega
    have hlen : r.len = r'.len := by
      have h₁ := hslot.fits
      have h₂ := hslot.tight
      have h₃ := hslot'.fits
      have h₄ := hslot'.tight
      omega
    have hrun : r = r' := by
      cases r
      cases r'
      exact congrArg₂ Run.mk hstart hlen
    exact hrun ▸ ⟨hr', hown⟩

/-- A run is held by one process at most. -/
theorem MallocInv.holds_unique (h : MallocInv own S s) {p q : Nat} {r : Run} (hp : s.kernel.Live p)
    (hq : s.kernel.Live q) (hpr : s.kernel.Holds p r) (hqr : s.kernel.Holds q r) : p = q := by
  obtain ⟨i, hi, hslot⟩ := hpr
  obtain ⟨j, hj, hslot'⟩ := hqr
  exact (h.slotsApart p q i j hp hq hi hj hslot.ptr_ne_zero (hslot.ptr.trans hslot'.ptr.symm)).1

theorem MallocInv.run_le (h : MallocInv own S s) {r : Run} (hr : r ∈ S.runs) : r.fin ≤ 25600 := by
  have hbound := h.enc.bound r hr
  rwa [h.heap.total] at hbound

/-- **No heap page is writable for two processes** under the invariant: it would lie in a run of both. -/
theorem MallocInv.isolated (h : MallocInv own S s) : Isolated s.kernel := by
  intro p q hp hq hne v w hv hw hpv hqw hheap heq
  have hrun : ∀ p page, s.kernel.Live p → IsPage page → UserWritable (s.kernel.entry p page) →
      HeapPage (frameOf (s.kernel.entry p page)) →
      ∃ r ∈ S.runs, r.Has (heapBlockOf (frameOf (s.kernel.entry p page))) ∧
        (own p r ∨ s.kernel.Holds p r) := by
    intro p page hp hpage hwritable hheap
    rcases h.writable p page hp hpage hwritable hheap with ⟨r, hown, hhas⟩ | ⟨hframe, r, hholds, hhas⟩
    · exact ⟨r, h.ownRun p r hp hown, hhas, Or.inl hown⟩
    · rw [hframe]
      exact ⟨r, (h.holds hp hholds).1, hhas, Or.inr hholds⟩
  obtain ⟨r, hr, hhas, hpr⟩ := hrun p v hp hv hpv hheap
  obtain ⟨r', hr', hhas', hqr⟩ := hrun q w hq hw hqw (heq ▸ hheap)
  rw [← heq] at hhas'
  obtain rfl := RunSet.eq_of_has hr hr' hhas hhas'
  rcases hpr with hpr | hpr <;> rcases hqr with hqr | hqr
  · exact hne (h.ownApart p q r hp hq hpr hqr)
  · exact (h.holds hq hqr).2 p hp hpr
  · exact (h.holds hp hpr).2 q hq hqr
  · exact hne (h.holds_unique hp hq hpr hqr)

theorem MallocInv.owned (h : MallocInv own S s) : MallocOwned s := by
  intro p page hp hpage hmapped hwritable
  obtain ⟨hframe, hheap, r, hholds, hhas⟩ := h.mapped p page hp hpage hmapped hwritable
  obtain ⟨hr, _⟩ := h.holds hp hholds
  rw [hframe]
  exact ⟨hheap, r, hholds, ⟨S.pos r hr, h.enc.bound r hr, h.enc.run r hr⟩, hhas⟩

/-- Runs with one address are one run. -/
theorem run_eq_of_address {r r' : Run} (hr : r ∈ S.runs) (hr' : r' ∈ S.runs)
    (h : runAddress r = runAddress r') : r = r' := by
  have hpos := S.pos r hr
  have hpos' := S.pos r' hr'
  have hstart : r.start = r'.start := by
    unfold runAddress at h
    omega
  refine RunSet.eq_of_has hr hr' (i := r.start) ?_ ?_
  · unfold Run.Has Run.fin
    omega
  · unfold Run.Has Run.fin
    omega

/-- The slot that is filled was free, so no run is given up. -/
theorem Kernel.Holds.afterMalloc {k : Kernel} {p q size i : Nat} {r r' : Run} {m : Mem}
    (hfree : ((k.process p).allocations i).ptr = 0) (h : k.Holds q r') :
    (k.afterMalloc p size r i m).Holds q r' := by
  obtain ⟨j, hj, hslot⟩ := h
  refine ⟨j, hj, ?_⟩
  rw [Kernel.allocations_afterMalloc, if_neg ?_]
  · exact hslot
  · rintro ⟨rfl, rfl⟩
    exact hslot.ptr_ne_zero hfree

/-- **What a successful `malloc` preserves.** -/
theorem MallocInv.afterMalloc (h : MallocInv own S s) {p size i : Nat} {r : Run} {m : Mem}
    {hpos : 0 < r.len} {hap : ∀ q ∈ S.runs, r.Apart q} (hp : s.kernel.Live p) (hfin : r.fin ≤ 25600)
    (hslot : SlotHolds ⟨runAddress r, size⟩ r) (hi : i < bimbleosMaxProgramAllocations)
    (hfree : ((s.kernel.process p).allocations i).ptr = 0)
    (henc : Encodes (heapMarkBlocksTaken s.kernel.heap r.start r.len).table (S.insert r hpos hap)) :
    MallocInv own (S.insert r hpos hap) ⟨s.kernel.afterMalloc p size r i m, fun q page =>
      s.mapped q page ∨ q = p ∧ runAddress r ≠ 0 ∧ runAddress r ≤ page ∧ page < runAddress r + size⟩ := by
  have hnew : r ∉ S.runs := fun hr => by
    have hself := hap r hr
    unfold Run.Apart Run.fin at hself
    omega
  have hin : ∀ r' ∈ S.runs, r' ∈ (S.insert r hpos hap).runs := fun r' hr' =>
    RunSet.mem_insert.mpr (Or.inr hr')
  have hentry : ∀ q page, s.kernel.Live q → IsPage page → _ := fun q page hq hpage =>
    @MallocInv.entry_setRun own S s h (s.kernel.afterMalloc p size r i m) p r processMallocFlags hp hfin
      rfl (s.kernel.directoryOf_afterMalloc p size r i m) q page hq hpage
  have hholds : (s.kernel.afterMalloc p size r i m).Holds p r := by
    refine ⟨i, hi, ?_⟩
    rw [Kernel.allocations_afterMalloc, if_pos ⟨rfl, rfl⟩]
    exact hslot
  -- a page of the new run is mapped onto itself
  have hrun : ∀ q page, s.kernel.Live q → IsPage page →
      q = p ∧ HeapPage page ∧ r.Has (heapBlockOf page) →
      frameOf ((s.kernel.afterMalloc p size r i m).entry q page) = page := by
    intro q page hq hpage hc
    rw [hentry q page hq hpage, if_pos hc]
    exact frameOf_run hpage (by decide)
  refine
    { heap := h.heap.mark r.start r.len, enc := henc, tables := ?_, directories := ?_, ownRun := ?_,
      ownApart := h.ownApart, slots := ?_, slotsApart := ?_, writable := ?_, mapped := ?_ }
  · have hok := (@DirsOk.setRun _ _ (s.kernel.directoryOf p) r processMallocFlags h.tables ⟨p, hp, rfl⟩
      hfin).1
    have hsame : (s.kernel.afterMalloc p size r i m).IsDirectory = s.kernel.IsDirectory := by
      funext d
      unfold Kernel.IsDirectory
      simp only [Kernel.directoryOf_afterMalloc]
      rfl
    exact hsame ▸ hok
  · intro q q' hq hq' heq
    simp only [Kernel.directoryOf_afterMalloc] at heq
    exact h.directories q q' hq hq' heq
  · exact fun q r' hq hown => hin r' (h.ownRun q r' hq hown)
  · intro q j hq hj
    simp only [Kernel.allocations_afterMalloc]
    by_cases hc : q = p ∧ j = i
    · rw [if_pos hc]
      exact Or.inr ⟨r, RunSet.mem_insert.mpr (Or.inl rfl), hslot,
        fun q' hq' hown => hnew (h.ownRun q' r hq' hown)⟩
    · rw [if_neg hc]
      refine (h.slots q j hq hj).imp id ?_
      rintro ⟨r', hr', hrest⟩
      exact ⟨r', hin r' hr', hrest⟩
  · intro q q' j j' hq hq' hj hj' hne heq
    simp only [Kernel.allocations_afterMalloc] at hne heq
    -- an old slot never holds the address of the new run
    have hold : ∀ q j, s.kernel.Live q → j < bimbleosMaxProgramAllocations →
        ((s.kernel.process q).allocations j).ptr ≠ runAddress r := by
      intro q j hq hj hsame
      rcases h.slots q j hq hj with hempty | ⟨r', hr', hslot', _⟩
      · rw [hempty] at hsame
        exact hslot.ptr_ne_zero hsame.symm
      · have hr := hin r' hr'
        have heq := run_eq_of_address hr (RunSet.mem_insert.mpr (Or.inl rfl)) (hslot'.ptr.symm.trans hsame)
        exact hnew (heq ▸ hr')
    by_cases hc : q = p ∧ j = i
    · by_cases hc' : q' = p ∧ j' = i
      · exact ⟨hc.1.trans hc'.1.symm, hc.2.trans hc'.2.symm⟩
      · rw [if_pos hc, if_neg hc'] at heq
        exact absurd heq.symm (hold q' j' hq' hj')
    · by_cases hc' : q' = p ∧ j' = i
      · rw [if_neg hc, if_pos hc'] at heq
        exact absurd heq (hold q j hq hj)
      · rw [if_neg hc] at hne heq
        rw [if_neg hc'] at heq
        exact h.slotsApart q q' j j' hq hq' hj hj' hne heq
  · intro q page hq hpage hwritable hheap
    by_cases hc : q = p ∧ HeapPage page ∧ r.Has (heapBlockOf page)
    · exact Or.inr ⟨hrun q page hq hpage hc, r, hc.1 ▸ hholds, hc.2.2⟩
    · simp only [hentry q page hq hpage, if_neg hc] at hwritable hheap ⊢
      refine (h.writable q page hq hpage hwritable hheap).imp id ?_
      rintro ⟨hframe, r', hholds', hhas⟩
      exact ⟨hframe, r', hholds'.afterMalloc hfree, hhas⟩
  · intro q page hq hpage hmapped hwritable
    by_cases hc : q = p ∧ HeapPage page ∧ r.Has (heapBlockOf page)
    · exact ⟨hrun q page hq hpage hc, hc.2.1, r, hc.1 ▸ hholds, hc.2.2⟩
    · rcases hmapped with hmapped | ⟨hqp, _, hle, hlt⟩
      · simp only [hentry q page hq hpage, if_neg hc] at hwritable ⊢
        obtain ⟨hframe, hheap, r', hholds', hhas⟩ := h.mapped q page hq hpage hmapped hwritable
        exact ⟨hframe, hheap, r', hholds'.afterMalloc hfree, hhas⟩
      · have hfits := hslot.fits
        exact absurd ⟨hqp, (inRun_iff hfin).mp ⟨hle, by simp only at hfits; omega⟩⟩ hc

/-- A run that is not freed stays with its process. -/
theorem Kernel.Holds.afterFree {k : Kernel} {p q : Nat} {r r' : Run} (h : k.Holds q r')
    (hne : runAddress r' ≠ runAddress r) : (k.afterFree p r).Holds q r' := by
  obtain ⟨j, hj, hslot⟩ := h
  refine ⟨j, hj, ?_⟩
  rw [Kernel.allocations_afterFree, if_neg ?_]
  · exact hslot
  · rintro ⟨rfl, _, hptr⟩
    exact hne (hslot.ptr.symm.trans hptr)

/-- **What freeing a run preserves.** -/
theorem MallocInv.afterFree (h : MallocInv own S s) {p i : Nat} {r : Run} (hp : s.kernel.Live p)
    (hi : i < bimbleosMaxProgramAllocations)
    (hslot : SlotHolds ((s.kernel.process p).allocations i) r) :
    MallocInv own (S.erase r) ⟨s.kernel.afterFree p r, s.mapped⟩ := by
  have hpr : s.kernel.Holds p r := ⟨i, hi, hslot⟩
  obtain ⟨hr, hnotOwn⟩ := h.holds hp hpr
  have hfin := h.run_le hr
  have hentry : ∀ q page, s.kernel.Live q → IsPage page → _ := fun q page hq hpage =>
    @MallocInv.entry_setRun own S s h (s.kernel.afterFree p r) p r 0x00 hp hfin rfl
      (s.kernel.directoryOf_afterFree p r) q page hq hpage
  -- a page that is still writable is not of the run, or of another process
  have hkept : ∀ q page, s.kernel.Live q → IsPage page →
      UserWritable ((s.kernel.afterFree p r).entry q page) →
      (s.kernel.afterFree p r).entry q page = s.kernel.entry q page ∧
        ¬ (q = p ∧ HeapPage page ∧ r.Has (heapBlockOf page)) := by
    intro q page hq hpage hwritable
    rw [hentry q page hq hpage] at hwritable ⊢
    by_cases hc : q = p ∧ HeapPage page ∧ r.Has (heapBlockOf page)
    · rw [if_pos hc, userWritable_run hpage] at hwritable
      exact absurd hwritable (by decide)
    · exact ⟨if_neg hc, hc⟩
  -- its run is another one, and still held
  have hstill : ∀ q page r', s.kernel.Live q →
      ¬ (q = p ∧ HeapPage page ∧ r.Has (heapBlockOf page)) → HeapPage page → s.kernel.Holds q r' →
      r'.Has (heapBlockOf page) → (s.kernel.afterFree p r).Holds q r' := by
    intro q page r' hq hc hheap hholds hhas
    refine hholds.afterFree fun heq => ?_
    obtain rfl := run_eq_of_address (h.holds hq hholds).1 hr heq
    exact hc ⟨h.holds_unique hq hp hholds hpr, hheap, hhas⟩
  refine
    { heap := h.heap.free (runAddress r), enc := ?_, tables := ?_, directories := ?_, ownRun := ?_,
      ownApart := h.ownApart, slots := ?_, slotsApart := ?_, writable := ?_, mapped := ?_ }
  · have hfreed := heapFree_of_run h.enc hr (by rw [h.heap.total]; decide)
    rw [h.heap.start] at hfreed
    exact hfreed
  · have hok := (@DirsOk.setRun _ _ (s.kernel.directoryOf p) r 0x00 h.tables ⟨p, hp, rfl⟩ hfin).1
    have hsame : (s.kernel.afterFree p r).IsDirectory = s.kernel.IsDirectory := by
      funext d
      unfold Kernel.IsDirectory
      simp only [Kernel.directoryOf_afterFree]
      rfl
    exact hsame ▸ hok
  · intro q q' hq hq' heq
    simp only [Kernel.directoryOf_afterFree] at heq
    exact h.directories q q' hq hq' heq
  · intro q r' hq hown
    refine RunSet.mem_erase.mpr ⟨h.ownRun q r' hq hown, ?_⟩
    rintro rfl
    exact hnotOwn q hq hown
  · intro q j hq hj
    simp only [Kernel.allocations_afterFree]
    by_cases hc : q = p ∧ j < bimbleosMaxProgramAllocations ∧
        ((s.kernel.process p).allocations j).ptr = runAddress r
    · exact Or.inl (if_pos hc)
    · rw [if_neg hc]
      refine (h.slots q j hq hj).imp id fun ⟨r', hr', hslot', hown⟩ => ⟨r', ?_, hslot', hown⟩
      refine RunSet.mem_erase.mpr ⟨hr', ?_⟩
      rintro rfl
      obtain rfl := h.holds_unique hq hp ⟨j, hj, hslot'⟩ hpr
      exact hc ⟨rfl, hj, hslot'.ptr⟩
  · intro q q' j j' hq hq' hj hj' hne heq
    simp only [Kernel.allocations_afterFree] at hne heq
    by_cases hc : q = p ∧ j < bimbleosMaxProgramAllocations ∧
        ((s.kernel.process p).allocations j).ptr = runAddress r
    · rw [if_pos hc] at hne
      exact absurd rfl hne
    · rw [if_neg hc] at hne heq
      by_cases hc' : q' = p ∧ j' < bimbleosMaxProgramAllocations ∧
          ((s.kernel.process p).allocations j').ptr = runAddress r
      · rw [if_pos hc'] at heq
        exact absurd heq hne
      · rw [if_neg hc'] at heq
        exact h.slotsApart q q' j j' hq hq' hj hj' hne heq
  · intro q page hq hpage hwritable hheap
    obtain ⟨hsame, hc⟩ := hkept q page hq hpage hwritable
    rw [hsame] at hwritable hheap ⊢
    rcases h.writable q page hq hpage hwritable hheap with hown | ⟨hframe, r', hholds, hhas⟩
    · exact Or.inl hown
    · rw [hframe] at hheap
      exact Or.inr ⟨hframe, r', hstill q page r' hq hc hheap hholds hhas, hhas⟩
  · intro q page hq hpage hmapped hwritable
    obtain ⟨hsame, hc⟩ := hkept q page hq hpage hwritable
    rw [hsame] at hwritable ⊢
    obtain ⟨hframe, hheap, r', hholds, hhas⟩ := h.mapped q page hq hpage hmapped hwritable
    exact ⟨hframe, hheap, r', hstill q page r' hq hc hheap hholds hhas, hhas⟩

/-- **What one call under its condition preserves.** -/
theorem MallocInv.step {s' : MallocState} {call : Nat × MallocCall} (h : MallocInv own S s)
    (hok : MallocCall.Ok s call) (hstep : MallocStep s call s') : ∃ S', MallocInv own S' s' := by
  cases hstep with
  | malloc hlive hsize hrun =>
      rcases processMalloc_run h.enc h.heap hsize hok hrun with
        ⟨rfl, heap, m, hheap, henc, rfl⟩ | ⟨r, hpos, hap, i, m, rfl, hslot, hfin, henc, hi, hfree, rfl⟩
      · refine ⟨S, { h with heap := hheap, enc := henc, mapped := fun q page hq hpage hmapped => ?_ }⟩
        rcases hmapped with hmapped | ⟨_, hne, _⟩
        · exact h.mapped q page hq hpage hmapped
        · exact absurd rfl hne
      · exact ⟨_, h.afterMalloc hlive hfin hslot hi hfree henc⟩
  | @free p ptr k hlive hptr hrun =>
      have hslots : ∀ i, i < bimbleosMaxProgramAllocations →
          (s.kernel.process p).allocations i = {} ∨
            ∃ r : Run, r.fin ≤ 25600 ∧ SlotHolds ((s.kernel.process p).allocations i) r := fun i hi =>
        (h.slots p i hlive hi).imp id fun ⟨r, hr, hslot, _⟩ => ⟨r, h.run_le hr, hslot⟩
      rcases processFree_run h.heap hslots hrun with rfl | ⟨i, r, hi, _, hslot, rfl⟩
      · exact ⟨S, h⟩
      · exact ⟨_, h.afterFree hlive hi hslot⟩

end Invariant

/-- A start state satisfies the invariant: every process owns its image and its stack. -/
theorem MallocStart.inv {image stack : Nat → Run} {s : MallocState} (h : MallocStart image stack s) :
    ∃ S, MallocInv (fun p r => r = image p ∨ r = stack p) S s := by
  obtain ⟨S, henc, hruns⟩ := h.runs
  refine ⟨S,
    { heap := h.heap, enc := henc, tables := h.tables, directories := h.directories, ownRun := ?_,
      ownApart := ?_, slots := fun p i hp _ => Or.inl (h.allocations p i hp), slotsApart := ?_,
      writable := ?_, mapped := fun p page _ _ hmapped => absurd hmapped (h.mapped p page) }⟩
  · rintro p r hp (rfl | rfl)
    · exact (hruns p hp).1
    · exact (hruns p hp).2
  · rintro p q r hp hq (hpr | hpr) (hqr | hqr)
    · exact h.imageApart p q hp hq (hpr.symm.trans hqr)
    · exact absurd (hpr.symm.trans hqr) (h.imageStack p q hp hq)
    · exact absurd (hqr.symm.trans hpr) (h.imageStack q p hq hp)
    · exact h.stackApart p q hp hq (hpr.symm.trans hqr)
  · intro p q i j hp _ _ _ hne
    rw [h.allocations p i hp] at hne
    exact absurd rfl hne
  · intro p page hp hpage hwritable hheap
    rcases h.writable p page hp hpage hwritable hheap with hhas | hhas
    · exact Or.inl ⟨image p, Or.inl rfl, hhas⟩
    · exact Or.inl ⟨stack p, Or.inr rfl, hhas⟩

/-- **Processes stay apart** in every history all of whose `malloc` calls ask for something the heap has,
    or come when its last block is taken: no heap page is writable for two processes, and what `malloc`
    has mapped belongs to a recorded allocation. -/
theorem mallocHistory_isolated {image stack : Nat → Run} {s₀ s : MallocState}
    {tr : List (MallocState × (Nat × MallocCall))} (h₀ : MallocStart image stack s₀)
    (hrun : Trace MallocStep s₀ tr s) (hok : ∀ q ∈ tr, MallocCall.Ok q.1 q.2) :
    Throughout (fun s => Isolated s.kernel ∧ MallocOwned s) tr s := by
  have hinv : Throughout (fun s => ∃ S, MallocInv (fun p r => r = image p ∨ r = stack p) S s) tr s :=
    Trace.invariant (fun s call s' ⟨_, hs⟩ hcall hstep => hs.step hcall hstep) h₀.inv hrun hok
  exact hinv.imp fun s ⟨_, hs⟩ => ⟨hs.isolated, hs.owned⟩

/-! Two processes: an image of one block and a stack of four each, then their page directories, their
process structures and their tasks; the rest of the heap is free. -/

/-- The run that heap block `i` belongs to. -/
def twoRun (i : Nat) : Run :=
  if 1 ≤ i ∧ i < 5 then ⟨1, 4⟩
  else if 6 ≤ i ∧ i < 10 then ⟨6, 4⟩
  else if 2062 ≤ i ∧ i < 2065 then ⟨2062, 3⟩
  else if 2065 ≤ i ∧ i < 2068 then ⟨2065, 3⟩
  else ⟨i, 1⟩

def twoHeap : Heap where
  saddr := bimbleosHeapAddress
  table := { entries := fun i => if i < 2070 then runByte (twoRun i) i else 0#8, totalEntries := 25600 }

/-- The address of heap block `i`. -/
def heapAt (i : Nat) : Nat := bimbleosHeapAddress + 4096 * i

/-- The page entries of a process: its image, its stack, and everything else readable at its place. -/
def pageWord (image stack page : Nat) : BitVec 32 :=
  if page = 0x400000 then BitVec.ofNat 32 image ||| 7#32
  else if 0x3FB000 ≤ page ∧ page < 0x3FF000 then BitVec.ofNat 32 (stack + (page - 0x3FB000)) ||| 7#32
  else BitVec.ofNat 32 page ||| 5#32

/-- The words of the page directory at block `base`, with its 1024 tables behind it. -/
def directoryWord (base image stack a : Nat) : BitVec 32 :=
  if a = heapAt base then BitVec.ofNat 32 (heapAt (base + 1))
  else if a < heapAt (base + 2) then
    BitVec.ofNat 32 (heapAt (base + 2) + 1024 * (a - heapAt (base + 1))) ||| 7#32
  else pageWord image stack ((a - heapAt (base + 2)) / 4 * 4096)

def twoPages : PageStore where
  word := fun a =>
    if heapAt 10 ≤ a ∧ a < heapAt 1036 then directoryWord 10 (heapAt 0) (heapAt 1) a
    else directoryWord 1036 (heapAt 5) (heapAt 6) a

def twoTasks : TaskList where
  task := fun a => if a = heapAt 2068 then { pageDirectory := heapAt 10, process := heapAt 2062 }
    else { pageDirectory := heapAt 1036, process := heapAt 2065 }

def twoKernel : Kernel where
  heap := twoHeap
  memory := fun _ => 0
  pages := twoPages
  tasks := twoTasks
  process := fun p => if p = heapAt 2062 then { task := heapAt 2068 } else { id := 1, task := heapAt 2069 }
  processes := fun i => if i = 0 then heapAt 2062 else if i = 1 then heapAt 2065 else 0
  fileDescriptors := fun _ => none

theorem twoKernel_live {p : Nat} : twoKernel.Live p ↔ p = heapAt 2062 ∨ p = heapAt 2065 := by
  constructor
  · rintro ⟨hne, i, _, hi⟩
    simp only [twoKernel] at hi
    split at hi
    · exact Or.inl hi.symm
    · split at hi
      · exact Or.inr hi.symm
      · exact absurd hi.symm hne
  · rintro (rfl | rfl)
    · exact ⟨by decide, 0, by decide, rfl⟩
    · exact ⟨by decide, 1, by decide, rfl⟩

theorem twoRun_has (i : Nat) : (twoRun i).Has i := by
  unfold twoRun Run.Has Run.fin
  repeat' split
  all_goals simp only; omega

theorem twoRun_run (i : Nat) (hi : i < 2070) (j : Nat) (hj : (twoRun i).Has j) :
    j < 2070 ∧ twoRun j = twoRun i := by
  unfold Run.Has Run.fin at hj
  unfold twoRun at hj ⊢
  by_cases h₁ : 1 ≤ i ∧ i < 5
  · simp only [if_pos h₁] at hj ⊢
    exact ⟨by omega, if_pos hj⟩
  · by_cases h₂ : 6 ≤ i ∧ i < 10
    · simp only [if_neg h₁, if_pos h₂] at hj ⊢
      exact ⟨by omega, by rw [if_neg (by omega), if_pos hj]⟩
    · by_cases h₃ : 2062 ≤ i ∧ i < 2065
      · simp only [if_neg h₁, if_neg h₂, if_pos h₃] at hj ⊢
        exact ⟨by omega, by rw [if_neg (by omega), if_neg (by omega), if_pos hj]⟩
      · by_cases h₄ : 2065 ≤ i ∧ i < 2068
        · simp only [if_neg h₁, if_neg h₂, if_neg h₃, if_pos h₄] at hj ⊢
          exact ⟨by omega, by rw [if_neg (by omega), if_neg (by omega), if_neg (by omega), if_pos hj]⟩
        · simp only [if_neg h₁, if_neg h₂, if_neg h₃, if_neg h₄] at hj ⊢
          obtain rfl : j = i := by omega
          exact ⟨hi, by rw [if_neg h₁, if_neg h₂, if_neg h₃, if_neg h₄]⟩

def twoRuns : RunSet := RunSet.ofIndex twoRun 2070 (fun i _ => twoRun_has i) twoRun_run

theorem twoHeap_encodes : Encodes twoHeap.table twoRuns := Encodes.of_index (by decide) fun _ => rfl

/-- The two page directories, with the image and the stack that each maps. -/
def IsTwo (base image stack : Nat) : Prop :=
  (base = 10 ∧ image = heapAt 0 ∧ stack = heapAt 1) ∨
    (base = 1036 ∧ image = heapAt 5 ∧ stack = heapAt 6)

section Two

variable {base image stack : Nat} (h : IsTwo base image stack)

include h

theorem twoPages_word {a : Nat} (hlo : heapAt base ≤ a) (hhi : a < heapAt (base + 1026)) :
    twoPages.word a = directoryWord base image stack a := by
  unfold heapAt bimbleosHeapAddress at hlo hhi
  rcases h with ⟨rfl, rfl, rfl⟩ | ⟨rfl, rfl, rfl⟩
  · exact if_pos (by unfold heapAt bimbleosHeapAddress; omega)
  · exact if_neg (by unfold heapAt bimbleosHeapAddress; omega)

theorem twoPages_directory : twoPages.directory (heapAt base) = heapAt (base + 1) := by
  have hword := twoPages_word h (Nat.le_refl (heapAt base))
    (by unfold heapAt bimbleosHeapAddress; omega)
  unfold PageStore.directory
  rw [hword]
  unfold directoryWord
  rw [if_pos rfl, BitVec.toNat_ofNat]
  unfold heapAt bimbleosHeapAddress
  rcases h with ⟨rfl, _⟩ | ⟨rfl, _⟩ <;> rfl

theorem twoPages_table {i : Nat} (hi : i < 1024) :
    twoPages.table (heapAt (base + 1)) i = heapAt (base + 2) + 4096 * i := by
  have hbase : base ≤ 1036 := by rcases h with ⟨rfl, _⟩ | ⟨rfl, _⟩ <;> decide
  have hat : ∀ b, heapAt b = 16777216 + 4096 * b := fun _ => rfl
  have hword := twoPages_word h (a := heapAt (base + 1) + 4 * i) (by simp only [hat]; omega)
    (by simp only [hat]; omega)
  unfold PageStore.table
  rw [hword]
  unfold directoryWord
  simp only [hat]
  rw [if_neg (by omega), if_pos (by omega), frameOf_or (by omega) (by omega) (by decide)]
  omega

theorem twoPages_entry {page : Nat} (hpage : IsPage page) :
    twoPages.pageEntry (heapAt (base + 1)) page = pageWord image stack page := by
  obtain ⟨halign, hlt⟩ := hpage
  have hbase : base ≤ 1036 := by rcases h with ⟨rfl, _⟩ | ⟨rfl, _⟩ <;> decide
  have hat : ∀ b, heapAt b = 16777216 + 4096 * b := fun _ => rfl
  unfold PageStore.pageEntry
  rw [twoPages_table h (by omega)]
  have hword := twoPages_word h
    (a := heapAt (base + 2) + 4096 * (page / 4194304) + 4 * (page % 4194304 / 4096))
    (by simp only [hat]; omega) (by simp only [hat]; omega)
  rw [hword]
  unfold directoryWord
  simp only [hat]
  rw [if_neg (by omega), if_neg (by omega)]
  congr 1
  omega

end Two

theorem twoKernel_directory {d : Nat} (h : twoKernel.IsDirectory d) :
    ∃ base image stack, IsTwo base image stack ∧ d = heapAt base := by
  obtain ⟨p, hp, rfl⟩ := h
  rcases twoKernel_live.mp hp with rfl | rfl
  · exact ⟨10, _, _, Or.inl ⟨rfl, rfl, rfl⟩, rfl⟩
  · exact ⟨1036, _, _, Or.inr ⟨rfl, rfl, rfl⟩, rfl⟩

theorem twoKernel_tables : DirsOk twoKernel.pages twoKernel.IsDirectory := by
  have hat : ∀ b, heapAt b = 16777216 + 4096 * b := fun _ => rfl
  refine ⟨fun d hd => ?_, fun d d' i i' hd hd' hi hi' heq => ?_, fun d d' i hd hd' hi => ?_⟩
  · obtain ⟨base, image, stack, hbase, rfl⟩ := twoKernel_directory hd
    show twoPages.directory (heapAt base) % 4096 = 0
    rw [twoPages_directory hbase, hat]
    omega
  · obtain ⟨base, image, stack, hbase, rfl⟩ := twoKernel_directory hd
    obtain ⟨base', image', stack', hbase', rfl⟩ := twoKernel_directory hd'
    change twoPages.table (twoPages.directory _) _ = twoPages.table (twoPages.directory _) _ at heq
    rw [twoPages_directory hbase, twoPages_directory hbase', twoPages_table hbase hi,
      twoPages_table hbase' hi'] at heq
    simp only [hat] at heq ⊢
    rcases hbase with ⟨rfl, _⟩ | ⟨rfl, _⟩ <;> rcases hbase' with ⟨rfl, _⟩ | ⟨rfl, _⟩ <;> omega
  · obtain ⟨base, image, stack, hbase, rfl⟩ := twoKernel_directory hd
    obtain ⟨base', image', stack', hbase', rfl⟩ := twoKernel_directory hd'
    change twoPages.table (twoPages.directory _) _ ≠ twoPages.directory _ ∧
      twoPages.table (twoPages.directory _) _ ≠ _
    rw [twoPages_directory hbase, twoPages_directory hbase', twoPages_table hbase hi]
    simp only [hat]
    rcases hbase with ⟨rfl, _⟩ | ⟨rfl, _⟩ <;> rcases hbase' with ⟨rfl, _⟩ | ⟨rfl, _⟩ <;> omega

/-- The image and the stack of each process. -/
def twoImage (p : Nat) : Run := if p = heapAt 2062 then ⟨0, 1⟩ else ⟨5, 1⟩
def twoStack (p : Nat) : Run := if p = heapAt 2062 then ⟨1, 4⟩ else ⟨6, 4⟩

/-- A writable page shows the image or the stack. -/
theorem pageWord_writable {image stack page : Nat} (hpage : IsPage page) (himage : IsPage image)
    (hstack : stack % 4096 = 0 ∧ stack < 4294950912) (h : UserWritable (pageWord image stack page)) :
    frameOf (pageWord image stack page) = image ∨
      ∃ o, o < 16384 ∧ o % 4096 = 0 ∧ frameOf (pageWord image stack page) = stack + o := by
  obtain ⟨halign, hlt⟩ := hpage
  unfold pageWord at h ⊢
  by_cases h₁ : page = 0x400000
  · rw [if_pos h₁]
    exact Or.inl (frameOf_or himage.1 himage.2 (by decide))
  · rw [if_neg h₁] at h ⊢
    by_cases h₂ : 0x3FB000 ≤ page ∧ page < 0x3FF000
    · rw [if_pos h₂]
      refine Or.inr ⟨page - 0x3FB000, by omega, by omega, ?_⟩
      exact frameOf_or (by omega) (by omega) (by decide)
    · rw [if_neg h₂, userWritable_run ⟨halign, hlt⟩] at h
      exact absurd h (by decide)

theorem twoStart : MallocStart twoImage twoStack ⟨twoKernel, fun _ _ => False⟩ where
  heap := ⟨rfl, rfl⟩
  runs := by
    refine ⟨twoRuns, twoHeap_encodes, fun p hp => ?_⟩
    rcases twoKernel_live.mp hp with rfl | rfl
    · exact ⟨⟨0, by decide, rfl⟩, ⟨1, by decide, rfl⟩⟩
    · exact ⟨⟨5, by decide, rfl⟩, ⟨6, by decide, rfl⟩⟩
  imageApart := by
    intro p q hp hq h
    rcases twoKernel_live.mp hp with rfl | rfl <;> rcases twoKernel_live.mp hq with rfl | rfl <;>
      first | rfl | exact absurd h (by decide)
  stackApart := by
    intro p q hp hq h
    rcases twoKernel_live.mp hp with rfl | rfl <;> rcases twoKernel_live.mp hq with rfl | rfl <;>
      first | rfl | exact absurd h (by decide)
  imageStack := by
    intro p q hp hq
    rcases twoKernel_live.mp hp with rfl | rfl <;> rcases twoKernel_live.mp hq with rfl | rfl <;> decide
  writable := by
    have hentry : ∀ base image stack page, IsTwo base image stack → IsPage page →
        twoPages.pageEntry (twoPages.directory (heapAt base)) page = pageWord image stack page :=
      fun base image stack page hbase hpage => by rw [twoPages_directory hbase, twoPages_entry hbase hpage]
    intro p page hp hpage hwritable _
    rcases twoKernel_live.mp hp with rfl | rfl
    · have heq : twoKernel.entry (heapAt 2062) page = pageWord (heapAt 0) (heapAt 1) page :=
        hentry 10 _ _ page (Or.inl ⟨rfl, rfl, rfl⟩) hpage
      simp only [heq] at hwritable ⊢
      rcases pageWord_writable hpage (by decide) (by decide) hwritable with himage | ⟨o, ho, _, hstack⟩
      · rw [himage]
        exact Or.inl (by decide)
      · rw [hstack]
        refine Or.inr ?_
        show 1 ≤ heapBlockOf (heapAt 1 + o) ∧ heapBlockOf (heapAt 1 + o) < 1 + 4
        unfold heapBlockOf heapAt
        omega
    · have heq : twoKernel.entry (heapAt 2065) page = pageWord (heapAt 5) (heapAt 6) page :=
        hentry 1036 _ _ page (Or.inr ⟨rfl, rfl, rfl⟩) hpage
      simp only [heq] at hwritable ⊢
      rcases pageWord_writable hpage (by decide) (by decide) hwritable with himage | ⟨o, ho, _, hstack⟩
      · rw [himage]
        exact Or.inl (by decide)
      · rw [hstack]
        refine Or.inr ?_
        show 6 ≤ heapBlockOf (heapAt 6 + o) ∧ heapBlockOf (heapAt 6 + o) < 6 + 4
        unfold heapBlockOf heapAt
        omega
  allocations := by
    intro p i hp
    rcases twoKernel_live.mp hp with rfl | rfl <;> rfl
  directories := by
    intro p q hp hq h
    rcases twoKernel_live.mp hp with rfl | rfl <;> rcases twoKernel_live.mp hq with rfl | rfl <;>
      first | rfl | exact absurd h (by decide)
  tables := twoKernel_tables
  mapped := fun _ _ h => h

/-- Up to block 2070 the heap is taken, and free from there on. -/
theorem twoHeap_front : (∀ i, i < 2070 → ¬ twoHeap.table.Free i) ∧
    twoHeap.table.FreeRun 2070 (twoHeap.table.totalEntries - 2070) := by
  constructor
  · intro i hi hfree
    have hbyte : twoHeap.table.entries i = runByte (twoRun i) i := if_pos hi
    unfold HeapTable.Free at hfree
    rw [hbyte] at hfree
    exact runByte_taken _ _ hfree
  · intro j hj _
    have hbyte : twoHeap.table.entries j = 0#8 := if_neg (Nat.not_lt.mpr hj)
    unfold HeapTable.Free
    rw [hbyte]
    decide

/-- A page for the first process. -/
theorem twoKernel_malloc : processMalloc (heapAt 2062) 4096 twoKernel = .ok (heapAt 2070,
    twoKernel.afterMalloc (heapAt 2062) 4096 ⟨2070, 1⟩ 0 (fill twoKernel.memory (heapAt 2070) 4096 0)) := by
  have hmalloc : heapMalloc twoHeap 4096 = (heapAt 2070, heapMarkBlocksTaken twoHeap 2070 1) := by
    rw [heapMalloc_eq, show heapBlocks 4096 = 1 by decide,
      heapMallocBlocks_front (by decide) (by decide) twoHeap_front.1 twoHeap_front.2]
    rfl
  have hmap := @pagingMapTo_run twoPages (heapAt 10) 4096 ⟨2070, 1⟩ processMallocFlags (by decide)
    (by decide) (by decide)
  exact processMalloc_of_ok hmalloc (by decide) (by decide) (by decide +kernel) (by decide) hmap

theorem twoKernel_mallocOk : twoKernel.heap.table.MallocOk 4096 :=
  Or.inr ⟨by decide, by decide, 2070, by decide, twoHeap_front.2.mono (by decide)⟩

/-- The kernel after the first process has got a page. -/
def pageKernel₁ : Kernel :=
  twoKernel.afterMalloc (heapAt 2062) 4096 ⟨2070, 1⟩ 0 (fill twoKernel.memory (heapAt 2070) 4096 0)

/-- The kernel after the second one has got a page as well. -/
def pageKernel₂ : Kernel :=
  pageKernel₁.afterMalloc (heapAt 2065) 4096 ⟨2071, 1⟩ 0 (fill pageKernel₁.memory (heapAt 2071) 4096 0)

/-- The kernel after the first one has freed its page. -/
def pageKernel₃ : Kernel := pageKernel₂.afterFree (heapAt 2062) ⟨2070, 1⟩

/-- Now the heap is taken up to block 2071. -/
theorem pageHeap_front : (∀ i, i < 2071 → ¬ pageKernel₁.heap.table.Free i) ∧
    pageKernel₁.heap.table.FreeRun 2071 (pageKernel₁.heap.table.totalEntries - 2071) := by
  have hmark : ∀ i, pageKernel₁.heap.table.Free i ↔ twoHeap.table.Free i ∧ i ≠ 2070 :=
    fun i => free_mark_one (by decide)
  constructor
  · intro i hi hfree
    obtain ⟨hold, hne⟩ := (hmark i).mp hfree
    exact twoHeap_front.1 i (by omega) hold
  · intro j hj hlt
    exact (hmark j).mpr ⟨twoHeap_front.2 j (by omega) hlt, by omega⟩

theorem pageKernel₂_run : processMalloc (heapAt 2065) 4096 pageKernel₁ = .ok (heapAt 2071, pageKernel₂) := by
  have hmalloc : heapMalloc pageKernel₁.heap 4096 = (heapAt 2071, heapMarkBlocksTaken pageKernel₁.heap 2071 1) := by
    rw [heapMalloc_eq, show heapBlocks 4096 = 1 by decide,
      heapMallocBlocks_front (by decide) (by decide) pageHeap_front.1 pageHeap_front.2]
    rfl
  have hmap := @pagingMapTo_run pageKernel₁.pages (pageKernel₁.directoryOf (heapAt 2065)) 4096 ⟨2071, 1⟩
    processMallocFlags (by decide) (by decide) (by decide)
  exact processMalloc_of_ok hmalloc (by decide) (by decide) (by decide +kernel) (by decide) hmap

theorem pageKernel₃_run : processFree (heapAt 2062) (heapAt 2070) pageKernel₂ = .ok ((), pageKernel₃) := by
  have hmap := @pagingMapTo_run pageKernel₂.pages (pageKernel₂.directoryOf (heapAt 2062)) 4096 ⟨2070, 1⟩ 0x00
    (by decide) (by decide) (by decide)
  exact processFree_of_ok (a := ⟨heapAt 2070, 4096⟩) (by decide +kernel) (by decide) hmap

/-- Both processes call `malloc`, and one frees what it got. -/
theorem mallocHistory_isolated_two : ∃ tr s, Trace MallocStep ⟨twoKernel, fun _ _ => False⟩ tr s ∧
    tr.map Prod.snd = [(heapAt 2062, .malloc 4096), (heapAt 2065, .malloc 4096), (heapAt 2062, .free (heapAt 2070))] ∧
    Throughout (fun s => Isolated s.kernel ∧ MallocOwned s) tr s := by
  have hP : twoKernel.Live (heapAt 2062) := twoKernel_live.mpr (Or.inl rfl)
  have hQ : twoKernel.Live (heapAt 2065) := twoKernel_live.mpr (Or.inr rfl)
  have htrace := Trace.snoc (Trace.snoc (Trace.snoc Trace.nil
    (MallocStep.malloc (s := ⟨twoKernel, fun _ _ => False⟩) hP (by decide) twoKernel_malloc))
    (.malloc (k := pageKernel₂) hQ (by decide) pageKernel₂_run)) (.free hP (by decide) pageKernel₃_run)
  refine ⟨_, _, htrace, rfl, mallocHistory_isolated twoStart htrace ?_⟩
  refine List.forall_mem_cons.mpr ⟨twoKernel_mallocOk, List.forall_mem_cons.mpr ⟨?_, ?_⟩⟩
  · exact Or.inr ⟨by decide, by decide, 2071, by decide, pageHeap_front.2.mono (by decide)⟩
  · exact fun q hq => List.mem_singleton.mp hq ▸ True.intro

/-- The kernel after the first process asked for no bytes: it holds a block that is still free. -/
def doubleKernel₁ : Kernel := { twoKernel with
  heap := heapMarkBlocksTaken twoHeap 2070 0
  memory := fill twoKernel.memory (heapAt 2070) 0 0
  process := Function.update twoKernel.process (heapAt 2062) { twoKernel.process (heapAt 2062) with
    allocations := Function.update (twoKernel.process (heapAt 2062)).allocations 0 ⟨heapAt 2070, 0⟩ } }

/-- The kernel after the second one asked for a page, and got that block. -/
def doubleKernel₂ : Kernel := { doubleKernel₁ with
  heap := heapMarkBlocksTaken doubleKernel₁.heap 2070 1
  memory := fill doubleKernel₁.memory (heapAt 2070) 4096 0
  pages := twoPages.setRun (heapAt 1036) ⟨2070, 1⟩ processMallocFlags
  process := Function.update doubleKernel₁.process (heapAt 2065) { doubleKernel₁.process (heapAt 2065) with
    allocations := Function.update (doubleKernel₁.process (heapAt 2065)).allocations 0
      ⟨heapAt 2070, 4096⟩ } }

/-- The kernel after the first one has freed the block. -/
def doubleKernel₃ : Kernel := { doubleKernel₂ with
  heap := heapFree doubleKernel₂.heap (heapAt 2070)
  process := Function.update doubleKernel₂.process (heapAt 2062)
    (processAllocationUnjoin (doubleKernel₂.process (heapAt 2062)) (heapAt 2070)) }

theorem doubleKernel₁_run :
    processMalloc (heapAt 2062) 0 twoKernel = .ok (heapAt 2070, doubleKernel₁) := by
  have hmalloc : heapMalloc twoHeap 0 = (heapAt 2070, heapMarkBlocksTaken twoHeap 2070 0) := by
    rw [heapMalloc_eq, show heapBlocks 0 = 0 by decide,
      heapMallocBlocks_front (by decide) (by decide) twoHeap_front.1 twoHeap_front.2]
    rfl
  exact processMalloc_of_ok hmalloc (by decide) (by decide) (by decide +kernel) (by decide) rfl

/-- An empty request leaves the block it returns free for the scan. -/
theorem doubleHeap_front : (∀ i, i < 2070 → ¬ doubleKernel₁.heap.table.Free i) ∧
    doubleKernel₁.heap.table.FreeRun 2070 (doubleKernel₁.heap.table.totalEntries - 2070) := by
  have hent := @heapMarkBlocksTaken_zero_entries twoHeap 2070 (by decide) (by decide)
  constructor
  · intro i hi hfree
    unfold HeapTable.Free at hfree
    have hbyte : doubleKernel₁.heap.table.entries i = _ := hent i
    rw [hbyte] at hfree
    by_cases hlast : i = 2069
    · subst hlast
      exact absurd hfree (by decide)
    · rw [if_neg hlast, if_neg (by omega)] at hfree
      exact twoHeap_front.1 i hi hfree
  · intro j hj hlt
    unfold HeapTable.Free
    have hbyte : doubleKernel₁.heap.table.entries j = _ := hent j
    rw [hbyte, if_neg (by omega)]
    split
    · decide
    · exact twoHeap_front.2 j hj hlt

theorem doubleKernel₂_run :
    processMalloc (heapAt 2065) 4096 doubleKernel₁ = .ok (heapAt 2070, doubleKernel₂) := by
  have hmalloc : heapMalloc doubleKernel₁.heap 4096
      = (heapAt 2070, heapMarkBlocksTaken doubleKernel₁.heap 2070 1) := by
    rw [heapMalloc_eq, show heapBlocks 4096 = 1 by decide,
      heapMallocBlocks_front (by decide) (by decide) doubleHeap_front.1 doubleHeap_front.2]
    rfl
  have hmap := @pagingMapTo_run twoPages (heapAt 1036) 4096 ⟨2070, 1⟩ processMallocFlags (by decide)
    (by decide) (by decide)
  exact processMalloc_of_ok hmalloc (by decide) (by decide) (by decide +kernel) (by decide) hmap

theorem doubleKernel₃_run :
    processFree (heapAt 2062) (heapAt 2070) doubleKernel₂ = .ok ((), doubleKernel₃) :=
  processFree_of_ok (a := ⟨heapAt 2070, 0⟩) (by decide +kernel) (by decide) rfl

/-- Two processes with one block: the first one asks for no bytes and gets a block that stays free, the
    second one gets the same block, and the first one frees it. The second can still write to it. -/
theorem mallocHistory_shares_block :
    ¬ ∀ (image stack : Nat → Run) (s₀ s : MallocState) (tr : List (MallocState × (Nat × MallocCall))),
      MallocStart image stack s₀ → Trace MallocStep s₀ tr s →
      Throughout (fun s => Isolated s.kernel ∧ MallocOwned s) tr s := by
  intro h
  have hP : twoKernel.Live (heapAt 2062) := twoKernel_live.mpr (Or.inl rfl)
  have hQ : twoKernel.Live (heapAt 2065) := twoKernel_live.mpr (Or.inr rfl)
  have htrace := Trace.snoc (Trace.snoc (Trace.snoc Trace.nil
    (MallocStep.malloc (s := ⟨twoKernel, fun _ _ => False⟩) hP (by decide) doubleKernel₁_run))
    (.malloc hQ (by decide) doubleKernel₂_run)) (.free hP (by decide) doubleKernel₃_run)
  have howned := ((h _ _ _ _ _ twoStart htrace).2).2
  have hpage : IsPage (heapAt 2070) := by decide
  -- the entry of the second process
  have hentry : doubleKernel₃.entry (heapAt 2065) (heapAt 2070)
      = BitVec.ofNat 32 (heapAt 2070) ||| processMallocFlags := by
    have hset := (@DirsOk.setRun twoPages twoKernel.IsDirectory (heapAt 1036) ⟨2070, 1⟩
      processMallocFlags twoKernel_tables ⟨_, hQ, rfl⟩ (by decide)).2 (heapAt 1036) (heapAt 2070)
      ⟨_, hQ, rfl⟩ hpage
    rw [if_pos ⟨rfl, by decide, by decide⟩] at hset
    exact hset
  have hwritable : UserWritable (doubleKernel₃.entry (heapAt 2065) (heapAt 2070)) := by
    rw [hentry, userWritable_run hpage]
    decide
  obtain ⟨_, r, _, hrecorded, hhas⟩ := howned (heapAt 2065) (heapAt 2070) hQ hpage
    (Or.inr ⟨rfl, by decide, by decide, by decide⟩) hwritable
  -- its block is free in the table
  rw [hentry, frameOf_run hpage (by decide)] at hhas
  have hblock : r.Has 2070 := hhas
  have hbyte := hrecorded.bytes 2070 hblock
  have hfree : doubleKernel₃.heap.table.entries 2070 = 0#8 := by decide +kernel
  rw [hfree] at hbyte
  refine runByte_taken r 2070 ?_
  rw [← hbyte]
  decide

end BimbleOS
