import BimbleOS.Memory.Heap
import BimbleOS.Lib.Runs
import Mathlib.Data.Nat.Find

/-!
# `Memory.HeapSpec` — one specification lemma per heap operation

`heapScan` is characterised by the three ways it can end (`ScanResult`): at a run that is long enough,
at the short free run the table ends with, or with no candidate at all. The second outcome is the one
`heap_get_start_block` does not tell from the first. The marking and freeing loops are characterised
entry by entry, and then against a set of disjoint runs that the table encodes (`Encodes`).
-/

namespace BimbleOS

open CWord BlockRuns

namespace HeapTable

/-- Entry `i` is free for the scan: its low four bits are zero. -/
def Free (t : HeapTable) (i : Nat) : Prop :=
  heapGetEntryType (t.entries i) = heapBlockTableEntryFree

instance (t : HeapTable) (i : Nat) : Decidable (t.Free i) :=
  inferInstanceAs (Decidable (_ = _))

/-- The `k` entries from `i` on are free. -/
def FreeRun (t : HeapTable) (i k : Nat) : Prop := ∀ j, i ≤ j → j < i + k → t.Free j

/-- A run of `k` consecutive free entries exists in the table. -/
def Fits (t : HeapTable) (k : Nat) : Prop := ∃ i, i + k ≤ t.totalEntries ∧ t.FreeRun i k

theorem FreeRun.mono {t : HeapTable} {i k m : Nat} (h : t.FreeRun i k) (hm : m ≤ k) :
    t.FreeRun i m := fun j hj hlt => h j hj (by omega)

theorem FreeRun.snoc {t : HeapTable} {i k : Nat} (h : t.FreeRun i k) (hk : t.Free (i + k)) :
    t.FreeRun i (k + 1) := by
  intro j hj hlt
  rcases Nat.lt_or_ge j (i + k) with hlt' | hge
  · exact h j hj hlt'
  · have : j = i + k := by omega
    exact this ▸ hk

/-- A free run does not reach over an entry that is not free. -/
theorem FreeRun.not_across {t : HeapTable} {a k s : Nat} (h : t.FreeRun a k) (ha : a < s)
    (hs : s = 0 ∨ ¬ t.Free (s - 1)) : a + k < s := by
  rcases hs with rfl | hs
  · omega
  · by_contra hge
    exact hs (h (s - 1) (by omega) (by omega))

end HeapTable

/-! ## The scan -/

/-- How the scan for `k` blocks can end. -/
inductive ScanResult (t : HeapTable) (k : Nat) : Int → Prop where
  /-- It stops at the first run that is long enough. -/
  | fit {s : Nat} (hk : 0 < k) (hle : s + k ≤ t.totalEntries) (hfree : t.FreeRun s k)
      (hleft : s = 0 ∨ ¬ t.Free (s - 1)) (hmin : ∀ a, a < s → ¬ t.FreeRun a k) :
      ScanResult t k (s : Int)
  /-- It runs off the table inside the free run the table ends with, which is too short. -/
  | tail {s : Nat} (hlt : s < t.totalEntries) (hfree : t.FreeRun s (t.totalEntries - s))
      (hleft : s = 0 ∨ ¬ t.Free (s - 1)) (hno : 0 < k → ¬ t.Fits k) : ScanResult t k (s : Int)
  /-- It runs off the table after an entry that is taken. -/
  | full (hlast : t.totalEntries = 0 ∨ ¬ t.Free (t.totalEntries - 1)) (hno : 0 < k → ¬ t.Fits k) :
      ScanResult t k (-1)

/-- What the scan knows in front of entry `i`: no run of `k` free entries ends before `i`, and
    `blockStart`, `blockCount` describe the free run that ends just before `i` (if there is one). -/
structure ScanInv (t : HeapTable) (k i blockCount : Nat) (blockStart : Int) : Prop where
  noFit : 0 < k → ∀ a, a + k ≤ i → ¬ t.FreeRun a k
  current : (blockStart = -1 ∧ blockCount = 0 ∧ (i = 0 ∨ ¬ t.Free (i - 1))) ∨
    ∃ s : Nat, blockStart = s ∧ s + blockCount = i ∧ 0 < blockCount ∧ t.FreeRun s blockCount ∧
      (s = 0 ∨ ¬ t.Free (s - 1))

theorem ScanInv.init (t : HeapTable) (k : Nat) : ScanInv t k 0 0 (-1) where
  noFit := fun hk a ha => by omega
  current := Or.inl ⟨rfl, rfl, Or.inl rfl⟩

/-- A taken entry resets the scan. -/
theorem ScanInv.taken {t : HeapTable} {k i c : Nat} {b : Int} (h : ScanInv t k i c b)
    (hi : ¬ t.Free i) : ScanInv t k (i + 1) 0 (-1) where
  noFit := by
    intro hk a ha hrun
    rcases Nat.lt_or_ge (a + k) (i + 1) with hlt | hge
    · exact h.noFit hk a (by omega) hrun
    · exact hi (hrun i (by omega) (by omega))
  current := Or.inl ⟨rfl, rfl, Or.inr (by simpa using hi)⟩

/-- A free entry extends the current free run, or starts one. -/
theorem ScanInv.extend {t : HeapTable} {k i c : Nat} {b : Int} (h : ScanInv t k i c b)
    (hi : t.Free i) (hlt : b = -1 → i < 2147483648) :
    ∃ s : Nat, (if b = -1 then s32 i else b) = s ∧ s + (c + 1) = i + 1 ∧ t.FreeRun s (c + 1) ∧
      (s = 0 ∨ ¬ t.Free (s - 1)) := by
  rcases h.current with ⟨rfl, rfl, hleft⟩ | ⟨s, rfl, hsum, _, hrun, hleft⟩
  · refine ⟨i, ?_, rfl, ?_, hleft⟩
    · rw [if_pos rfl]; exact s32_natCast_of_lt (hlt rfl)
    · intro j hj hj'
      have : j = i := by omega
      exact this ▸ hi
  · refine ⟨s, ?_, by omega, ?_, hleft⟩
    · rw [if_neg (by omega)]
    · exact hrun.snoc (by rw [hsum]; exact hi)

/-- When the extended run is still too short, the scan goes on with it. -/
theorem ScanInv.next {t : HeapTable} {k i c s : Nat} {b : Int} (h : ScanInv t k i c b)
    (hsum : s + (c + 1) = i + 1) (hrun : t.FreeRun s (c + 1)) (hleft : s = 0 ∨ ¬ t.Free (s - 1))
    (hne : c + 1 ≠ k) : ScanInv t k (i + 1) (c + 1) s where
  noFit := by
    intro hk a ha hfit
    rcases Nat.lt_or_ge (a + k) (i + 1) with hlt | hge
    · exact h.noFit hk a (by omega) hfit
    · rcases Nat.lt_or_ge a s with has | has
      · have := hfit.not_across has hleft
        omega
      · exact h.noFit hk s (by omega) (hrun.mono (by omega))
  current := Or.inr ⟨s, rfl, hsum, by omega, hrun, hleft⟩

theorem heapScan_spec {t : HeapTable} {k : Nat} (hn : t.totalEntries < 2147483648) :
    ∀ (left i c : Nat) (b : Int), ScanInv t k i c b → i + left = t.totalEntries →
      ScanResult t k (heapScan t k i c b left) := by
  intro left
  induction left with
  | zero =>
      intro i c b h hi
      have hno : 0 < k → ¬ t.Fits k := fun hk ⟨a, ha, hrun⟩ => h.noFit hk a (by omega) hrun
      simp only [heapScan]
      rcases h.current with ⟨rfl, rfl, hleft⟩ | ⟨s, rfl, hsum, hpos, hrun, hleft⟩
      · exact .full (by rwa [← hi]) hno
      · exact .tail (by omega) (hrun.mono (by omega)) hleft hno
  | succ left ih =>
      intro i c b h hi
      rw [heapScan]
      by_cases hfree : t.Free i
      · have hty : ¬ heapGetEntryType (t.entries i) ≠ heapBlockTableEntryFree := not_not_intro hfree
        rw [if_neg hty]
        obtain ⟨s, hb, hsum, hrun, hleft⟩ := h.extend hfree fun _ => by omega
        simp only [hb]
        by_cases hk : c + 1 = k
        · rw [if_pos hk]
          subst hk
          refine .fit (by omega) (by omega) hrun hleft (fun a ha hfit => ?_)
          have := hfit.not_across ha hleft
          exact h.noFit (by omega) a (by omega) hfit
        · rw [if_neg hk]
          exact ih (i + 1) (c + 1) s (h.next hsum hrun hleft hk) (by omega)
      · have hty : heapGetEntryType (t.entries i) ≠ heapBlockTableEntryFree := hfree
        rw [if_pos hty]
        exact ih (i + 1) 0 (-1) (h.taken hfree) (by omega)

/-- **The result of `heap_get_start_block`.** Either it found the first run of `k` free entries, or it
    points at the too short free run the table ends with, or it reports `-ENOMEM`. -/
theorem heapGetStartBlock_spec (heap : Heap) (k : Nat)
    (hn : heap.table.totalEntries < 2147483648) :
    (∃ s : Nat, heapGetStartBlock heap k = s ∧ ScanResult heap.table k s) ∨
      (heapGetStartBlock heap k = -ENOMEM ∧ ScanResult heap.table k (-1)) := by
  have h := heapScan_spec (k := k) hn _ 0 0 (-1) (ScanInv.init heap.table k) (Nat.zero_add _)
  unfold heapGetStartBlock
  generalize heapScan heap.table k 0 0 (-1) heap.table.totalEntries = r at h
  by_cases hneg : r < 0
  · have hr : r = -1 := by cases h <;> omega
    subst hr
    exact Or.inr ⟨rfl, h⟩
  · obtain ⟨s, rfl⟩ := Int.eq_ofNat_of_zero_le (Int.not_lt.mp hneg)
    exact Or.inl ⟨s, by simp only []; rw [if_neg (by omega)], h⟩

/-! ## The first fit -/

/-- The `k` entries from `s` on are the first free run of that length in the table. -/
structure HeapTable.FirstFit (t : HeapTable) (k s : Nat) : Prop where
  inside : s + k ≤ t.totalEntries
  free : t.FreeRun s k
  first : ∀ a, a < s → ¬ t.FreeRun a k

theorem HeapTable.Fits.first {t : HeapTable} {k : Nat} (h : t.Fits k) : ∃ s, t.FirstFit k s := by
  classical
  refine ⟨Nat.find h, (Nat.find_spec h).1, (Nat.find_spec h).2, ?_⟩
  intro a ha hrun
  have hinside := (Nat.find_spec h).1
  exact Nat.find_min h ha ⟨by omega, hrun⟩

section FirstFit

variable {t : HeapTable} {k i c s : Nat} {b : Int}

/-- In front of the end of the first fit, the current free run is too short; where there is none, the first
    fit is still to come. -/
theorem ScanInv.before (h : ScanInv t k i c b) (hk : 0 < k) (hfit : t.FirstFit k s) (hi : i < s + k) :
    c < k ∧ (b = -1 → i ≤ s) := by
  rcases h.current with ⟨rfl, rfl, hleft⟩ | ⟨a, rfl, hsum, hpos, hrun, hleft⟩
  · refine ⟨hk, fun _ => ?_⟩
    by_contra hlate
    refine hleft.elim (fun hzero => by omega) fun htaken => htaken ?_
    exact hfit.free (i - 1) (by omega) (by omega)
  · refine ⟨?_, fun hb => by omega⟩
    by_contra hlong
    exact h.noFit hk a (by omega) (hrun.mono (by omega))

/-- **The scan stops at the first fit.** The induction is on the entries left; the scan cannot pass the end
    of the first fit. -/
theorem heapScan_first (hk : 0 < k) (hfit : t.FirstFit k s) (hs : s < 2147483648) (left : Nat)
    (h : ScanInv t k i c b) (hleft : i + left = t.totalEntries) (hi : i < s + k) :
    heapScan t k i c b left = s := by
  have hinside := hfit.inside
  induction left generalizing i c b with
  | zero => omega
  | succ left ih =>
      obtain ⟨hshort, hfresh⟩ := h.before hk hfit hi
      rw [heapScan]
      by_cases hfree : t.Free i
      · have hty : ¬ heapGetEntryType (t.entries i) ≠ heapBlockTableEntryFree := not_not_intro hfree
        have hstart : b = -1 → i < 2147483648 := fun hb => Nat.lt_of_le_of_lt (hfresh hb) hs
        obtain ⟨a, hb, hsum, hrun, hedge⟩ := h.extend hfree hstart
        rw [if_neg hty]
        simp only [hb]
        have hbefore : a ≤ s := by
          by_contra hlate
          refine hedge.elim (fun hzero => by omega) fun htaken => htaken ?_
          exact hfit.free (a - 1) (by omega) (by omega)
        by_cases hlast : c + 1 = k
        · rw [if_pos hlast]
          rw [hlast] at hrun
          have hnot : ¬ a < s := fun hlt => hfit.first a hlt hrun
          omega
        · rw [if_neg hlast]
          exact ih (h.next hsum hrun hedge hlast) (by omega) (by omega)
      · have hty : heapGetEntryType (t.entries i) ≠ heapBlockTableEntryFree := hfree
        have hbefore : i < s := by
          by_contra hlate
          exact hfree (hfit.free i (by omega) hi)
        rw [if_pos hty]
        exact ih (h.taken hfree) (by omega) (by omega)

/-- The scan ends with a first fit that is an `int`. -/
theorem heapGetStartBlock_of_firstFit {heap : Heap} {k s : Nat} (hk : 1 ≤ k) (hfit : heap.table.FirstFit k s)
    (hs : s < 2147483648) : heapGetStartBlock heap k = s := by
  have hinside := hfit.inside
  have hscan : heapScan heap.table k 0 0 (-1) heap.table.totalEntries = s :=
    heapScan_first hk hfit hs _ (ScanInv.init heap.table k) (Nat.zero_add _) (by omega)
  have hne : ¬ (s : Int) = -1 := by omega
  unfold heapGetStartBlock
  rw [hscan]
  exact if_neg hne

end FirstFit

/-- **`heap_get_start_block` returns the first fit**, if there is one and its index is an `int`. -/
theorem heapGetStartBlock_first (heap : Heap) (k : Nat) (hk : 1 ≤ k) (hfits : heap.table.Fits k) :
    ∃ s, heap.table.FirstFit k s ∧ (s < 2147483648 → heapGetStartBlock heap k = s) := by
  obtain ⟨s, hfit⟩ := hfits.first
  exact ⟨s, hfit, heapGetStartBlock_of_firstFit hk hfit⟩

/-- A table whose last two entries are free. -/
def gapHeap : Heap where
  table := { entries := fun i => if i < 3 then heapBlockTableEntryTaken else heapBlockTableEntryFree,
             totalEntries := 5 }
  saddr := bimbleosHeapAddress

theorem gapHeap_fits : gapHeap.table.Fits 2 := by
  refine ⟨3, by decide, fun j hlo _ => ?_⟩
  have hfree : gapHeap.table.entries j = heapBlockTableEntryFree := if_neg (by omega)
  unfold HeapTable.Free
  rw [hfree]
  decide

theorem heapGetStartBlock_first_gap :
    ∃ s, gapHeap.table.FirstFit 2 s ∧ (s < 2147483648 → heapGetStartBlock gapHeap 2 = s) :=
  heapGetStartBlock_first gapHeap 2 (by decide) gapHeap_fits

/-- `n` taken entries and a free one. -/
def lateHeap (n : Nat) : Heap where
  table := { entries := fun i => if i < n then heapBlockTableEntryTaken else heapBlockTableEntryFree,
             totalEntries := n + 1 }
  saddr := bimbleosHeapAddress

theorem lateHeap_taken {n i : Nat} (hi : i < n) : ¬ (lateHeap n).table.Free i := by
  have htaken : (lateHeap n).table.entries i = heapBlockTableEntryTaken := if_pos hi
  unfold HeapTable.Free
  rw [htaken]
  decide

theorem lateHeap_free {n : Nat} : (lateHeap n).table.Free n := by
  have hfree : (lateHeap n).table.entries n = heapBlockTableEntryFree := if_neg (Nat.lt_irrefl n)
  unfold HeapTable.Free
  rw [hfree]
  decide

/-- The scan goes over the taken entries and stops at the last one. -/
theorem lateHeap_scan {n : Nat} (left i : Nat) (hi : i + left = n) :
    heapScan (lateHeap n).table 1 i 0 (-1) (left + 1) = s32 n := by
  induction left generalizing i with
  | zero =>
      obtain rfl : i = n := hi
      have hfree : ¬ heapGetEntryType ((lateHeap i).table.entries i) ≠ heapBlockTableEntryFree :=
        not_not_intro lateHeap_free
      rw [heapScan, if_neg hfree]
      simp only [if_true, Nat.zero_add]
  | succ left ih =>
      have htaken : heapGetEntryType ((lateHeap n).table.entries i) ≠ heapBlockTableEntryFree :=
        lateHeap_taken (by omega)
      rw [heapScan, if_pos htaken]
      exact ih (i + 1) (by omega)

theorem lateHeap_startBlock {n : Nat} (hn : s32 n ≠ -1) : heapGetStartBlock (lateHeap n) 1 = s32 n := by
  have hscan : heapScan (lateHeap n).table 1 0 0 (-1) (lateHeap n).table.totalEntries = s32 n :=
    lateHeap_scan n 0 (Nat.zero_add n)
  unfold heapGetStartBlock
  rw [hscan]
  exact if_neg hn

theorem lateHeap_fits {n : Nat} : (lateHeap n).table.Fits 1 := by
  refine ⟨n, Nat.le_refl _, fun j hlo hhi => ?_⟩
  obtain rfl : j = n := by omega
  exact lateHeap_free

/-- An index from `2^31` on is no `int`. -/
theorem heapGetStartBlock_late : ¬ ∀ (heap : Heap) (k : Nat), heap.table.totalEntries < 4294967296 →
    1 ≤ k → k ≤ 2147483647 → heap.table.Fits k →
    ∃ s, heap.table.FirstFit k s ∧ heapGetStartBlock heap k = s := by
  intro h
  obtain ⟨n, hn⟩ : ∃ n, n = 2147483648 := ⟨_, rfl⟩
  have hwrapped : s32 (n : Int) = -2147483648 := by
    rw [hn]
    decide
  have htotal : (lateHeap n).table.totalEntries = n + 1 := rfl
  obtain ⟨s, _, hs⟩ := h (lateHeap n) 1 (by omega) (by decide) (by decide) lateHeap_fits
  rw [lateHeap_startBlock (by omega), hwrapped] at hs
  omega

/-! ## Stores into the table -/

namespace HeapTable

@[simp] theorem set_totalEntries (t : HeapTable) (i : Nat) (v : HeapBlockTableEntry) :
    (t.set i v).totalEntries = t.totalEntries := rfl

theorem set_entries (t : HeapTable) (i j : Nat) (v : HeapBlockTableEntry) :
    (t.set i v).entries j = if j = i then v else t.entries j := by
  simp [set, Function.update_apply]

@[simp] theorem set_stray (t : HeapTable) (i : Nat) (v : HeapBlockTableEntry) :
    (t.set i v).stray = false ↔ t.stray = false ∧ i < t.totalEntries := by
  simp [set]

@[simp] theorem clear_totalEntries (t : HeapTable) (size : Nat) :
    (t.clear size).totalEntries = t.totalEntries := rfl

theorem clear_entries {t : HeapTable} {size i : Nat} (h : i < size) :
    (t.clear size).entries i = heapBlockTableEntryFree := if_pos h

/-- Entry `i` says that the next entry belongs to the same run. -/
def HasNext (t : HeapTable) (i : Nat) : Prop := t.entries i &&& heapBlockHasNext ≠ 0#8

instance (t : HeapTable) (i : Nat) : Decidable (t.HasNext i) :=
  inferInstanceAs (Decidable (_ ≠ _))

end HeapTable

/-! ## Marking -/

@[simp] theorem heapMarkLoop_totalEntries (count : Nat) (t : HeapTable) (i : Nat) :
    (heapMarkLoop t i count).totalEntries = t.totalEntries := by
  induction count generalizing t i with
  | zero => rfl
  | succ count ih => rw [heapMarkLoop, ih]; rfl

theorem heapMarkLoop_entries (count : Nat) (t : HeapTable) (i j : Nat) :
    (heapMarkLoop t i count).entries j =
      if i ≤ j ∧ j < i + count then
        t.entries j ||| (heapBlockTableEntryTaken ||| heapBlockHasNext)
      else t.entries j := by
  induction count generalizing t i with
  | zero => rw [heapMarkLoop, if_neg (by omega)]
  | succ count ih =>
      rw [heapMarkLoop, ih, HeapTable.set_entries]
      by_cases hj : j = i
      · subst hj
        rw [if_neg (by omega), if_pos rfl, if_pos (by omega)]
      · rw [if_neg hj]
        by_cases hin : i ≤ j ∧ j < i + (count + 1)
        · rw [if_pos (by omega), if_pos hin]
        · rw [if_neg (by omega), if_neg hin]

theorem heapMarkLoop_stray (count : Nat) (t : HeapTable) (i : Nat) :
    (heapMarkLoop t i count).stray = false ↔
      t.stray = false ∧ (count = 0 ∨ i + count ≤ t.totalEntries) := by
  induction count generalizing t i with
  | zero => simp [heapMarkLoop]
  | succ count ih =>
      rw [heapMarkLoop, ih, HeapTable.set_stray, HeapTable.set_totalEntries]
      constructor
      · rintro ⟨⟨hs, hi⟩, _⟩; exact ⟨hs, Or.inr (by omega)⟩
      · rintro ⟨hs, h⟩; exact ⟨⟨hs, by omega⟩, by omega⟩

@[simp] theorem heapMarkBlocksTaken_totalEntries (heap : Heap) (s k : Nat) :
    (heapMarkBlocksTaken heap s k).table.totalEntries = heap.table.totalEntries := by
  simp [heapMarkBlocksTaken]

@[simp] theorem heapMarkBlocksTaken_saddr (heap : Heap) (s k : Nat) :
    (heapMarkBlocksTaken heap s k).saddr = heap.saddr := rfl

/-- The index `end_block` for a non-empty request. -/
theorem endBlock_eq {s k : Nat} (hk : 0 < k) (h : s + k ≤ 4294967296) :
    u32 (s + k - 1) = s + k - 1 := by
  unfold u32; omega

/-- **Marking, entry by entry.** Entries outside `[s, s + k)` keep their value. -/
theorem heapMarkBlocksTaken_entries {heap : Heap} {s k : Nat} (hk : 0 < k)
    (h : s + k ≤ 4294967296) (j : Nat) :
    (heapMarkBlocksTaken heap s k).table.entries j =
      if s ≤ j ∧ j < s + k then
        (if j = s then heapBlockIsFirst else heap.table.entries j) |||
          (if j + 1 < s + k then heapBlockTableEntryTaken ||| heapBlockHasNext
            else heapBlockTableEntryTaken)
      else heap.table.entries j := by
  simp only [heapMarkBlocksTaken, endBlock_eq hk h, HeapTable.set_entries, heapMarkLoop_entries]
  by_cases hin : s ≤ j ∧ j < s + k
  · rw [if_pos hin]
    by_cases hlast : j + 1 < s + k
    · rw [if_neg (by omega), if_pos (by omega), if_pos hlast]
    · have hj : j = s + k - 1 := by omega
      subst hj
      rw [if_pos rfl, if_neg (by omega), if_neg hlast]
  · rw [if_neg hin, if_neg (by omega), if_neg (by omega), if_neg (by omega)]

theorem heapMarkBlocksTaken_stray {heap : Heap} {s k : Nat} (hk : 0 < k)
    (h : s + k ≤ 4294967296) :
    (heapMarkBlocksTaken heap s k).table.stray = false ↔
      heap.table.stray = false ∧ s + k ≤ heap.table.totalEntries := by
  simp only [heapMarkBlocksTaken, endBlock_eq hk h, HeapTable.set_stray, heapMarkLoop_stray,
    heapMarkLoop_totalEntries, HeapTable.set_totalEntries]
  constructor
  · rintro ⟨⟨⟨hs, _⟩, _⟩, hlt⟩; exact ⟨hs, by omega⟩
  · rintro ⟨hs, hle⟩; exact ⟨⟨⟨hs, by omega⟩, by omega⟩, by omega⟩

/-- An empty request at a block other than the first one writes two entries: `start_block` and the
    entry before it. -/
theorem heapMarkBlocksTaken_zero_entries {heap : Heap} {s : Nat} (hs : 0 < s)
    (h : s ≤ 4294967296) (j : Nat) :
    (heapMarkBlocksTaken heap s 0).table.entries j =
      if j = s - 1 then heap.table.entries j ||| heapBlockTableEntryTaken
      else if j = s then heapBlockIsFirst else heap.table.entries j := by
  have hend : u32 (s + (0 : Nat) - 1) = s - 1 := by unfold u32; omega
  simp only [heapMarkBlocksTaken, hend, HeapTable.set_entries, heapMarkLoop_entries]
  by_cases h₁ : j = s - 1
  · subst h₁
    rw [if_pos rfl, if_pos rfl, if_neg (by omega), if_neg (by omega)]
  · rw [if_neg h₁, if_neg h₁, if_neg (by omega)]

/-- An empty request at the first block writes past the table. -/
theorem heapMarkBlocksTaken_zero_stray {heap : Heap} (hn : heap.table.totalEntries < 4294967295) :
    (heapMarkBlocksTaken heap 0 0).table.stray = true := by
  have hend : u32 ((0 : Nat) + (0 : Nat) - 1) = 4294967295 := by decide
  simp only [heapMarkBlocksTaken, hend]
  rw [← Bool.not_eq_false]
  intro hs
  have := (HeapTable.set_stray _ _ _).mp hs
  simp at this
  omega

/-! ## Freeing -/

/-- **Freeing, entry by entry.** From `i` on, `m` entries are cleared: all but the last of them carry
    `HAS_NEXT`, and the last one does not unless the table ends there. -/
theorem heapFreeLoop_spec (left : Nat) (t : HeapTable) (i : Nat) :
    ∃ m, m ≤ left ∧
      (∀ j, (heapFreeLoop t i left).entries j =
        if i ≤ j ∧ j < i + m then heapBlockTableEntryFree else t.entries j) ∧
      (∀ j, i ≤ j → j + 1 < i + m → t.HasNext j) ∧
      (m = left ∨ (0 < m ∧ ¬ t.HasNext (i + m - 1))) := by
  induction left generalizing t i with
  | zero => exact ⟨0, by omega, fun j => by rw [if_neg (by omega)]; rfl, fun j => by omega, Or.inl rfl⟩
  | succ left ih =>
      rw [heapFreeLoop]
      by_cases hnext : t.entries i &&& heapBlockHasNext = 0#8
      · rw [if_pos hnext]
        refine ⟨1, by omega, fun j => ?_, fun j hj hlt => by omega,
          Or.inr ⟨by omega, not_not_intro hnext⟩⟩
        rw [HeapTable.set_entries]
        by_cases hj : j = i
        · rw [if_pos hj, if_pos (by omega)]
        · rw [if_neg hj, if_neg (by omega)]
      · rw [if_neg hnext]
        obtain ⟨m, hm, hent, hchain, hstop⟩ := ih (t.set i heapBlockTableEntryFree) (i + 1)
        have hold : ∀ j, i + 1 ≤ j → (t.set i heapBlockTableEntryFree).entries j = t.entries j :=
          fun j hj => by rw [HeapTable.set_entries, if_neg (by omega)]
        refine ⟨m + 1, by omega, fun j => ?_, fun j hj hlt => ?_, ?_⟩
        · rw [hent, HeapTable.set_entries]
          by_cases hj : j = i
          · rw [if_neg (by omega), if_pos hj, if_pos (by omega)]
          · by_cases hin : i ≤ j ∧ j < i + (m + 1)
            · rw [if_pos (by omega), if_pos hin]
            · rw [if_neg (by omega), if_neg hj, if_neg hin]
        · rcases Nat.eq_or_lt_of_le hj with rfl | hj'
          · exact hnext
          · have := hchain j hj' (by omega)
            unfold HeapTable.HasNext at *
            rwa [hold j hj'] at this
        · rcases hstop with rfl | ⟨hpos, hlast⟩
          · exact Or.inl rfl
          · refine Or.inr ⟨by omega, ?_⟩
            unfold HeapTable.HasNext at *
            rwa [hold (i + 1 + m - 1) (by omega), show i + 1 + m - 1 = i + (m + 1) - 1 by omega] at hlast

@[simp] theorem heapFreeLoop_totalEntries (left : Nat) (t : HeapTable) (i : Nat) :
    (heapFreeLoop t i left).totalEntries = t.totalEntries := by
  induction left generalizing t i with
  | zero => rfl
  | succ left ih =>
      rw [heapFreeLoop]
      split
      · rfl
      · rw [ih]; rfl

/-- The loop bound keeps the freeing loop inside the table. -/
theorem heapFreeLoop_stray (left : Nat) (t : HeapTable) (i : Nat)
    (h : left = 0 ∨ i + left ≤ t.totalEntries) : (heapFreeLoop t i left).stray = t.stray := by
  induction left generalizing t i with
  | zero => rfl
  | succ left ih =>
      have hset : (t.set i heapBlockTableEntryFree).stray = t.stray := by
        simp [HeapTable.set]; omega
      rw [heapFreeLoop]
      split
      · exact hset
      · rw [ih _ _ (by simp; omega), hset]

@[simp] theorem heapMarkBlocksFree_totalEntries (heap : Heap) (b : Int) :
    (heapMarkBlocksFree heap b).table.totalEntries = heap.table.totalEntries := by
  simp [heapMarkBlocksFree]

@[simp] theorem heapMarkBlocksFree_saddr (heap : Heap) (b : Int) :
    (heapMarkBlocksFree heap b).saddr = heap.saddr := rfl

@[simp] theorem heapMarkBlocksFree_stray (heap : Heap) (b : Int) :
    (heapMarkBlocksFree heap b).table.stray = heap.table.stray :=
  heapFreeLoop_stray _ _ _ (by omega)

end BimbleOS
