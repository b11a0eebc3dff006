import BimbleOS.Memory.HeapRuns
import BimbleOS.Lib.Trace

/-!
# `Memory.HeapSafety` — what a whole history of allocations and frees guarantees

A heap is driven by `heap_malloc` and `heap_free` calls in any order; `HeapState` carries the heap
together with the allocations that are live. `HeapSafe` is what the callers rely on. It is kept by
every call except one kind: a `heap_malloc` that finds no room while the last table entry is free
(`RoomFor` fails). The scan then returns the short free run at the end of the table, and the marking
loop runs over the end of the table; with a request above `0xFFFFF000` bytes it even marks nothing.
-/

namespace BimbleOS

open CWord BlockRuns Transition

/-! ## One call to the allocator -/

/-- The two outcomes of `heap_malloc_blocks`. -/
theorem heapMallocBlocks_cases (heap : Heap) (k : Nat) (hn : heap.table.totalEntries < 2147483648) :
    (heapMallocBlocks heap k = (0, heap) ∧ ScanResult heap.table k (-1)) ∨
      ∃ s : Nat, heapMallocBlocks heap k = (heapBlockToAddress heap s, heapMarkBlocksTaken heap s k) ∧
        ScanResult heap.table k s := by
  unfold heapMallocBlocks
  rcases heapGetStartBlock_spec heap k hn with ⟨s, hs, hr⟩ | ⟨hs, hr⟩
  · refine Or.inr ⟨s, ?_, hr⟩
    simp only [hs, Int.toNat_natCast]
    rw [if_neg (by omega)]
  · refine Or.inl ⟨?_, hr⟩
    simp only [hs]
    rw [if_pos (by decide)]

/-- When the free entries are exactly those from `s` on, the scan ends there. -/
theorem heapMallocBlocks_front {heap : Heap} {s k : Nat} (hn : heap.table.totalEntries < 2147483648)
    (hlt : s < heap.table.totalEntries) (htaken : ∀ i, i < s → ¬ heap.table.Free i)
    (hfree : heap.table.FreeRun s (heap.table.totalEntries - s)) :
    heapMallocBlocks heap k = (heapBlockToAddress heap s, heapMarkBlocksTaken heap s k) := by
  have hlast : heap.table.Free (heap.table.totalEntries - 1) := hfree _ (by omega) (by omega)
  rcases heapMallocBlocks_cases heap k hn with ⟨_, hres⟩ | ⟨s', heq, hres⟩
  · cases hres with
    | full hfull =>
        rcases hfull with hzero | htaken'
        · omega
        · exact absurd hlast htaken'
  · have hstart : s' = s := by
      generalize hr : (s' : Int) = r at hres
      -- the run found starts with a free entry, and no free entry is left of it
      have hbounds : ∀ a, a < heap.table.totalEntries → heap.table.Free a →
          (a = 0 ∨ ¬ heap.table.Free (a - 1)) → a = s := by
        intro a ha hfreea hleft
        rcases Nat.lt_trichotomy a s with hlt' | heq' | hgt
        · exact absurd hfreea (htaken a hlt')
        · exact heq'
        · rcases hleft with rfl | hleft
          · omega
          · exact absurd (hfree (a - 1) (by omega) (by omega)) hleft
      cases hres with
      | @fit a hk hle hrun hleft _ =>
          have := hbounds a (by omega) (hrun a (Nat.le_refl a) (by omega)) hleft
          omega
      | @tail a hlt' hrun hleft _ =>
          have := hbounds a hlt' (hrun a (Nat.le_refl a) (by omega)) hleft
          omega
      | full => omega
    rw [heq, hstart]

/-- The last entry of the table is not free (or there is none). -/
def HeapTable.LastTaken (t : HeapTable) : Prop :=
  t.totalEntries = 0 ∨ ¬ t.Free (t.totalEntries - 1)

/-- A request the allocator handles correctly: either some run is long enough for it, or the table does
    not end with a free entry, so that the scan reports failure. -/
def HeapTable.RoomFor (t : HeapTable) (size : Nat) : Prop :=
  t.LastTaken ∨ (size ≤ 0xFFFFF000 ∧ t.Fits (heapBlocks size))

theorem ScanResult.tail_last {t : HeapTable} {s : Nat} (hlt : s < t.totalEntries)
    (hfree : t.FreeRun s (t.totalEntries - s)) : ¬ t.LastTaken := by
  rintro (h | h)
  · omega
  · exact h (hfree _ (by omega) (by omega))

/-- With room, a successful scan points at a run that is free and long enough. -/
theorem ScanResult.of_roomFor {t : HeapTable} {size s : Nat} (h₁ : 1 ≤ size)
    (h₂ : size < 4294967296) (hroom : t.RoomFor size) (h : ScanResult t (heapBlocks size) s) :
    0 < heapBlocks size ∧ size ≤ 0xFFFFF000 ∧ s + heapBlocks size ≤ t.totalEntries ∧
      t.FreeRun s (heapBlocks size) := by
  generalize hr : (s : Int) = r at h
  cases h with
  | @fit s' hk hle hfree _ _ =>
      obtain rfl : s = s' := by omega
      refine ⟨hk, ?_, hle, hfree⟩
      by_contra hgt
      rw [heapBlocks_of_gt (by omega) h₂] at hk
      omega
  | @tail s' hlt hfree _ hno =>
      rcases hroom with hlast | ⟨hsz, hfits⟩
      · exact absurd hlast (ScanResult.tail_last hlt hfree)
      · exact absurd hfits (hno (heapBlocks_of_le h₁ hsz).1)
  | full => omega

/-- **`heap_malloc` with room.** It fails and changes nothing, or it returns the address of a fresh run
    of enough blocks and records exactly that run. -/
theorem heapMalloc_of_roomFor {heap : Heap} {S : RunSet} {size : Nat} (h : Encodes heap.table S)
    (h₁ : 1 ≤ size) (h₂ : size < 4294967296) (hroom : heap.table.RoomFor size)
    (hn : heap.table.totalEntries < 524288)
    (haddr : heap.saddr + 4096 * heap.table.totalEntries < 4294967296) :
    heapMalloc heap size = (0, heap) ∨
      ∃ (r : Run) (hpos : 0 < r.len) (hap : ∀ q ∈ S.runs, r.Apart q),
        heapMalloc heap size = (heap.saddr + 4096 * r.start, heapMarkBlocksTaken heap r.start r.len) ∧
        size ≤ 4096 * r.len ∧ 4096 * r.len < size + 4096 ∧ r.fin ≤ heap.table.totalEntries ∧
        Encodes (heapMarkBlocksTaken heap r.start r.len).table (S.insert r hpos hap) ∧
        (heapMarkBlocksTaken heap r.start r.len).table.stray = heap.table.stray := by
  rw [heapMalloc_eq]
  rcases heapMallocBlocks_cases heap (heapBlocks size) (by omega) with ⟨hnull, _⟩ | ⟨s, hs, hres⟩
  · exact Or.inl hnull
  · obtain ⟨hk, hsz, hle, hfree⟩ := hres.of_roomFor h₁ h₂ hroom
    obtain ⟨_, hcover, htight⟩ := heapBlocks_of_le h₁ hsz
    have hstray : (heapMarkBlocksTaken heap s (heapBlocks size)).table.stray = heap.table.stray := by
      rw [Bool.eq_iff_iff, ← not_iff_not, Bool.not_eq_true, Bool.not_eq_true,
        heapMarkBlocksTaken_stray hk (by omega)]
      exact ⟨fun hh => hh.1, fun hh => ⟨hh, hle⟩⟩
    refine Or.inr ⟨⟨s, heapBlocks size⟩, hk, h.apart_of_freeRun hk hle hfree, ?_, hcover, htight, hle,
      h.mark hk hle (by omega) hfree, hstray⟩
    rw [hs, heapBlockToAddress_eq (by omega)]

/-- **`heap_free` of a recorded run** erases that run. -/
theorem heapFree_of_run {heap : Heap} {S : RunSet} (h : Encodes heap.table S) {r : Run}
    (hr : r ∈ S.runs) (hn : heap.table.totalEntries < 524288) :
    Encodes (heapFree heap (heap.saddr + 4096 * r.start)).table (S.erase r) := by
  have hb := h.bound r hr
  have hp := S.pos r hr
  unfold heapFree
  rw [heapAddressToBlock_eq (by unfold Run.fin at hb; omega)]
  exact h.free hr (by omega)

/-! ## Histories of calls -/

/-- An allocation: the pointer returned and the size that was asked for. -/
structure Allocation where
  ptr : Nat
  size : Nat
  deriving DecidableEq, Repr

/-- A heap together with the allocations that were returned and not yet freed. -/
structure HeapState where
  heap : Heap
  live : List Allocation

/-- A call by a client of the heap. -/
inductive HeapCall where
  | malloc (size : Nat)
  | free (ptr : Nat)

/-- One call: any size from 1 up to the largest `size_t`, and frees of live pointers. -/
inductive HeapStep : HeapState → HeapCall → HeapState → Prop where
  | malloc {s : HeapState} (size : Nat) (h₁ : 1 ≤ size) (h₂ : size < 4294967296) :
      HeapStep s (.malloc size)
        { heap := (heapMalloc s.heap size).2
          live := if (heapMalloc s.heap size).1 = 0 then s.live
                  else ⟨(heapMalloc s.heap size).1, size⟩ :: s.live }
  | free {s : HeapState} {ptr : Nat} (h : ∃ a ∈ s.live, a.ptr = ptr) :
      HeapStep s (.free ptr)
        { heap := heapFree s.heap ptr, live := s.live.filter (fun a => a.ptr ≠ ptr) }

/-- What the clients rely on: live allocations lie inside the heap and do not overlap, and no store
    ever went past the table. -/
structure HeapSafe (saddr n : Nat) (s : HeapState) : Prop where
  inside : ∀ a ∈ s.live, saddr ≤ a.ptr ∧ a.ptr + a.size ≤ saddr + 4096 * n
  disjoint : s.live.Pairwise (fun a b => a.ptr + a.size ≤ b.ptr ∨ b.ptr + b.size ≤ a.ptr)
  stray : s.heap.table.stray = false

/-- The condition on one call. -/
def HeapCall.Ok (s : HeapState) : HeapCall → Prop
  | .malloc size => s.heap.table.RoomFor size
  | .free _ => True

/-- The allocation `a` occupies the run `r` of the heap at `saddr`. -/
def Allocation.Occupies (saddr : Nat) (a : Allocation) (r : Run) : Prop :=
  a.ptr = saddr + 4096 * r.start ∧ a.size ≤ 4096 * r.len

/-- The shape of the heap, which no call changes. -/
structure HeapShape (saddr n : Nat) (s : HeapState) : Prop where
  total : s.heap.table.totalEntries = n
  start : s.heap.saddr = saddr

/-- **The run invariant.** The table encodes a set of runs, and the live allocations occupy different
    runs of it. -/
structure HeapInv (saddr n : Nat) (s : HeapState) : Prop extends HeapShape saddr n s where
  stray : s.heap.table.stray = false
  enc : ∃ S : RunSet, Encodes s.heap.table S ∧ ∀ a ∈ s.live, ∃ r ∈ S.runs, a.Occupies saddr r
  distinct : s.live.Pairwise (fun a b => a.ptr ≠ b.ptr)

theorem HeapStep.shape {saddr n : Nat} {s s' : HeapState} {c : HeapCall}
    (h : HeapShape saddr n s) (hstep : HeapStep s c s') : HeapShape saddr n s' := by
  cases hstep with
  | malloc size _ _ =>
      constructor
      · show (heapMalloc s.heap size).2.table.totalEntries = n
        unfold heapMalloc heapMallocBlocks
        simp only
        split
        · exact h.total
        · rw [heapMarkBlocksTaken_totalEntries]; exact h.total
      · show (heapMalloc s.heap size).2.saddr = saddr
        unfold heapMalloc heapMallocBlocks
        simp only
        split
        · exact h.start
        · exact h.start
  | free _ => exact ⟨(heapMarkBlocksFree_totalEntries _ _).trans h.total, h.start⟩

theorem HeapInv.safe {saddr n : Nat} {s : HeapState} (h : HeapInv saddr n s) :
    HeapSafe saddr n s := by
  obtain ⟨S, henc, hocc⟩ := h.enc
  refine ⟨fun a ha => ?_, ?_, h.stray⟩
  · obtain ⟨r, hr, hptr, hsz⟩ := hocc a ha
    have hb := henc.bound r hr
    have htot := h.total
    unfold Run.fin at hb
    omega
  · refine h.distinct.imp_of_mem (fun {a b} ha hb hne => ?_)
    obtain ⟨r, hr, hptr, hsz⟩ := hocc a ha
    obtain ⟨q, hq, hptr', hsz'⟩ := hocc b hb
    have hrq : r ≠ q := fun he => hne (by rw [hptr, hptr', he])
    have hap := S.apart r hr q hq hrq
    unfold Run.Apart Run.fin at hap
    omega

section Steps

variable {saddr n : Nat} (hn : n < 524288)

include hn

theorem HeapInv.free {s : HeapState} {ptr : Nat} (h : HeapInv saddr n s)
    (hlive : ∃ a ∈ s.live, a.ptr = ptr) :
    HeapInv saddr n
      { heap := heapFree s.heap ptr, live := s.live.filter (fun a => a.ptr ≠ ptr) } := by
  have hshape := HeapStep.shape h.toHeapShape (HeapStep.free hlive)
  have htot := h.total
  have hstart := h.start
  obtain ⟨S, henc, hocc⟩ := h.enc
  obtain ⟨a, ha, rfl⟩ := hlive
  obtain ⟨r, hr, hptr, _⟩ := hocc a ha
  refine { hshape with stray := ?_, enc := ⟨S.erase r, ?_, fun b hb => ?_⟩, distinct := ?_ }
  · exact (heapMarkBlocksFree_stray _ _).trans h.stray
  · simp only
    rw [hptr, ← hstart]
    exact heapFree_of_run henc hr (by omega)
  · obtain ⟨hb', hne⟩ := List.mem_filter.mp hb
    obtain ⟨q, hq, hocc'⟩ := hocc b hb'
    refine ⟨q, ⟨hq, fun he => ?_⟩, hocc'⟩
    have : b.ptr = a.ptr := by rw [hocc'.1, hptr, he]
    simp [this] at hne
  · exact h.distinct.filter _

variable (haddr : saddr + 4096 * n < 4294967296)

include haddr

theorem HeapInv.malloc {s : HeapState} {size : Nat} (h : HeapInv saddr n s) (h₁ : 1 ≤ size)
    (h₂ : size < 4294967296) (hroom : s.heap.table.RoomFor size) :
    HeapInv saddr n
      { heap := (heapMalloc s.heap size).2
        live := if (heapMalloc s.heap size).1 = 0 then s.live
                else ⟨(heapMalloc s.heap size).1, size⟩ :: s.live } := by
  have hshape := HeapStep.shape h.toHeapShape (HeapStep.malloc size h₁ h₂)
  have htot := h.total
  have hstart := h.start
  obtain ⟨S, henc, hocc⟩ := h.enc
  refine { hshape with stray := ?_, enc := ?_, distinct := ?_ }
  all_goals
    rcases heapMalloc_of_roomFor henc h₁ h₂ hroom (by omega) (by omega) with
      hnull | ⟨r, hpos, hap, hres, hcover, _, _, henc', hstray⟩
  · rw [hnull]; exact h.stray
  · rw [hres]; exact hstray.trans h.stray
  · rw [hnull]; exact ⟨S, henc, hocc⟩
  · rw [hres]
    refine ⟨S.insert r hpos hap, henc', fun a ha => ?_⟩
    have hold : ∀ a ∈ s.live, ∃ q ∈ (S.insert r hpos hap).runs, a.Occupies saddr q := fun a ha =>
      let ⟨q, hq, ho⟩ := hocc a ha
      ⟨q, RunSet.mem_insert.mpr (Or.inr hq), ho⟩
    by_cases hz : s.heap.saddr + 4096 * r.start = 0
    · simp only [hz, if_true] at ha
      exact hold a ha
    · simp only [hz, if_false] at ha
      rcases List.mem_cons.mp ha with rfl | ha
      · exact ⟨r, RunSet.mem_insert.mpr (Or.inl rfl), by rw [hstart], hcover⟩
      · exact hold a ha
  · rw [hnull]; exact h.distinct
  · rw [hres]
    by_cases hz : s.heap.saddr + 4096 * r.start = 0
    · simp only [hz, if_true]; exact h.distinct
    · simp only [hz, if_false]
      refine List.pairwise_cons.mpr ⟨fun b hb heq => ?_, h.distinct⟩
      -- a live allocation at the same address would occupy a run that meets the fresh one
      obtain ⟨q, hq, hptr, _⟩ := hocc b hb
      have hqr : q.start = r.start := by simp only at heq; omega
      have hmeet : Run.Has r r.start := ⟨Nat.le_refl _, by unfold Run.fin; omega⟩
      exact (hap q hq).not_has hmeet
        ⟨by omega, by have := S.pos q hq; unfold Run.fin; omega⟩

/-- What one call within its condition preserves. -/
theorem HeapInv.step {s s' : HeapState} {c : HeapCall} (h : HeapInv saddr n s) (hok : c.Ok s)
    (hstep : HeapStep s c s') : HeapInv saddr n s' := by
  cases hstep with
  | malloc _ h₁ h₂ => exact h.malloc hn haddr h₁ h₂ hok
  | free hlive => exact h.free hn hlive

/-- A call outside its condition leaves an unsafe state. -/
theorem HeapStep.ok_of_safe {s s' : HeapState} {c : HeapCall} (h : HeapShape saddr n s)
    (hstep : HeapStep s c s') (hsafe : HeapSafe saddr n s') : c.Ok s := by
  cases hstep with
  | free _ => trivial
  | malloc size h₁ h₂ =>
      have htot := h.total
      have hstart := h.start
      by_contra hroom
      have hlast : ¬ s.heap.table.LastTaken := fun hl => hroom (Or.inl hl)
      rcases heapMallocBlocks_cases s.heap (heapBlocks size) (by omega) with ⟨_, hr⟩ | ⟨b, hb, hr⟩
      · cases hr with
        | full hfull _ => exact hlast hfull
      have hbig := heapBlocks_lt size h₂
      have hstray := hsafe.stray
      have hinside := hsafe.inside
      simp only [heapMalloc_eq, hb] at hstray hinside
      generalize hbr : (b : Int) = r at hr
      cases hr with
      | full => omega
      | @fit b' hk hle hfree _ _ =>
          obtain rfl : b = b' := by omega
          refine hroom (Or.inr ⟨?_, b, hle, hfree⟩)
          by_contra hgt
          rw [heapBlocks_of_gt (by omega) h₂] at hk
          omega
      | @tail b' hlt hfree _ hno =>
          obtain rfl : b = b' := by omega
          rcases Nat.eq_zero_or_pos (heapBlocks size) with hz | hk
          · -- nothing is marked: block 0 lets the loop run over the whole address space, any other
            -- block yields a pointer that has no room behind it
            rcases Nat.eq_zero_or_pos b with rfl | hbpos
            · rw [hz, heapMarkBlocksTaken_zero_stray (by omega)] at hstray
              exact absurd hstray (by decide)
            · have hbig' : 0xFFFFF000 < size := by
                by_contra hle
                have := (heapBlocks_of_le h₁ (by omega)).1
                omega
              rw [heapBlockToAddress_eq (by omega), if_neg (by omega)] at hinside
              have := hinside _ List.mem_cons_self
              simp only at this
              omega
          · -- the free run at the end of the table is too short: the last mark lies behind the table
            have hle := ((heapMarkBlocksTaken_stray hk (by omega)).mp hstray).2
            exact hno hk ⟨b, hle, hfree.mono (by omega)⟩

end Steps

/-! ## Creation -/

/-- `heap_validate_table` accepts no region of `2^19` blocks or more: its size does not fit an `int`. -/
theorem heapValidateTable_neg {ptr n : Nat} {table : HeapTable} (hn : table.totalEntries = n)
    (hlt : ptr + 4096 * n < 4294967296) (hge : 524288 ≤ n) :
    heapValidateTable ptr (ptr + 4096 * n) table < 0 := by
  have hsize : s32 ((ptr + 4096 * n : Nat) - ptr) = 4096 * n - 4294967296 := by
    unfold s32; omega
  have htotal : (4096 * n - 4294967296 : Int).tdiv bimbleosHeapBlockSize = n - 1048576 := by
    rw [show (4096 * n - 4294967296 : Int) = (n - 1048576) * bimbleosHeapBlockSize by
      unfold bimbleosHeapBlockSize; omega, Int.mul_tdiv_cancel _ (by decide)]
  unfold heapValidateTable
  simp only
  rw [hsize, htotal, if_pos (by unfold u32; omega)]
  decide

/-- When `heap_create` succeeds, the table was valid and is cleared. -/
theorem heapCreate_cases {heap₀ heap : Heap} {ptr end_ : Nat} {table : HeapTable} {res : Int}
    (hres : heapCreate heap₀ ptr end_ table = (res, heap)) (hok : 0 ≤ res) :
    ¬ heapValidateTable ptr end_ table < 0 ∧
      heap = { table := table.clear (u32 (s32 table.totalEntries)), saddr := ptr } := by
  unfold heapCreate at hres
  split at hres
  · obtain ⟨rfl, _⟩ := Prod.mk.inj hres
    exact absurd hok (by decide)
  · simp only at hres
    split at hres
    · obtain ⟨rfl, _⟩ := Prod.mk.inj hres
      omega
    · rename_i hneg
      exact ⟨hneg, (Prod.mk.inj hres).2.symm⟩

/-- A successful `heap_create` over a region of `n` blocks leaves an all-free table of `n` entries; `n`
    is below `2^19`, since the region size is an `int`. -/
theorem heapCreate_ok {heap₀ heap : Heap} {ptr end_ n : Nat} {table : HeapTable} {res : Int}
    (hres : heapCreate heap₀ ptr end_ table = (res, heap)) (hok : 0 ≤ res)
    (hend : end_ = ptr + 4096 * n) (hlt : end_ < 4294967296) (hn : table.totalEntries = n)
    (hstray : table.stray = false) :
    n < 524288 ∧ HeapInv ptr n { heap := heap, live := [] } := by
  subst hend
  obtain ⟨hvalid, hheap⟩ := heapCreate_cases hres hok
  have hsmall : n < 524288 := by
    by_contra hge
    exact hvalid (heapValidateTable_neg hn hlt (by omega))
  have hlen : u32 (s32 table.totalEntries) = n := by unfold u32 s32; omega
  rw [hlen] at hheap
  subst hheap
  refine ⟨hsmall, ⟨hn, rfl⟩, hstray, ⟨RunSet.empty, ?_, fun a ha => ?_⟩, List.Pairwise.nil⟩
  · refine Encodes.of_cleared (fun i hi => ?_)
    rw [HeapTable.clear_totalEntries, hn] at hi
    exact HeapTable.clear_entries hi
  · exact absurd ha List.not_mem_nil

/-! ## The guarantee over whole histories -/

/-- **A history of calls keeps the heap safe exactly when every `heap_malloc` in it has room.** The
    heap is any one that `heap_create` accepts over a region of `n` blocks. -/
theorem heapHistory_safe_iff {heap₀ heap : Heap} {ptr end_ n : Nat} {table : HeapTable} {res : Int}
    {tr : List (HeapState × HeapCall)} {s : HeapState}
    (hres : heapCreate heap₀ ptr end_ table = (res, heap)) (hok : res = 0)
    (hend : end_ = ptr + 4096 * n) (hlt : end_ < 4294967296) (hn : table.totalEntries = n)
    (hstray : table.stray = false) (htr : Trace HeapStep { heap := heap, live := [] } tr s) :
    Throughout (HeapSafe ptr n) tr s ↔ ∀ q ∈ tr, q.2.Ok q.1 := by
  obtain ⟨hsmall, hinit⟩ := heapCreate_ok hres (by omega) hend hlt hn hstray
  constructor
  · intro hsafe
    have hshape : ∀ s c s', HeapShape ptr n s → HeapStep s c s' → HeapShape ptr n s' :=
      fun _ _ _ hs hstep => HeapStep.shape hs hstep
    refine (htr.guard_of_safe hshape ?_ hinit.toHeapShape hsafe).2
    intro s c s' hs _ hstep hsafe'
    exact HeapStep.ok_of_safe hsmall (by omega) hs hstep hsafe'
  · intro hg
    have hstep : ∀ s (c : HeapCall) s', HeapInv ptr n s → c.Ok s → HeapStep s c s' → HeapInv ptr n s' :=
      fun _ _ _ hs hok hstep => hs.step hsmall (by omega) hok hstep
    exact (htr.invariant hstep hinit hg).imp (fun _ hs => hs.safe)

/-- A table of one entry, before `heap_create` clears it. -/
def oneBlockTable : HeapTable := { entries := fun _ => 0xFF#8, totalEntries := 1 }

/-- A heap of one block at `0x1000`, as `heap_create` leaves it. -/
def oneBlockHeap : Heap := { table := oneBlockTable.clear 1, saddr := 0x1000 }

theorem oneBlockHeap_created : heapCreate oneBlockHeap 0x1000 0x2000 oneBlockTable = (0, oneBlockHeap) := by
  have hlen : u32 (s32 oneBlockTable.totalEntries) = 1 := by decide +kernel
  have hvalid : heapValidateTable 0x1000 0x2000 oneBlockTable = 0 := by decide +kernel
  simp only [heapCreate, hlen, hvalid]
  rfl

def threeBlockTable : HeapTable := { entries := fun _ => 0xFF#8, totalEntries := 3 }

/-- A heap of three blocks. -/
def threeBlockHeap : Heap := { table := threeBlockTable.clear 3, saddr := 0x1000 }

theorem threeBlockHeap_created : heapCreate oneBlockHeap 0x1000 0x4000 threeBlockTable = (0, threeBlockHeap) := by
  have hlen : u32 (s32 threeBlockTable.totalEntries) = 3 := by decide +kernel
  have hvalid : heapValidateTable 0x1000 0x4000 threeBlockTable = 0 := by decide +kernel
  simp only [heapCreate, hlen, hvalid]
  rfl

/-- Two allocations, the first of which is given back, and one that gets its block. -/
theorem heapHistory_safe_iff_threeBlocks : ∃ (tr : List (HeapState × HeapCall)) (s : HeapState),
    tr.map Prod.snd = [HeapCall.malloc 100, HeapCall.malloc 5000, HeapCall.free 0x1000, HeapCall.malloc 4096] ∧
      (Throughout (HeapSafe 0x1000 3) tr s ↔ ∀ q ∈ tr, q.2.Ok q.1) := by
  refine ⟨_, _, rfl, heapHistory_safe_iff threeBlockHeap_created rfl rfl (by decide) rfl rfl
    (Trace.snoc (Trace.snoc (Trace.snoc (Trace.snoc Trace.nil (HeapStep.malloc 100 (by decide) (by decide)))
      (HeapStep.malloc 5000 (by decide) (by decide))) (@HeapStep.free _ 0x1000 ?_))
      (HeapStep.malloc 4096 (by decide) (by decide)))⟩
  decide +kernel

/-- Asking the one-block heap for two blocks: the scan ends at the free run of length 1, and
    `heap_mark_blocks_taken` writes the entry behind the table. -/
theorem heapMalloc_strays_oneBlock :
    ¬ ∀ (heap₀ heap : Heap) (ptr end_ n : Nat) (table : HeapTable) (res : Int)
        (tr : List (HeapState × HeapCall)) (s : HeapState),
      heapCreate heap₀ ptr end_ table = (res, heap) → res = 0 → end_ = ptr + 4096 * n →
      end_ < 4294967296 → table.totalEntries = n → table.stray = false →
      Trace HeapStep { heap := heap, live := [] } tr s → Throughout (HeapSafe ptr n) tr s := by
  intro h
  have hsafe := h oneBlockHeap oneBlockHeap 0x1000 0x2000 1 oneBlockTable 0 _ _
    oneBlockHeap_created rfl rfl (by decide) rfl rfl
    (Trace.snoc Trace.nil (HeapStep.malloc 8192 (by decide) (by decide)))
  have hstray : (heapMalloc oneBlockHeap 8192).2.table.stray = true := by decide +kernel
  exact absurd hsafe.2.stray (by simp only [hstray]; decide)

/-! ## Sizes near `2^32` -/

/-- The free run that starts at `s` reaches the end of the table. -/
structure HeapTable.LastRun (t : HeapTable) (s : Nat) : Prop where
  inside : s < t.totalEntries
  free : t.FreeRun s (t.totalEntries - s)
  left : s = 0 ∨ ¬ t.Free (s - 1)

section Covers

variable {heap : Heap} {s size : Nat}

theorem HeapTable.LastRun.unique {t : HeapTable} {s s' : Nat} (h : t.LastRun s) (h' : t.LastRun s') :
    s = s' := by
  have hle : ∀ {a b : Nat}, t.LastRun a → t.LastRun b → ¬ a < b := by
    intro a b ha hb hlt
    rcases hb.left with rfl | htaken
    · exact absurd hlt (Nat.not_lt_zero a)
    · apply htaken
      have hend := hb.inside
      exact ha.free (b - 1) (by omega) (by omega)
  have h₁ := hle h h'
  have h₂ := hle h' h
  omega

/-- A request for no blocks is answered with the start of the last run. -/
theorem heapMallocBlocks_zero (hn : heap.table.totalEntries < 2147483648) :
    ((heapMallocBlocks heap 0).1 = 0 ∧ ∀ s, ¬ heap.table.LastRun s) ∨
      ∃ s : Nat, heap.table.LastRun s ∧ heapGetStartBlock heap 0 = s ∧
        (heapMallocBlocks heap 0).1 = (heap.saddr + 4096 * s) % 4294967296 := by
  rcases heapGetStartBlock_spec heap 0 hn with ⟨s, hstart, hres⟩ | ⟨hstart, hres⟩
  · right
    have haddress : (heapMallocBlocks heap 0).1 = (heap.saddr + 4096 * s) % 4294967296 := by
      unfold heapMallocBlocks
      simp only [hstart]
      rw [if_neg (by omega)]
      unfold heapBlockToAddress u32 bimbleosHeapBlockSize
      omega
    generalize hr : (s : Int) = r at hres
    cases hres with
    | fit hk => exact absurd hk (Nat.lt_irrefl 0)
    | @tail a hlt hfree hleft _ =>
        obtain rfl : s = a := by omega
        exact ⟨s, ⟨hlt, hfree, hleft⟩, hstart, haddress⟩
    | full => omega
  · left
    have hnull : (heapMallocBlocks heap 0).1 = 0 := by
      unfold heapMallocBlocks
      simp only [hstart]
      rw [if_pos (by decide)]
    refine ⟨hnull, ?_⟩
    intro s hlast
    cases hres with
    | full hfull =>
        have hnot : ¬ heap.table.LastTaken := ScanResult.tail_last hlast.inside hlast.free
        exact hnot hfull

/-- `heap_malloc` comes back. With no block to mark from block 0 on, `end_block` is `0xFFFFFFFF`, and the loop up to it
    writes over everything behind the table. -/
def HeapMallocReturns (heap : Heap) (size : Nat) : Prop :=
  heapBlocks size = 0 → heapGetStartBlock heap 0 ≠ 0

/-- **What `heap_malloc` asks for covers the size** exactly for sizes whose rounding does not wrap, and on heaps
    that have nothing to answer a request for no blocks with, or do not come back from it. -/
theorem heapMalloc_covers_iff (hsize : size < 4294967296) (hn : heap.table.totalEntries < 2147483648) :
    (HeapMallocReturns heap size → (heapMalloc heap size).1 ≠ 0 → size ≤ heapBlocks size * 4096) ↔
      size ≤ 0xFFFFF000 ∨
        ∀ s, heap.table.LastRun s → s = 0 ∨ (heap.saddr + 4096 * s) % 4294967296 = 0 := by
  unfold HeapMallocReturns
  rw [heapMalloc_eq]
  by_cases hle : size ≤ 0xFFFFF000
  · -- the rounding does not wrap
    refine iff_of_true (fun _ _ => ?_) (Or.inl hle)
    rcases Nat.eq_zero_or_pos size with rfl | hpos
    · exact Nat.zero_le _
    · have hcover := (heapBlocks_of_le hpos hle).2.1
      omega
  · rw [heapBlocks_of_gt (by omega) hsize]
    constructor
    · intro h
      right
      intro s hlast
      rcases heapMallocBlocks_zero hn with ⟨_, hnone⟩ | ⟨s', hlast', hstart, hanswer⟩
      · exact absurd hlast (hnone s)
      · obtain rfl := hlast.unique hlast'
        by_contra hneither
        obtain ⟨hfirst, hne⟩ := not_or.mp hneither
        have hsmall := h (fun _ => by omega) (by rw [hanswer]; exact hne)
        omega
    · rintro (hle' | hzero) hreturns hne
      · exact absurd hle' hle
      · rcases heapMallocBlocks_zero hn with ⟨hnull, _⟩ | ⟨s, hlast, hstart, hanswer⟩
        · exact absurd hnull hne
        · rcases hzero s hlast with rfl | hnull
          · exact absurd hstart (hreturns rfl)
          · exact absurd (hanswer.trans hnull) hne

end Covers

/-- The kernel's heap with one allocation in its first block. -/
def firstTakenHeap : Heap where
  table := { entries := fun i => if i = 0 then heapBlockTableEntryTaken ||| heapBlockIsFirst
                                 else heapBlockTableEntryFree,
             totalEntries := 25600 }
  saddr := bimbleosHeapAddress

theorem heapMalloc_covers_iff_small :
    (HeapMallocReturns firstTakenHeap 100 → (heapMalloc firstTakenHeap 100).1 ≠ 0 → 100 ≤ heapBlocks 100 * 4096) ↔
      100 ≤ 0xFFFFF000 ∨
        ∀ s, firstTakenHeap.table.LastRun s → s = 0 ∨ (firstTakenHeap.saddr + 4096 * s) % 4294967296 = 0 :=
  heapMalloc_covers_iff (by decide) (by decide)

/-- Behind a taken block, a request for no blocks is answered with the block after it. -/
theorem firstTakenHeap_zero : heapMallocBlocks firstTakenHeap 0
    = (bimbleosHeapAddress + 4096, heapMarkBlocksTaken firstTakenHeap 1 0) := by
  have hfree : ∀ i, 1 ≤ i → firstTakenHeap.table.Free i := by
    intro i hi
    have hentry : firstTakenHeap.table.entries i = heapBlockTableEntryFree := if_neg (by omega)
    unfold HeapTable.Free
    rw [hentry]
    decide
  rw [heapMallocBlocks_front (s := 1) (by decide) (by decide) (fun i hi => ?_) fun i hi _ => hfree i hi]
  · rfl
  · obtain rfl : i = 0 := by omega
    decide

/-- A request for `0xFFFFF001` bytes: the size is rounded to 0, and the answer is the first free block. -/
theorem heapMalloc_wraps : ¬ ∀ (heap : Heap) (size : Nat), size < 4294967296 →
    heap.table.totalEntries < 2147483648 → HeapMallocReturns heap size → (heapMalloc heap size).1 ≠ 0 →
    size ≤ heapBlocks size * 4096 := by
  intro h
  have hblocks : heapBlocks 0xFFFFF001 = 0 := heapBlocks_of_gt (by decide) (by decide)
  have hanswer : (heapMalloc firstTakenHeap 0xFFFFF001).1 = bimbleosHeapAddress + 4096 := by
    rw [heapMalloc_eq, hblocks, firstTakenHeap_zero]
  have hreturns : HeapMallocReturns firstTakenHeap 0xFFFFF001 := by
    intro _ hzero
    have hstart : (heapMallocBlocks firstTakenHeap 0).1 = bimbleosHeapAddress := by
      unfold heapMallocBlocks
      simp only [hzero]
      rfl
    rw [firstTakenHeap_zero] at hstart
    exact absurd hstart (by decide)
  have hcover := h firstTakenHeap 0xFFFFF001 (by decide) (by decide) hreturns (by rw [hanswer]; decide)
  rw [hblocks] at hcover
  exact absurd hcover (by decide)

end BimbleOS
