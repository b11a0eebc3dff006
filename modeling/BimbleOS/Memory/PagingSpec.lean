import BimbleOS.Memory.Paging
import BimbleOS.Lib.Window
import Mathlib.Tactic.IntervalCases
import Mathlib.Data.Nat.Bitwise

/-!
# `Memory.PagingSpec` — what mapping a range does

`pagingMapTo_eq` says when `paging_map_to` maps and which entries it then writes, in order. For a set of
page directories whose tables are all different pages (`DirsOk`, as `paging_new` builds them) each write
changes one entry of one directory, `DirsOk.pageEntry_setPage`; so a directory is a function from pages to
entries, and mapping a range is a series of updates of that function.
-/

namespace BimbleOS

open CWord Window

/-! ## Entries -/

theorem frameOf_eq (entry : BitVec 32) : frameOf entry = entry.toNat / 4096 * 4096 := by
  have hmask : entry &&& 0xfffff000#32 = (entry >>> 12) <<< 12 := by
    ext i hi
    simp only [BitVec.getElem_and, BitVec.getElem_shiftLeft]
    interval_cases i <;> simp
  have hlt := entry.isLt
  unfold frameOf
  rw [hmask, BitVec.toNat_shiftLeft, BitVec.toNat_ushiftRight, Nat.shiftRight_eq_div_pow,
    Nat.shiftLeft_eq]
  omega

/-- Flags below the page size are added to an aligned address. -/
theorem toNat_or_flags {phys : Nat} {flags : BitVec 32} (halign : phys % 4096 = 0)
    (hlt : phys < 4294967296) (hflags : flags.toNat < 4096) :
    (BitVec.ofNat 32 phys ||| flags).toNat = phys + flags.toNat := by
  rw [BitVec.toNat_or, BitVec.toNat_ofNat, Nat.mod_eq_of_lt hlt,
    show phys = 2 ^ 12 * (phys / 4096) by omega, ← Nat.two_pow_add_eq_or_of_lt hflags]

/-- A page entry gives back its frame. -/
theorem frameOf_or {phys : Nat} {flags : BitVec 32} (halign : phys % 4096 = 0) (hlt : phys < 4294967296)
    (hflags : flags.toNat < 4096) : frameOf (BitVec.ofNat 32 phys ||| flags) = phys := by
  rw [frameOf_eq, toNat_or_flags halign hlt hflags]
  omega

/-- Flag bits stay visible in a page entry. -/
theorem entry_flag {phys : Nat} {flags : BitVec 32} (halign : phys % 4096 = 0) (hlt : phys < 4294967296)
    {bit : BitVec 32} (hbit : bit.toNat < 4096) :
    (BitVec.ofNat 32 phys ||| flags) &&& bit = flags &&& bit := by
  have hzero : BitVec.ofNat 32 phys &&& bit = 0#32 := by
    apply BitVec.eq_of_toNat_eq
    rw [BitVec.toNat_and, BitVec.toNat_ofNat, Nat.mod_eq_of_lt hlt]
    refine Nat.eq_of_testBit_eq fun i => ?_
    rw [Nat.testBit_and]
    by_cases hi : i < 12
    · have hphys : phys.testBit i = false := by
        rw [show phys = 2 ^ 12 * (phys / 4096) by omega, Nat.testBit_two_pow_mul]
        simp [hi]
      simp [hphys]
    · have hhigh : bit.toNat.testBit i = false :=
        Nat.testBit_lt_two_pow (Nat.lt_of_lt_of_le hbit
          (Nat.pow_le_pow_right (by decide : 0 < 2) (Nat.le_of_not_lt hi)))
      simp [hhigh]
  rw [BitVec.and_comm, BitVec.and_or_distrib_left, BitVec.and_comm bit, hzero, BitVec.zero_or,
    BitVec.and_comm]

/-! ## Mapping a range -/

/-- The `i`-th page of a range: its virtual address and its entry. -/
def rangePage (virt phys : Nat) (flags : BitVec 32) (i : Nat) : Nat × BitVec 32 :=
  (u32 (virt + 4096 * i : Nat), BitVec.ofNat 32 (u32 (phys + 4096 * i : Nat)) ||| flags)

/-- The pages a store has mapped so far, with their entries. -/
def PageStore.pages (s : PageStore) : List (Nat × BitVec 32) := s.mapped.map fun p => (p.virt, p.entry)

/-- `paging_set` on an aligned address. -/
theorem pagingSet_aligned {s : PageStore} {directory virt : Nat} {val : BitVec 32}
    (hvirt : virt % 4096 = 0) : pagingSet s directory virt val = (0, { s with
      word := Function.update s.word
        (s.table directory (virt / 4194304) + 4 * (virt % 4194304 / 4096)) val
      mapped := s.mapped ++ [⟨directory, virt, val⟩] }) := by
  have haligned : pagingIsAligned virt = true := decide_eq_true hvirt
  unfold pagingSet pagingGetIndexes
  rw [haligned]
  rfl

/-- `paging_set` on any other address fails. -/
theorem pagingSet_misaligned {s : PageStore} {directory virt : Nat} {val : BitVec 32}
    (hvirt : virt % 4096 ≠ 0) : pagingSet s directory virt val = (-EINVARG, s) := by
  have hmisaligned : pagingIsAligned virt = false := decide_eq_false hvirt
  unfold pagingSet
  rw [hmisaligned]
  rfl

/-- `paging_map` on aligned addresses. -/
theorem pagingMap_aligned {s : PageStore} {pageDirectory virt phys : Nat} {flags : BitVec 32}
    (hvirt : virt % 4096 = 0) (hphys : phys % 4096 = 0) :
    pagingMap s pageDirectory virt phys flags
      = pagingSet s (s.directory pageDirectory) virt (BitVec.ofNat 32 phys ||| flags) := by
  refine if_neg (fun h => ?_)
  rcases h with h | h
  · exact h hvirt
  · exact h hphys

theorem u32_step (a i : Nat) : u32 ((u32 (a + 4096 : Nat) + 4096 * i : Nat) : Int)
    = u32 ((a + 4096 * (i + 1) : Nat) : Int) := by
  simp only [u32_natCast]
  omega

theorem rangePage_succ (virt phys : Nat) (flags : BitVec 32) (i : Nat) :
    rangePage (u32 (virt + 4096 : Nat)) (u32 (phys + 4096 : Nat)) flags i
      = rangePage virt phys flags (i + 1) := by
  unfold rangePage
  rw [u32_step, u32_step]

theorem u32_page_aligned {a : Nat} (h : a % 4096 = 0) : u32 ((a + 4096 : Nat) : Int) % 4096 = 0 := by
  rw [u32_natCast]
  omega

/-- Mapping a range of aligned pages never fails, and writes one entry for each page in turn. -/
theorem pagingMapRange_pages {s : PageStore} {pageDirectory virt phys n : Nat} {flags : BitVec 32}
    (hvirt : virt % 4096 = 0) (hphys : phys % 4096 = 0) (hv : virt < 4294967296)
    (hp : phys < 4294967296) :
    (pagingMapRange s pageDirectory virt phys flags n).1 = 0 ∧
      (pagingMapRange s pageDirectory virt phys flags n).2.pages
        = s.pages ++ window (rangePage virt phys flags) 0 n := by
  induction n generalizing s virt phys with
  | zero => exact ⟨rfl, (List.append_nil _).symm⟩
  | succ n ih =>
      have hstep : pagingMap s pageDirectory virt phys flags = _ :=
        (pagingMap_aligned hvirt hphys).trans (pagingSet_aligned hvirt)
      have hfirst : rangePage virt phys flags 0 = (virt, BitVec.ofNat 32 phys ||| flags) := by
        unfold rangePage
        rw [Nat.mul_zero, Nat.add_zero, Nat.add_zero, u32_of_lt hv, u32_of_lt hp]
      have hrest : window (rangePage (u32 (virt + 4096 : Nat)) (u32 (phys + 4096 : Nat)) flags) 0 n
          = window (rangePage virt phys flags) 1 n := by
        refine window_inj.mpr fun i _ => ?_
        rw [rangePage_succ, Nat.zero_add, Nat.add_comm]
      unfold pagingMapRange
      rw [hstep]
      simp only [show ¬ ((0 : Int) < 0) by omega, if_false]
      obtain ⟨hres, hpages⟩ := @ih
        { word := Function.update s.word
            (s.table (s.directory pageDirectory) (virt / 4194304) + 4 * (virt % 4194304 / 4096))
            (BitVec.ofNat 32 phys ||| flags)
          mapped := s.mapped ++ [⟨s.directory pageDirectory, virt, BitVec.ofNat 32 phys ||| flags⟩] }
        (u32 (virt + 4096 : Nat)) (u32 (phys + 4096 : Nat)) (u32_page_aligned hvirt)
        (u32_page_aligned hphys) (u32_lt _) (u32_lt _)
      refine ⟨hres, hpages.trans ?_⟩
      unfold PageStore.pages
      rw [hrest, window_succ, hfirst, List.map_append, List.append_assoc]
      rfl

/-- `paging_map_to` maps when the three addresses are aligned and in order, and fails without any
    change otherwise. -/
theorem pagingMapTo_eq (s : PageStore) (pageDirectory virt phys physEnd : Nat) (flags : BitVec 32) :
    pagingMapTo s pageDirectory virt phys physEnd flags
      = if virt % 4096 = 0 ∧ phys % 4096 = 0 ∧ physEnd % 4096 = 0 ∧ phys ≤ physEnd then
          pagingMapRange s pageDirectory virt phys flags ((physEnd - phys) / 4096)
        else (-EINVARG, s) := by
  have hsize : pagingPageSize = 4096 := rfl
  unfold pagingMapTo
  rw [hsize]
  by_cases hvirt : virt % 4096 = 0
  · by_cases hphys : phys % 4096 = 0
    · by_cases hend : physEnd % 4096 = 0
      · by_cases hle : physEnd < phys
        · rw [if_neg (by omega), if_neg (by omega), if_neg (by omega), if_pos hle, if_neg (by omega)]
        · rw [if_neg (by omega), if_neg (by omega), if_neg (by omega), if_neg hle, if_pos (by omega)]
      · rw [if_neg (by omega), if_neg (by omega), if_pos hend, if_neg (by omega)]
    · rw [if_neg (by omega), if_pos hphys, if_neg (by omega)]
  · rw [if_pos hvirt, if_neg (by omega)]

/-! ## Directories as functions from pages to entries -/

/-- The entry a directory holds for a page. -/
def PageStore.pageEntry (s : PageStore) (directory virt : Nat) : BitVec 32 :=
  s.word (s.table directory (virt / 4194304) + 4 * (virt % 4194304 / 4096))

theorem pagingGet_aligned {s : PageStore} {directory virt : Nat} (h : virt % 4096 = 0) :
    pagingGet s directory virt = s.pageEntry directory virt := by
  have haligned : pagingIsAligned virt = true := decide_eq_true h
  unfold pagingGet pagingGetIndexes
  rw [haligned]
  rfl

/-- The tables of the directories in `ds` are pages of their own. -/
structure DirsOk (s : PageStore) (ds : Nat → Prop) : Prop where
  aligned : ∀ d, ds d → s.directory d % 4096 = 0
  tables : ∀ d d' i i', ds d → ds d' → i < 1024 → i' < 1024 →
    s.table (s.directory d) i = s.table (s.directory d') i' → d = d' ∧ i = i'
  apart : ∀ d d' i, ds d → ds d' → i < 1024 →
    s.table (s.directory d) i ≠ s.directory d' ∧ s.table (s.directory d) i ≠ d' / 4096 * 4096

theorem PageStore.table_aligned (s : PageStore) (directory i : Nat) : s.table directory i % 4096 = 0 := by
  unfold PageStore.table
  rw [frameOf_eq]
  omega

section Dirs

variable {s : PageStore} {ds : Nat → Prop} {d virt : Nat} {val : BitVec 32}

/-- A write to a table changes neither a directory nor the word that points at it. -/
theorem DirsOk.word_kept (h : DirsOk s ds) {d' a : Nat} (hd : ds d) (hd' : ds d')
    (hvirt : virt < 4294967296)
    (ha : a = d' ∨ ∃ i, i < 1024 ∧ a = s.directory d' + 4 * i) :
    Function.update s.word (s.table (s.directory d) (virt / 4194304) + 4 * (virt % 4194304 / 4096)) val a
      = s.word a := by
  have halign := s.table_aligned (s.directory d) (virt / 4194304)
  obtain ⟨hdir, hstruct⟩ := h.apart d d' (virt / 4194304) hd hd' (by omega)
  refine Function.update_of_ne ?_ _ _
  rcases ha with rfl | ⟨i, hi, rfl⟩
  · omega
  · have haligned := h.aligned d' hd'
    omega

/-- The store after `paging_set` through a directory of `ds`. -/
def PageStore.setPage (s : PageStore) (pageDirectory virt : Nat) (val : BitVec 32) : PageStore :=
  (pagingSet s (s.directory pageDirectory) virt val).2

theorem DirsOk.directory_setPage (h : DirsOk s ds) (hd : ds d) (halign : virt % 4096 = 0)
    (hvirt : virt < 4294967296) {d' : Nat} (hd' : ds d') :
    (s.setPage d virt val).directory d' = s.directory d' := by
  unfold PageStore.setPage PageStore.directory
  rw [pagingSet_aligned halign]
  exact congrArg BitVec.toNat (h.word_kept hd hd' hvirt (Or.inl rfl))

theorem DirsOk.table_setPage (h : DirsOk s ds) (hd : ds d) (halign : virt % 4096 = 0)
    (hvirt : virt < 4294967296) {d' i : Nat} (hd' : ds d') (hi : i < 1024) :
    (s.setPage d virt val).table ((s.setPage d virt val).directory d') i
      = s.table (s.directory d') i := by
  rw [h.directory_setPage hd halign hvirt hd']
  unfold PageStore.setPage PageStore.table
  rw [pagingSet_aligned halign]
  exact congrArg frameOf (h.word_kept hd hd' hvirt (Or.inr ⟨i, hi, rfl⟩))

/-- The directories stay as they are. -/
theorem DirsOk.setPage (h : DirsOk s ds) (hd : ds d) (halign : virt % 4096 = 0)
    (hvirt : virt < 4294967296) : DirsOk (s.setPage d virt val) ds where
  aligned := fun d' hd' => by
    rw [h.directory_setPage hd halign hvirt hd']
    exact h.aligned d' hd'
  tables := fun d₁ d₂ i₁ i₂ h₁ h₂ hi₁ hi₂ heq => by
    rw [h.table_setPage hd halign hvirt h₁ hi₁, h.table_setPage hd halign hvirt h₂ hi₂] at heq
    exact h.tables d₁ d₂ i₁ i₂ h₁ h₂ hi₁ hi₂ heq
  apart := fun d₁ d₂ i h₁ h₂ hi => by
    rw [h.table_setPage hd halign hvirt h₁ hi, h.directory_setPage hd halign hvirt h₂]
    exact h.apart d₁ d₂ i h₁ h₂ hi

/-- **One write changes one entry of one directory.** -/
theorem DirsOk.pageEntry_setPage (h : DirsOk s ds) (hd : ds d) (halign : virt % 4096 = 0)
    (hvirt : virt < 4294967296) {d' virt' : Nat} (hd' : ds d') (halign' : virt' % 4096 = 0)
    (hvirt' : virt' < 4294967296) :
    (s.setPage d virt val).pageEntry ((s.setPage d virt val).directory d') virt'
      = if d' = d ∧ virt' = virt then val else s.pageEntry (s.directory d') virt' := by
  have hword : (s.setPage d virt val).word = Function.update s.word
      (s.table (s.directory d) (virt / 4194304) + 4 * (virt % 4194304 / 4096)) val := by
    unfold PageStore.setPage
    rw [pagingSet_aligned halign]
  unfold PageStore.pageEntry
  rw [h.table_setPage hd halign hvirt hd' (by omega), hword]
  split
  · next heq =>
      obtain ⟨rfl, rfl⟩ := heq
      exact Function.update_self ..
  · next hne =>
      refine Function.update_of_ne (fun heq => hne ?_) _ _
      -- equal word addresses lie in one table, at one index
      have h₁ := s.table_aligned (s.directory d') (virt' / 4194304)
      have h₂ := s.table_aligned (s.directory d) (virt / 4194304)
      obtain ⟨hdd, hii⟩ := h.tables d' d (virt' / 4194304) (virt / 4194304) hd' hd (by omega) (by omega)
        (by omega)
      refine ⟨hdd, ?_⟩
      subst hdd
      rw [hii] at heq
      omega

/-- How many pages `v` lies behind `virt`, around the address space. -/
def pageOffset (virt v : Nat) : Nat := u32 ((v : Int) - virt) / 4096

/-- The store after `paging_map_range` through a directory of `ds`. -/
def PageStore.setRange (s : PageStore) (pageDirectory virt phys : Nat) (flags : BitVec 32) (n : Nat) :
    PageStore :=
  (pagingMapRange s pageDirectory virt phys flags n).2

theorem PageStore.setRange_succ {phys n : Nat} {flags : BitVec 32} (hvirt : virt % 4096 = 0)
    (hphys : phys % 4096 = 0) : s.setRange d virt phys flags (n + 1)
      = (s.setPage d virt (BitVec.ofNat 32 phys ||| flags)).setRange d (u32 (virt + 4096 : Nat))
          (u32 (phys + 4096 : Nat)) flags n := by
  unfold PageStore.setRange PageStore.setPage
  rw [pagingMapRange, pagingMap_aligned hvirt hphys, pagingSet_aligned hvirt]
  rfl

/-- **Mapping a range** writes the entries of its pages and keeps all others, in this directory and in
    the others. -/
theorem DirsOk.setRange {phys n : Nat} {flags : BitVec 32} (h : DirsOk s ds) (hd : ds d)
    (hvirt : virt % 4096 = 0) (hphys : phys % 4096 = 0) (hv : virt < 4294967296)
    (hp : phys < 4294967296) (hn : n ≤ 1048576) :
    DirsOk (s.setRange d virt phys flags n) ds ∧
    (∀ d', ds d' → (s.setRange d virt phys flags n).directory d' = s.directory d') ∧
    ∀ d' v, ds d' → v % 4096 = 0 → v < 4294967296 →
      (s.setRange d virt phys flags n).pageEntry (s.directory d') v
        = if d' = d ∧ pageOffset virt v < n then (rangePage virt phys flags (pageOffset virt v)).2
          else s.pageEntry (s.directory d') v := by
  induction n generalizing s virt phys with
  | zero =>
      refine ⟨h, fun _ _ => rfl, fun d' v _ _ _ => ?_⟩
      rw [if_neg (fun hlt => absurd hlt.2 (Nat.not_lt_zero _))]
      rfl
  | succ n ih =>
      have hset : DirsOk (s.setPage d virt (BitVec.ofNat 32 phys ||| flags)) ds := h.setPage hd hvirt hv
      have hdir : ∀ d', ds d' → (s.setPage d virt (BitVec.ofNat 32 phys ||| flags)).directory d'
          = s.directory d' := fun d' hd' => h.directory_setPage hd hvirt hv hd'
      have hpage : ∀ d' v, ds d' → v % 4096 = 0 → v < 4294967296 → _ :=
        fun d' v hd' hv' hlt' => @DirsOk.pageEntry_setPage s ds d virt
          (BitVec.ofNat 32 phys ||| flags) h hd hvirt hv d' v hd' hv' hlt'
      rw [PageStore.setRange_succ hvirt hphys]
      generalize s.setPage d virt (BitVec.ofNat 32 phys ||| flags) = s₁ at hset hdir hpage
      obtain ⟨hok, hdirs, hpages⟩ := ih hset (u32_page_aligned hvirt) (u32_page_aligned hphys)
        (u32_lt _) (u32_lt _) (by omega)
      refine ⟨hok, fun d' hd' => (hdirs d' hd').trans (hdir d' hd'), fun d' v hd' hv' hlt' => ?_⟩
      rw [← hdir d' hd', hpages d' v hd' hv' hlt', hpage d' v hd' hv' hlt', hdir d' hd']
      by_cases hdd : d' = d
      · -- the page itself, a later page of the range, or another page
        have hoff : pageOffset virt v = 0 ↔ v = virt := by
          unfold pageOffset u32; omega
        have hnext : v ≠ virt → pageOffset (u32 (virt + 4096 : Nat)) v + 1 = pageOffset virt v := by
          intro hne
          unfold pageOffset u32; omega
        have hwrap : v = virt → ¬ pageOffset (u32 (virt + 4096 : Nat)) v < n := by
          intro heq
          unfold pageOffset u32; omega
        by_cases hvv : v = virt
        · have hzero : rangePage virt phys flags 0 = (virt, BitVec.ofNat 32 phys ||| flags) := by
            unfold rangePage
            rw [Nat.mul_zero, Nat.add_zero, Nat.add_zero, u32_of_lt hv, u32_of_lt hp]
          rw [if_neg (fun hc => hwrap hvv hc.2), if_pos ⟨hdd, hvv⟩, hoff.mpr hvv,
            if_pos ⟨hdd, Nat.succ_pos n⟩, hzero]
        · have hshift := hnext hvv
          by_cases hlt : pageOffset (u32 (virt + 4096 : Nat)) v < n
          · rw [if_pos ⟨hdd, hlt⟩, if_pos ⟨hdd, by omega⟩, rangePage_succ, hshift]
          · rw [if_neg (fun hc => hlt hc.2), if_neg (fun hc => hvv hc.2), if_neg (fun hc => ?_)]
            omega
      · rw [if_neg (fun hc => hdd hc.1), if_neg (fun hc => hdd hc.1), if_neg (fun hc => hdd hc.1)]

end Dirs

/-! ## The directories stay -/

/-- The directories of `ds` have the same tables in `s'` as in `s`. -/
structure SameDirs (ds : Nat → Prop) (s s' : PageStore) : Prop where
  ok : DirsOk s' ds
  directory : ∀ d, ds d → s'.directory d = s.directory d
  table : ∀ d i, ds d → i < 1024 → s'.table (s'.directory d) i = s.table (s.directory d) i

section Same

variable {s s' s'' : PageStore} {ds ds' : Nat → Prop} {d virt phys physEnd n : Nat} {flags : BitVec 32}

theorem SameDirs.refl (h : DirsOk s ds) : SameDirs ds s s := ⟨h, fun _ _ => rfl, fun _ _ _ _ => rfl⟩

theorem SameDirs.trans (h : SameDirs ds s s') (h' : SameDirs ds s' s'') : SameDirs ds s s'' where
  ok := h'.ok
  directory := fun d hd => (h'.directory d hd).trans (h.directory d hd)
  table := fun d i hd hi => (h'.table d i hd hi).trans (h.table d i hd hi)

/-- Fewer directories. -/
theorem DirsOk.mono (h : DirsOk s ds) (hsub : ∀ d, ds' d → ds d) : DirsOk s ds' :=
  ⟨fun d hd => h.aligned d (hsub d hd), fun d d' i i' hd hd' => h.tables d d' i i' (hsub d hd) (hsub d' hd'),
    fun d d' i hd hd' => h.apart d d' i (hsub d hd) (hsub d' hd')⟩

theorem SameDirs.mono (h : SameDirs ds s s') (hsub : ∀ d, ds' d → ds d) : SameDirs ds' s s' where
  ok := h.ok.mono hsub
  directory := fun d hd => h.directory d (hsub d hd)
  table := fun d i hd => h.table d i (hsub d hd)

/-- The page tables were changed through `d`: every other directory of `ds` maps what it mapped. -/
structure MapsThrough (ds : Nat → Prop) (d : Nat) (s s' : PageStore) : Prop extends SameDirs ds s s' where
  others : ∀ d' v, ds d' → d' ≠ d → v % 4096 = 0 → v < 4294967296 →
    s'.pageEntry (s'.directory d') v = s.pageEntry (s.directory d') v

theorem MapsThrough.refl (h : DirsOk s ds) : MapsThrough ds d s s := ⟨SameDirs.refl h, fun _ _ _ _ _ _ => rfl⟩

theorem MapsThrough.trans (h : MapsThrough ds d s s') (h' : MapsThrough ds d s' s'') : MapsThrough ds d s s'' where
  toSameDirs := h.toSameDirs.trans h'.toSameDirs
  others := fun d' v hd' hne halign hlt =>
    (h'.others d' v hd' hne halign hlt).trans (h.others d' v hd' hne halign hlt)

/-- `paging_map` through one of them, whatever it returns. -/
theorem MapsThrough.map (h : DirsOk s ds) (hd : ds d) (hvirt : virt < 4294967296) :
    MapsThrough ds d s (pagingMap s d virt phys flags).2 := by
  by_cases hboth : virt % 4096 = 0 ∧ phys % 4096 = 0
  · rw [pagingMap_aligned hboth.1 hboth.2]
    refine ⟨⟨h.setPage hd hboth.1 hvirt, fun d' hd' => h.directory_setPage hd hboth.1 hvirt hd',
      fun d' i hd' hi => h.table_setPage hd hboth.1 hvirt hd' hi⟩, fun d' v hd' hne halign hlt => ?_⟩
    exact (h.pageEntry_setPage hd hboth.1 hvirt hd' halign hlt).trans (if_neg fun hin => hne hin.1)
  · have hmisaligned : pagingMap s d virt phys flags = (-EINVARG, s) := by
      refine if_pos ?_
      by_contra hall
      rw [not_or, not_not, not_not] at hall
      exact hboth hall
    rw [hmisaligned]
    exact MapsThrough.refl h

theorem MapsThrough.mapRange (h : DirsOk s ds) (hd : ds d) (hvirt : virt < 4294967296) :
    MapsThrough ds d s (pagingMapRange s d virt phys flags n).2 := by
  induction n generalizing s virt phys with
  | zero => exact MapsThrough.refl h
  | succ n ih =>
      have hfirst : MapsThrough ds d s (pagingMap s d virt phys flags).2 := MapsThrough.map h hd hvirt
      unfold pagingMapRange
      rcases hmap : pagingMap s d virt phys flags with ⟨res, s₁⟩
      rw [hmap] at hfirst
      show MapsThrough ds d s (if res < 0 then (res, s₁) else _).2
      split
      · exact hfirst
      · exact hfirst.trans (ih hfirst.ok (u32_lt _))

/-- **`paging_map_to`** changes what one directory maps. -/
theorem MapsThrough.mapTo (h : DirsOk s ds) (hd : ds d) (hvirt : virt < 4294967296) :
    MapsThrough ds d s (pagingMapTo s d virt phys physEnd flags).2 := by
  rw [pagingMapTo_eq]
  split
  · exact MapsThrough.mapRange h hd hvirt
  · exact MapsThrough.refl h

theorem SameDirs.mapRange (h : DirsOk s ds) (hd : ds d) (hvirt : virt < 4294967296) :
    SameDirs ds s (pagingMapRange s d virt phys flags n).2 := (MapsThrough.mapRange h hd hvirt).toSameDirs

/-- The tables are the same, whatever they map. -/
theorem SameDirs.mapTo (h : DirsOk s ds) (hd : ds d) (hvirt : virt < 4294967296) :
    SameDirs ds s (pagingMapTo s d virt phys physEnd flags).2 := (MapsThrough.mapTo h hd hvirt).toSameDirs

end Same

end BimbleOS
