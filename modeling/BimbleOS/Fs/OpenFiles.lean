import BimbleOS.Fs.FileOwners
import BimbleOS.Fs.FileTable

/-!
# `Fs.OpenFiles` — open files over whole runs

An open descriptor is served with its own file as long as its number can be looked up and the blocks behind its
pointers are taken and no other file's: the structures in them are then what `fopen` left there. Three calls break
that. `fopen` hands out number 512, which `file_get_descriptor` refuses; it opens an entry whose copy or directory
could not be made, and leaves a null or a freed pointer; and `fclose` of an empty directory frees the address of an
array that has no block, also when another file got the block since. All other calls keep the law
(`fileRuns_law_iff`).
-/

namespace BimbleOS

open CWord Exec Transition

/-- The pointers of an open file: its descriptor in the table, and what the file system keeps for it. -/
def Kernel.filePtrs (k : Kernel) (q : Int × FatFileDescriptor) : List Nat :=
  ((k.fileDescriptors (q.1 - 1).toNat).map FileDescriptor.addr).toList ++ q.2.owned

/-- The blocks of an open file. -/
def Kernel.fileBlocks (k : Kernel) (q : Int × FatFileDescriptor) : Set Nat := k.heap.blocksOf (k.filePtrs q)

/-- Every open file is whole, and its blocks are taken and no other's. -/
structure FilesOwn (w : FilesWorld) : Prop where
  whole : ∀ q ∈ w.opened, q.2.item.Live
  taken : ∀ q ∈ w.opened, w.kernel.heap.Occupies (w.kernel.filePtrs q)
  apart : ∀ q ∈ w.opened, ∀ q' ∈ w.opened, q.1 ≠ q'.1 →
    Disjoint (w.kernel.fileBlocks q) (w.kernel.fileBlocks q')

/-- What holds in a good state: the open descriptors are all different, the calls on each act on its own
    file, which has its blocks to itself, and the first slot that is not open is the one that is handed out next. -/
structure FilesLaw (drive : Drive) (w : FilesWorld) : Prop where
  distinct : w.numbers.Nodup
  serves : ∀ q ∈ w.opened, Serves drive w.kernel q.1 q.2
  own : FilesOwn w
  again : ∀ i : Nat, i < bimbleosMaxFileDescriptors → ((i + 1 : Nat) : Int) ∉ w.numbers →
    (∀ j : Nat, j < i → ((j + 1 : Nat) : Int) ∈ w.numbers) →
    ∀ addr k₁, kzalloc sizeofFileDescriptor w.kernel = .ok (addr, k₁) → addr ≠ 0 →
      ∃ desc k', fileNewDescriptor w.kernel = .ok (.ok desc, k') ∧ desc.index = i + 1

/-- The condition on a call. `fopen` opens a file only while one of the first 511 slots is empty, and one whose copy
    or directory could be made; and the address that `fclose` frees for an empty directory is in no block of another
    open file. -/
def FilesEvent.Ok (drive : Drive) (w : FilesWorld) : FilesEvent → Prop
  | .fopen filename modeStr _ => ∀ volume data k₁, OpensFile drive filename modeStr w.kernel volume data k₁ →
      (∃ i, i < 511 ∧ w.kernel.fileDescriptors i = none) ∧ data.item.Live
  | .fclose fd _ => ∀ q ∈ w.opened, q.1 = fd → ∀ ptr ∈ q.2.item.emptyArray, ∀ q' ∈ w.opened, q'.1 ≠ fd →
      Disjoint (w.kernel.heap.blocksFrom ptr) (w.kernel.fileBlocks q')
  | _ => True

/-- A call on files, or something that leaves the table of open files and their blocks alone. -/
structure QuietStep (drive : Drive) (w : FilesWorld) (e : FilesEvent) (w' : FilesWorld) : Prop where
  step : FilesStep drive w e w'
  other : e = .other → w'.kernel.heap.Clean ∧
    w'.kernel.heap.table.totalEntries = w.kernel.heap.table.totalEntries ∧
    ∀ q ∈ w.opened, ∀ b ∈ w.kernel.fileBlocks q,
      w'.kernel.heap.table.entries b = w.kernel.heap.table.entries b

section Files

variable {drive : Drive} {k k' : Kernel} {fd : Int} {i : Nat} {file : FatFileDescriptor} {w w' : FilesWorld}
  {e : FilesEvent} {opened : List (Int × FatFileDescriptor)}

/-! ## The numbers -/

/-- As long as 512 is not issued and every file has its blocks, the law holds. -/
theorem FilesInv.law (h : FilesInv drive w) (hlast : (512 : Int) ∉ w.numbers) (hown : FilesOwn w) :
    FilesLaw drive w where
  distinct := h.distinct
  serves := fun q hq => by
    obtain ⟨i, hi, hfd, hheld⟩ := h.holds q hq
    have hne : i ≠ 511 := by
      rintro rfl
      exact hlast (mem_numbers.mpr ⟨q.2, by rw [show (512 : Int) = q.1 from hfd.symm]; exact hq⟩)
    rw [hfd]
    exact hheld.serves (by omega)
  own := hown
  again := fun i hi hnot hbefore addr k₁ halloc hne => by
    have hfree := h.empty i hi hnot
    have hfirst : FirstFree w.kernel i := ⟨hi, hfree, fun j hj hnone => h.not_open hnone (hbefore j hj)⟩
    exact ⟨_, _, fileNewDescriptor_first hfirst halloc hne, rfl⟩

/-- Once 512 is issued, the law fails. -/
theorem FilesLaw.last (h : FilesLaw drive w) : (512 : Int) ∉ w.numbers := by
  intro hmem
  obtain ⟨file, hmem⟩ := mem_numbers.mp hmem
  exact not_serves_last (h.serves _ hmem)

/-- A call that meets the condition does not issue 512. -/
theorem FilesStep.last_of_ok (hlast : (512 : Int) ∉ w.numbers) (hok : e.Ok drive w)
    (hstep : FilesStep drive w e w') : (512 : Int) ∉ w'.numbers := by
  cases hstep with
  | @opens filename modeStr fd volume data k₁ k' hrun hpos hopens =>
      cases fopen_outcome hrun with
      | missing => exact absurd hpos (Int.lt_irrefl 0)
      | full => exact absurd hpos (Int.lt_irrefl 0)
      | @opened volume data' k₁' k₂ i addr hopens' hfirst halloc hne =>
          obtain ⟨⟨j, hj, hnone⟩, _⟩ := hok _ _ _ hopens
          have hij : i ≤ j := by
            by_contra hlt
            have hused := hfirst.before j (by omega)
            rw [hopens'.table] at hused
            exact hused hnone
          intro hmem
          rcases List.mem_cons.mp hmem with heq | hmem
          · have hcast : (512 : Int) = (i : Int) + 1 := heq
            omega
          · exact hlast hmem
  | fails => exact hlast
  | @fclose fd res k' hrun =>
      intro hmem
      obtain ⟨file, hmem⟩ := mem_numbers.mp hmem
      refine hlast (mem_numbers.mpr ⟨file, ?_⟩)
      change (512, file) ∈ (if res = 0 then w.opened.filter (fun q => q.1 ≠ fd) else w.opened) at hmem
      split at hmem
      · exact (List.mem_filter.mp hmem).1
      · exact hmem
  | fseek => exact hlast
  | other => exact hlast

/-- With the first 511 slots in use, a file that is opened gets number 512. -/
theorem FilesInv.slot_of_last {filename modeStr : List (BitVec 8)} {volume : FatVolume} {data : FatFileDescriptor}
    {k₁ : Kernel} (hinv : FilesInv drive w) (hlast : (512 : Int) ∉ w.numbers)
    (hrun : fopen drive filename modeStr w.kernel = .ok (fd, k'))
    (hopens : OpensFile drive filename modeStr w.kernel volume data k₁) (hfd : fd ≠ 512) :
    0 < fd ∧ ∃ i, i < 511 ∧ w.kernel.fileDescriptors i = none := by
  cases fopen_outcome hrun with
  | missing hmissing => exact absurd hopens (hmissing _ _ _)
  | full hopens' hfull =>
      have hslot : w.kernel.fileDescriptors 511 ≠ none := by
        rw [← hopens'.table]
        exact hfull 511 (by decide)
      exact absurd (hinv.used (by decide) hslot) hlast
  | @opened volume data k₁ k₂ i addr hopens' hfirst halloc hne =>
      have hlt : i < 512 := hfirst.lt
      refine ⟨by omega, i, by omega, ?_⟩
      rw [← hopens'.table]
      exact hfirst.free

/-! ## The blocks -/

/-- The pointers of an open file, with its slot. -/
theorem filePtrs_of_slot {desc : FileDescriptor} (hslot : k.fileDescriptors i = some desc) :
    k.filePtrs (((i + 1 : Nat) : Int), file) = desc.addr :: file.owned := by
  have hindex : (((i + 1 : Nat) : Int) - 1).toNat = i := by omega
  unfold Kernel.filePtrs
  rw [hindex, hslot]
  rfl

/-- They stay the same while another slot is written. -/
theorem filePtrs_update {q : Int × FatFileDescriptor} {j : Nat} {desc : Option FileDescriptor}
    (hq : q.1 = ((j + 1 : Nat) : Int)) (hne : j ≠ i)
    (hk : k'.fileDescriptors = Function.update k.fileDescriptors i desc) :
    k'.filePtrs q = k.filePtrs q := by
  have hindex : (q.1 - 1).toNat = j := by omega
  unfold Kernel.filePtrs
  rw [hindex, hk, Function.update_of_ne hne]

/-- Files whose pointers and blocks are as before own them as before. -/
theorem FilesOwn.same (h : FilesOwn w) (hsub : ∀ q ∈ opened, q ∈ w.opened)
    (hptrs : ∀ q ∈ opened, k'.filePtrs q = w.kernel.filePtrs q)
    (hheap : ∀ q ∈ opened, k'.heap.Occupies (w.kernel.filePtrs q) ∧
      k'.heap.blocksOf (w.kernel.filePtrs q) = w.kernel.fileBlocks q) : FilesOwn ⟨k', opened⟩ where
  whole := fun q hq => h.whole q (hsub q hq)
  taken := by
    intro q hq
    show k'.heap.Occupies (k'.filePtrs q)
    rw [hptrs q hq]
    exact (hheap q hq).1
  apart := by
    intro q hq q' hq' hne
    show Disjoint (k'.heap.blocksOf (k'.filePtrs q)) (k'.heap.blocksOf (k'.filePtrs q'))
    rw [hptrs q hq, hptrs q' hq', (hheap q hq).2, (hheap q' hq').2]
    exact h.apart q (hsub q hq) q' (hsub q' hq') hne

/-- A client of the heap leaves the files alone. -/
theorem FilesOwn.stays (h : FilesOwn w) (hstays : Stays w.kernel k')
    (hptrs : ∀ q ∈ w.opened, k'.filePtrs q = w.kernel.filePtrs q) : FilesOwn ⟨k', w.opened⟩ :=
  h.same (fun _ hq => hq) hptrs fun q hq => (h.taken q hq).kept hstays.kept

/-- One more file, in blocks that were not taken. -/
theorem FilesOwn.put {T : Set Nat} (h : FilesOwn ⟨k', opened⟩) (hlive : file.item.Live)
    (hnew : k'.heap.Reserves T (k'.filePtrs (fd, file))) (hold : ∀ q ∈ opened, k'.fileBlocks q ⊆ T) :
    FilesOwn ⟨k', (fd, file) :: opened⟩ where
  whole := List.forall_mem_cons.mpr ⟨hlive, h.whole⟩
  taken := List.forall_mem_cons.mpr ⟨hnew.occupies, h.taken⟩
  apart := by
    have hapart : ∀ q ∈ opened, Disjoint (k'.fileBlocks (fd, file)) (k'.fileBlocks q) :=
      fun q hq => hnew.disjoint.mono_right (hold q hq)
    intro q hq q' hq' hne
    rcases List.mem_cons.mp hq with rfl | hq
    · rcases List.mem_cons.mp hq' with rfl | hq'
      · exact absurd rfl hne
      · exact hapart q' hq'
    · rcases List.mem_cons.mp hq' with rfl | hq'
      · exact (hapart q hq).symm
      · exact h.apart q hq q' hq' hne

/-- The open files keep their pointers while an empty slot is filled. -/
theorem FilesInv.filePtrs_fill {q : Int × FatFileDescriptor} {desc : Option FileDescriptor} (h : FilesInv drive w)
    (hq : q ∈ w.opened) (hnone : w.kernel.fileDescriptors i = none)
    (hk : k'.fileDescriptors = Function.update w.kernel.fileDescriptors i desc) :
    k'.filePtrs q = w.kernel.filePtrs q := by
  obtain ⟨j, _, hj, _, _, _, _, hslot⟩ := h.holds q hq
  refine filePtrs_update hj ?_ hk
  rintro rfl
  rw [hnone] at hslot
  cases hslot

/-- **A file that is opened** gets blocks that were free. -/
theorem FilesOwn.opens {filename modeStr : List (BitVec 8)} {volume : FatVolume} {data : FatFileDescriptor}
    {k₁ k₂ : Kernel} {addr : Nat} (h : FilesOwn w) (hinv : FilesInv drive w) (hclean : w.kernel.heap.Clean)
    (hopens : OpensFile drive filename modeStr w.kernel volume data k₁) (hlive : data.item.Live)
    (hfirst : FirstFree k₁ i) (halloc : kzalloc sizeofFileDescriptor k₁ = .ok (addr, k₂)) (hne : addr ≠ 0)
    (hheap : k'.heap = k₂.heap)
    (htable : k'.fileDescriptors
      = Function.update w.kernel.fileDescriptors i (some (openedDescriptor i addr volume data))) :
    FilesOwn ⟨k', (((i + 1 : Nat) : Int), data) :: w.opened⟩ := by
  have hstays₁ := hopens.stays hclean
  have hstays₂ := hstays₁.more (by decide) halloc
  have hstays : Stays w.kernel k' := ⟨by rw [hheap]; exact hstays₂.clean, by rw [hheap]; exact hstays₂.kept⟩
  have hnone : w.kernel.fileDescriptors i = none := by
    rw [← hopens.table]
    exact hfirst.free
  have hptrs : ∀ q ∈ w.opened, k'.filePtrs q = w.kernel.filePtrs q :=
    fun q hq => hinv.filePtrs_fill hq hnone htable
  refine (h.stays hstays hptrs).put (T := w.kernel.heap.taken) hlive ?_ fun q hq => ?_
  · have hslot : k'.fileDescriptors i = some (openedDescriptor i addr volume data) := by
      rw [htable, Function.update_self]
    have hgrown := hstays₁.clean.grown.more (by decide) halloc
    have haddr := hstays₁.clean.grown.block (by decide) (by decide) halloc hne
    have hdescriptor : k₂.heap.Reserves k₁.heap.taken [addr] :=
      hgrown.reserves fun p hp => List.mem_singleton.mp hp ▸ haddr
    have hdata := (hopens.reserves hclean hlive).kept ((Stays.refl hstays₁.clean).more (by decide) halloc).kept
    rw [filePtrs_of_slot hslot, hheap]
    exact (hdescriptor.mono hstays₁.taken).append hdata
  · show k'.heap.blocksOf (k'.filePtrs q) ⊆ w.kernel.heap.taken
    rw [hptrs q hq, hstays.kept.blocksOf (h.taken q hq).run]
    exact (h.taken q hq).run

/-- What closing a file frees, and the slot that it empties. -/
theorem fclose_heap {volume : FatVolume} {addr : Nat} {res : Int} (hi : i < 511)
    (hslot : k.fileDescriptors i = some (openedDescriptor i addr volume file)) (hready : k.heap.Ready)
    (hrun : fclose ((i + 1 : Nat) : Int) k = .ok (res, k')) :
    res = 0 ∧ k'.fileDescriptors = Function.update k.fileDescriptors i none ∧
      k'.heap = k.heap.freeAll (file.blocks ++ [addr]) := by
  unfold fclose at hrun
  rw [bind_of_ok (fileGetDescriptor_slot hi hslot)] at hrun
  obtain ⟨data, k₁, hdata, hrest⟩ := bind_eq_ok.mp hrun
  obtain ⟨hprivate, rfl⟩ := descriptorData_run hdata
  cases hprivate
  obtain ⟨code, k₂, hclose, hdone⟩ := bind_eq_ok.mp hrest
  obtain ⟨rfl, hheap, htable⟩ := fat16Close_heap hready hclose
  have hok : (0 : Int) = bimbleosAllOk := rfl
  rw [if_pos hok] at hdone
  cases hdone
  have hblocks : k₁.heap.freeAll (file.blocks ++ [addr]) = heapFree (k₁.heap.freeAll file.blocks) addr :=
    List.foldl_append
  refine ⟨rfl, ?_, ?_⟩
  · rw [← htable]
    rfl
  · rw [hblocks, ← hheap]
    rfl

/-- An open descriptor up to 511 that is closed. -/
theorem FilesInv.closes {q : Int × FatFileDescriptor} {res : Int} (h : FilesInv drive w) (hready : w.kernel.heap.Ready)
    (hq : q ∈ w.opened) (hlast : q.1 ≠ 512) (hrun : fclose q.1 w.kernel = .ok (res, k')) :
    res = 0 ∧ (∀ q' ∈ w.opened, q'.1 ≠ q.1 → k'.filePtrs q' = w.kernel.filePtrs q') ∧
      ∃ freed, k'.heap = w.kernel.heap.freeAll freed ∧
        ∀ ptr, ptr ∈ freed ↔ ptr ∈ w.kernel.filePtrs q ∨ ptr ∈ q.2.item.emptyArray := by
  obtain ⟨fd, file⟩ := q
  obtain ⟨i, hi, rfl, volume, addr, pos, _, hslot⟩ := h.holds _ hq
  obtain ⟨hres, htable, hheap⟩ := fclose_heap (by omega) hslot hready hrun
  refine ⟨hres, fun q' hq' hne => ?_, _, hheap, fun ptr => ?_⟩
  · obtain ⟨j, _, hj, _⟩ := h.holds q' hq'
    refine filePtrs_update hj ?_ htable
    rintro rfl
    exact hne hj
  · rw [filePtrs_of_slot hslot, List.mem_append, mem_blocks, List.mem_singleton, List.mem_cons]
    show (ptr ∈ file.owned ∨ ptr ∈ file.item.emptyArray) ∨ ptr = addr ↔
      (ptr = addr ∨ ptr ∈ file.owned) ∨ ptr ∈ file.item.emptyArray
    tauto

/-- A descriptor that is closed was open. -/
theorem FilesInv.fclose_open {res : Int} (h : FilesInv drive w) (hrun : fclose fd w.kernel = .ok (res, k')) :
    (k' = w.kernel ∧ res ≠ 0) ∨ res = 0 ∧ fd ≠ 512 ∧ ∃ file, (fd, file) ∈ w.opened := by
  rcases fclose_run hrun with hfail | ⟨i, desc, hi, rfl, hslot, rfl, _⟩
  · exact Or.inl hfail
  · refine Or.inr ⟨rfl, by omega, mem_numbers.mp (h.used (by omega) ?_)⟩
    rw [hslot]
    exact Option.some_ne_none _

/-! ## One step -/

/-- **The heap stays clean** in every step. -/
theorem QuietStep.clean (hinv : FilesInv drive w) (hclean : w.kernel.heap.Clean) (h : QuietStep drive w e w') :
    w'.kernel.heap.Clean := by
  cases h.step with
  | @opens filename modeStr fd volume data k₁ k' hrun hpos hopens =>
      cases fopen_outcome hrun with
      | missing => exact absurd hpos (Int.lt_irrefl 0)
      | full => exact absurd hpos (Int.lt_irrefl 0)
      | opened hopens' hfirst halloc hne =>
          have hclean₁ := (hopens'.stays hclean).clean
          exact (hclean₁.grown.more (by decide) halloc).clean
  | @fails filename modeStr fd k' hrun hneg =>
      cases fopen_outcome hrun with
      | missing _ hheap => exact (hheap _ _ cleanRule hclean).1
      | full hopens _ => exact (hopens.stays hclean).clean
      | opened => exact absurd (Int.natCast_pos.mpr (Nat.succ_pos _)) hneg
  | @fclose fd res k' hrun =>
      rcases hinv.fclose_open hrun with ⟨rfl, _⟩ | ⟨_, hlast, file, hmem⟩
      · exact hclean
      · obtain ⟨_, _, freed, hheap, _⟩ := hinv.closes hclean.ready hmem hlast hrun
        show k'.heap.Clean
        rw [hheap]
        exact hclean.freeAll freed
  | @fseek fd offset res whence k' hrun =>
      rcases fseek_run hrun with rfl | ⟨i, desc, data, pos, _, _, _, _, rfl⟩
      · exact hclean
      · exact hclean
  | other => exact (h.other rfl).1

/-- **One step** that meets the condition leaves every open file its blocks. -/
theorem FilesOwn.step (h : FilesOwn w) (hinv : FilesInv drive w) (hclean : w.kernel.heap.Clean)
    (hok : e.Ok drive w) (hstep : QuietStep drive w e w') : FilesOwn w' := by
  have htable : ∀ k' : Kernel, k'.fileDescriptors = w.kernel.fileDescriptors → ∀ q ∈ w.opened,
      k'.filePtrs q = w.kernel.filePtrs q := by
    intro k' hk q _
    unfold Kernel.filePtrs
    rw [hk]
  cases hstep.step with
  | @opens filename modeStr fd volume data k₁ k' hrun hpos hopens =>
      cases fopen_outcome hrun with
      | missing => exact absurd hpos (Int.lt_irrefl 0)
      | full => exact absurd hpos (Int.lt_irrefl 0)
      | @opened volume data' k₁' k₂ i addr hopens' hfirst halloc hne =>
          obtain ⟨rfl, rfl⟩ := hopens.same hopens'
          have htable₂ : k₂.fileDescriptors = w.kernel.fileDescriptors := (kzalloc_table halloc).trans hopens'.table
          refine h.opens hinv hclean hopens' (hok _ _ _ hopens).2 hfirst halloc hne rfl ?_
          show Function.update k₂.fileDescriptors i _ = _
          rw [htable₂]
  | @fails filename modeStr fd k' hrun hneg =>
      cases fopen_outcome hrun with
      | missing _ hheap =>
          have hkeeps := hheap _ _ (stayRule w.kernel.heap.taken w.kernel.heap) ⟨hclean, hclean.shields.kept⟩
          refine h.stays (.of_keeps hkeeps) (htable _ ?_)
          obtain ⟨_, heap, memory, rfl⟩ := hkeeps
          rfl
      | full hopens _ => exact h.stays (hopens.stays hclean) (htable _ hopens.table)
      | opened => exact absurd (Int.natCast_pos.mpr (Nat.succ_pos _)) hneg
  | @fclose fd res k' hrun =>
      rcases hinv.fclose_open hrun with ⟨rfl, hres⟩ | ⟨rfl, hne, file, hmem⟩
      · rw [if_neg hres]
        exact h
      rw [if_pos rfl]
      obtain ⟨_, hptrs, freed, hheap, hfreed⟩ := hinv.closes hclean.ready hmem hne hrun
      have hothers : ∀ q ∈ w.opened.filter (fun q => q.1 ≠ fd), q ∈ w.opened ∧ q.1 ≠ fd := by
        intro q hq
        obtain ⟨hq, hne⟩ := List.mem_filter.mp hq
        exact ⟨hq, of_decide_eq_true hne⟩
      refine h.same (fun q hq => (hothers q hq).1) (fun q hq => hptrs q (hothers q hq).1 (hothers q hq).2) ?_
      intro q hq
      obtain ⟨hq, hqne⟩ := hothers q hq
      show k'.heap.Occupies _ ∧ k'.heap.blocksOf _ = _
      rw [hheap]
      refine (h.taken q hq).freeAll hclean.ready fun b hb p hp hin => ?_
      rcases (hfreed p).mp hp with howned | harray
      · -- its own blocks are no other file's
        have hmine : b ∈ w.kernel.fileBlocks (fd, file) := mem_blocksOf howned hin hb.1
        exact Set.disjoint_left.mp (h.apart _ hmem _ hq (Ne.symm hqne)) hmine hb
      · exact Set.disjoint_left.mp (hok _ hmem rfl p harray q hq hqne) hin hb
  | @fseek fd offset res whence k' hrun =>
      rcases fseek_run hrun with rfl | ⟨i, desc, data, pos, _, _, hslot, _, rfl⟩
      · exact h
      refine h.same (fun _ hq => hq) (fun q hq => ?_) fun q hq => ⟨h.taken q hq, rfl⟩
      -- the descriptor stays where it is
      obtain ⟨j, _, hj, _⟩ := hinv.holds q hq
      by_cases hji : j = i
      · subst hji
        have hindex : (q.1 - 1).toNat = j := by omega
        unfold Kernel.filePtrs
        simp only [hindex, hslot, Function.update_self, Option.map_some]
      · exact filePtrs_update hj hji rfl
  | other hk =>
      obtain ⟨_, htotal, hentries⟩ := hstep.other rfl
      exact h.same (fun _ hq => hq) (htable _ hk) fun q hq => (h.taken q hq).congr htotal (hentries q hq)

/-- A call that leaves every open file its blocks met the condition. -/
theorem QuietStep.ok_of_law (hinv : FilesInv drive w) (hclean : w.kernel.heap.Clean) (hlast : (512 : Int) ∉ w.numbers)
    (hstep : QuietStep drive w e w') (hlast' : (512 : Int) ∉ w'.numbers) (hown : FilesOwn w') : e.Ok drive w := by
  cases hstep.step with
  | @opens filename modeStr fd volume data k₁ k' hrun hpos hopens =>
      intro volume' data' k₁' hopens'
      obtain ⟨rfl, rfl⟩ := hopens.same hopens'
      have hne : fd ≠ 512 := fun hfd => hlast' (List.mem_cons.mpr (Or.inl hfd.symm))
      exact ⟨(hinv.slot_of_last hlast hrun hopens hne).2, hown.whole _ (List.mem_cons.mpr (Or.inl rfl))⟩
  | @fails filename modeStr fd k' hrun hneg =>
      intro volume data k₁ hopens
      have hne : fd ≠ 512 := by omega
      exact absurd (hinv.slot_of_last hlast hrun hopens hne).1 hneg
  | @fclose fd res k' hrun =>
      rintro ⟨fd, file⟩ hmem rfl p harray q hq hqne
      have hne : fd ≠ 512 := fun hfd => hlast (mem_numbers.mpr ⟨file, hfd ▸ hmem⟩)
      obtain ⟨rfl, hptrs, freed, hheap, hfreed⟩ := hinv.closes hclean.ready hmem hne hrun
      rw [if_pos rfl] at hown
      have htaken := hown.taken q (List.mem_filter.mpr ⟨hq, decide_eq_true hqne⟩)
      change k'.heap.Occupies (k'.filePtrs q) at htaken
      rw [hptrs q hq hqne, hheap] at htaken
      refine Set.disjoint_left.mpr fun b hin hb => ?_
      exact htaken.not_reached hclean.ready b hb p ((hfreed p).mpr (Or.inr harray)) hin
  | fseek => exact True.intro
  | other => exact True.intro

end Files

/-- **Every descriptor acts on its own file, which has its blocks to itself,** throughout a run exactly when every
    call of it meets the condition. -/
theorem fileRuns_law_iff {drive : Drive} {k : Kernel} {tr : List (FilesWorld × FilesEvent)} {w : FilesWorld}
    (hempty : ∀ i, k.fileDescriptors i = none) (hclean : k.heap.Clean)
    (h : Trace (QuietStep drive) { kernel := k } tr w) :
    Throughout (FilesLaw drive) tr w ↔ ∀ q ∈ tr, q.2.Ok drive q.1 := by
  have hstart : FilesInv drive { kernel := k } :=
    ⟨List.nodup_nil, fun _ hq => absurd hq List.not_mem_nil, fun i _ _ => hempty i⟩
  have hnone : FilesOwn { kernel := k } :=
    ⟨fun _ hq => absurd hq List.not_mem_nil, fun _ hq => absurd hq List.not_mem_nil,
      fun _ hq => absurd hq List.not_mem_nil⟩
  have hpres : ∀ w e w', (FilesInv drive w ∧ w.kernel.heap.Clean) → QuietStep drive w e w' →
      FilesInv drive w' ∧ w'.kernel.heap.Clean :=
    fun _ _ _ hinv hstep => ⟨hinv.1.step hstep.step, hstep.clean hinv.1 hinv.2⟩
  constructor
  · intro hlaw
    have hback : ∀ w e w', (FilesInv drive w ∧ w.kernel.heap.Clean) → FilesLaw drive w → QuietStep drive w e w' →
        FilesLaw drive w' → FilesEvent.Ok drive w e :=
      fun _ _ _ hinv hlaw hstep hlaw' => hstep.ok_of_law hinv.1 hinv.2 hlaw.last hlaw'.last hlaw'.own
    exact (Trace.guard_of_safe hpres hback ⟨hstart, hclean⟩ h hlaw).2
  · intro hok
    have hkeeps : ∀ w e w', ((FilesInv drive w ∧ w.kernel.heap.Clean) ∧ (512 : Int) ∉ w.numbers ∧ FilesOwn w) →
        FilesEvent.Ok drive w e → QuietStep drive w e w' →
        (FilesInv drive w' ∧ w'.kernel.heap.Clean) ∧ (512 : Int) ∉ w'.numbers ∧ FilesOwn w' :=
      fun _ _ _ ⟨hinv, hlast, hown⟩ hok hstep => ⟨hpres _ _ _ hinv hstep, hstep.step.last_of_ok hlast hok,
        hown.step hinv.1 hinv.2 hok hstep⟩
    have hall := Trace.invariant hkeeps ⟨⟨hstart, hclean⟩, List.not_mem_nil, hnone⟩ h hok
    exact hall.imp fun _ ⟨hinv, hlast, hown⟩ => hinv.1.law hlast hown

/-! ## Opening one file again and again -/

/-- After `n` calls the first `n` slots are in use. The induction is on `n`. -/
theorem splitDrive_run {n : Nat} (hn : n ≤ 512) : ∃ tr w,
    Trace (QuietStep splitDrive) { kernel := bootKernel } tr w ∧ w.kernel.heap.TailRoom (25599 - 8 * n) ∧
      (∀ i, i < n → w.kernel.fileDescriptors i ≠ none) ∧ (∀ i, n ≤ i → w.kernel.fileDescriptors i = none) ∧
      ∀ i : Nat, i < n → ((i + 1 : Nat) : Int) ∈ w.numbers := by
  induction n with
  | zero =>
      exact ⟨[], _, .nil, bootKernel_tailRoom (by omega), fun i hi => by omega, fun i _ => rfl,
        fun i hi => by omega⟩
  | succ n ih =>
      obtain ⟨tr, w, htr, hroom, hused, hempty, hnumbers⟩ := ih (by omega)
      have hroom₁ : w.kernel.heap.TailRoom (25599 - 8 * (n + 1) + 8) := hroom.mono (by omega)
      have hlt : n < bimbleosMaxFileDescriptors := hn
      have hfirst : FirstFree w.kernel n := ⟨hlt, hempty n (Nat.le_refl n), hused⟩
      obtain ⟨data, copy, addr, k₁, k', hopens, hrun, hroom', _, _, _, htable⟩ :=
        splitDrive_rootFile.opens (Kernel.room_nil hroom₁) hfirst
      have hstep : QuietStep splitDrive w _ _ := ⟨.opens hrun (by omega) hopens, fun hother => by cases hother⟩
      refine ⟨_, _, htr.snoc hstep, hroom'.room, fun i hi => ?_, fun i hi => ?_, fun i hi => ?_⟩
      · show k'.fileDescriptors i ≠ none
        rw [htable]
        by_cases hin : i = n
        · rw [hin, Function.update_self]
          exact Option.some_ne_none _
        · rw [Function.update_of_ne hin]
          exact hused i (by omega)
      · show k'.fileDescriptors i = none
        rw [htable, Function.update_of_ne (by omega)]
        exact hempty i (by omega)
      · by_cases hin : i = n
        · rw [hin]
          exact List.mem_cons.mpr (Or.inl rfl)
        · exact List.mem_cons.mpr (Or.inr (hnumbers i (by omega)))

/-- A run of 512 calls, to which the condition applies. -/
theorem fileRuns_law_iff_full : ∃ tr w, Trace (QuietStep splitDrive) { kernel := bootKernel } tr w ∧
    (512 : Int) ∈ w.numbers ∧
    (Throughout (FilesLaw splitDrive) tr w ↔ ∀ q ∈ tr, q.2.Ok splitDrive q.1) := by
  obtain ⟨tr, w, htr, _, _, _, hnumbers⟩ := splitDrive_run (Nat.le_refl 512)
  exact ⟨tr, w, htr, hnumbers 511 (by decide), fileRuns_law_iff (fun _ => rfl) bootKernel_clean htr⟩

/-- The 512th descriptor is refused. -/
theorem fopen_issues_unknown :
    ¬ ∀ (drive : Drive) (k : Kernel) (tr : List (FilesWorld × FilesEvent)) (w : FilesWorld),
      (∀ i, k.fileDescriptors i = none) → k.heap.Clean → Trace (QuietStep drive) { kernel := k } tr w →
      Throughout (FilesLaw drive) tr w := by
  intro h
  obtain ⟨tr, w, htr, _, _, _, hnumbers⟩ := splitDrive_run (Nat.le_refl 512)
  have hlaw := (h splitDrive bootKernel tr w (fun _ => rfl) bootKernel_clean htr).2
  exact hlaw.last (hnumbers 511 (by decide))

end BimbleOS
