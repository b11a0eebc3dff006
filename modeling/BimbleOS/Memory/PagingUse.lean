import BimbleOS.Memory.PagingRuns

/-!
# `Memory.PagingUse` — a page directory from `paging_new` to `paging_free`

What `paging_map_to` does to each of the `2^20` entries of a directory, and that a directory which is made,
mapped through in any way and freed again leaves the heap as it was.
-/

namespace BimbleOS

open CWord

/-! ## `paging_map_to` -/

/-- `s'` is `s` with `n` pages from `virt` on mapped to the frames from `phys` on. -/
structure MappedTo (s s' : PageStore) (d virt phys : Nat) (flags : BitVec 32) (n : Nat) : Prop where
  directory : s'.directory d = s.directory d
  table : ∀ i, i < 1024 → s'.table (s'.directory d) i = s.table (s.directory d) i
  inside : ∀ i, i < n → s'.pageEntry (s'.directory d) ((virt + 4096 * i) % 4294967296)
    = BitVec.ofNat 32 (phys + 4096 * i) ||| flags
  outside : ∀ v, v % 4096 = 0 → v < 4294967296 → (∀ i, i < n → v ≠ (virt + 4096 * i) % 4294967296) →
    s'.pageEntry (s'.directory d) v = s.pageEntry (s.directory d) v

section MapTo

variable {s : PageStore} {ds : Nat → Prop} {d virt phys physEnd i n v : Nat} {flags : BitVec 32}

/-- The page that lies `i` pages behind `virt`. -/
theorem pageOffset_page (hi : i < 1048576) :
    pageOffset virt ((virt + 4096 * i) % 4294967296) = i := by
  unfold pageOffset u32
  omega

theorem page_of_offset (halign : virt % 4096 = 0) (hv : v < 4294967296) (hpage : v % 4096 = 0) :
    v = (virt + 4096 * pageOffset virt v) % 4294967296 := by
  unfold pageOffset u32
  omega

/-- Mapping a range page by page. -/
theorem mappedTo_range (h : DirsOk s ds) (hd : ds d) (hvirt : virt % 4096 = 0) (hphys : phys % 4096 = 0)
    (hv : virt < 4294967296) (hp : phys + 4096 * n < 4294967296) :
    MappedTo s (s.setRange d virt phys flags n) d virt phys flags n := by
  obtain ⟨_, hdirs, hpages⟩ := @DirsOk.setRange s ds d virt phys n flags h hd hvirt hphys hv (by omega) (by omega)
  have hsame : SameDirs ds s (s.setRange d virt phys flags n) := SameDirs.mapRange h hd hv
  refine ⟨hdirs d hd, fun i hi => hsame.table d i hd hi, ?_, ?_⟩
  · intro i hi
    have hoffset : pageOffset virt ((virt + 4096 * i) % 4294967296) = i := pageOffset_page (by omega)
    have hframe : u32 ((phys + 4096 * i : Nat) : Int) = phys + 4096 * i := u32_of_lt (by omega)
    rw [hdirs d hd, hpages d _ hd (by omega) (by omega), hoffset, if_pos ⟨rfl, hi⟩]
    unfold rangePage
    rw [hframe]
  · intro v hpage hlt hother
    rw [hdirs d hd, hpages d v hd hpage hlt, if_neg]
    rintro ⟨_, hin⟩
    apply hother _ hin
    exact page_of_offset hvirt hlt hpage

/-- A range whose addresses are aligned is mapped. -/
theorem pagingMapTo_aligned (h : DirsOk s ds) (hd : ds d) (hv : virt < 4294967296) (hp : phys < 4294967296)
    (he : physEnd < 4294967296) (hvirt : virt % 4096 = 0) (hphys : phys % 4096 = 0) (hend : physEnd % 4096 = 0)
    (hle : phys ≤ physEnd) :
    (pagingMapTo s d virt phys physEnd flags).1 = 0 ∧
      MappedTo s (pagingMapTo s d virt phys physEnd flags).2 d virt phys flags ((physEnd - phys) / 4096) := by
  rw [pagingMapTo_eq, if_pos ⟨hvirt, hphys, hend, hle⟩]
  exact ⟨(pagingMapRange_pages hvirt hphys hv hp).1, mappedTo_range h hd hvirt hphys hv (by omega)⟩

/-- **`paging_map_to` maps the whole range or nothing**, and it fails exactly on a misaligned address or a range
    that ends before it starts. -/
theorem pagingMapTo_spec (h : DirsOk s ds) (hd : ds d) (hv : virt < 4294967296) (hp : phys < 4294967296)
    (he : physEnd < 4294967296) :
    if virt % 4096 = 0 ∧ phys % 4096 = 0 ∧ physEnd % 4096 = 0 ∧ phys ≤ physEnd then
      (pagingMapTo s d virt phys physEnd flags).1 = 0 ∧
        MappedTo s (pagingMapTo s d virt phys physEnd flags).2 d virt phys flags ((physEnd - phys) / 4096)
    else pagingMapTo s d virt phys physEnd flags = (-EINVARG, s) := by
  by_cases hok : virt % 4096 = 0 ∧ phys % 4096 = 0 ∧ physEnd % 4096 = 0 ∧ phys ≤ physEnd
  · obtain ⟨hvirt, hphys, hend, hle⟩ := hok
    rw [if_pos ⟨hvirt, hphys, hend, hle⟩]
    exact pagingMapTo_aligned h hd hv hp he hvirt hphys hend hle
  · rw [pagingMapTo_eq, if_neg hok, if_neg hok]

end MapTo

/-! ## Blocks that are borrowed -/

/-- `heap` is `base` with the single blocks at `addresses` taken in addition. -/
structure Heap.Borrowed (base : Heap) (addresses : List Nat) (heap : Heap) : Prop where
  ready : heap.Ready
  total : heap.table.totalEntries = base.table.totalEntries
  nodup : addresses.Nodup
  single : ∀ a ∈ addresses, ∃ b, a = bimbleosHeapAddress + 4096 * b ∧ b < base.table.totalEntries ∧
    base.table.Free b ∧ ¬ heap.table.Free b ∧ ¬ heap.table.HasNext b
  rest : ∀ b, bimbleosHeapAddress + 4096 * b ∉ addresses → (heap.table.Free b ↔ base.table.Free b)

namespace Heap.Borrowed

variable {base heap : Heap} {addresses addresses' : List Nat} {a size : Nat}

theorem none (h : base.Ready) : base.Borrowed [] base where
  ready := h
  total := rfl
  nodup := List.nodup_nil
  single := fun _ ha => absurd ha List.not_mem_nil
  rest := fun _ _ => Iff.rfl

theorem perm (h : base.Borrowed addresses heap) (hp : addresses.Perm addresses') :
    base.Borrowed addresses' heap where
  ready := h.ready
  total := h.total
  nodup := hp.nodup_iff.mp h.nodup
  single := fun a ha => h.single a (hp.mem_iff.mpr ha)
  rest := fun b hb => h.rest b fun hin => hb (hp.mem_iff.mp hin)

/-- An allocation of up to a page borrows one more block. -/
theorem malloc (h : base.Borrowed addresses heap) (h₁ : 1 ≤ size) (h₂ : size ≤ 4096)
    (hne : (heapMalloc heap size).1 ≠ 0) :
    base.Borrowed ((heapMalloc heap size).1 :: addresses) (heapMalloc heap size).2 := by
  have htotal := h.ready.total
  rcases heapMalloc_one h.ready h₁ h₂ with ⟨hnull, _⟩ | ⟨s, hs, hfree, hres, _⟩
  · rw [hnull] at hne
    exact absurd rfl hne
  rw [hres, h.ready.start]
  have hnew : bimbleosHeapAddress + 4096 * s ∉ addresses := by
    intro hin
    obtain ⟨b, heq, _, _, htaken, _⟩ := h.single _ hin
    have hsame : s = b := by omega
    exact htaken (hsame ▸ hfree)
  have hentry : ∀ b, b ≠ s → (heapMarkBlocksTaken heap s 1).table.entries b = heap.table.entries b := by
    intro b hb
    rw [heapMarkBlocksTaken_entries Nat.one_pos (by omega), if_neg (by omega)]
  refine ⟨h.ready.markBlocksTaken, ?_, List.nodup_cons.mpr ⟨hnew, h.nodup⟩, ?_, ?_⟩
  · rw [heapMarkBlocksTaken_totalEntries, h.total]
  · intro a ha
    rcases List.mem_cons.mp ha with rfl | hold
    · refine ⟨s, rfl, h.total ▸ hs, (h.rest s hnew).mp hfree, ?_, ?_⟩
      · exact marked_taken Nat.one_pos (by omega) (Nat.le_refl s) (by omega)
      · intro hnext
        exact (marked_last Nat.one_pos (by omega) rfl hnext).1 rfl
    · obtain ⟨b, rfl, hb, hfreeb, htaken, hlast⟩ := h.single a hold
      have hbs : b ≠ s := by
        rintro rfl
        exact hnew hold
      refine ⟨b, rfl, hb, hfreeb, ?_, ?_⟩
      · unfold HeapTable.Free
        rw [hentry b hbs]
        exact htaken
      · unfold HeapTable.HasNext
        rw [hentry b hbs]
        exact hlast
  · intro b hb
    have hbs : b ≠ s := by
      rintro rfl
      exact hb List.mem_cons_self
    rw [← h.rest b fun hin => hb (List.mem_cons_of_mem _ hin)]
    unfold HeapTable.Free
    rw [hentry b hbs]

/-- Freeing one of them gives its block back, and no other. -/
theorem free (h : base.Borrowed (a :: addresses) heap) : base.Borrowed addresses (heapFree heap a) := by
  obtain ⟨hnew, hnodup⟩ := List.nodup_cons.mp h.nodup
  obtain ⟨s, rfl, hs, hfree, _, hlast⟩ := h.single a List.mem_cons_self
  have htotal := h.ready.total
  have hsame := h.total
  have hfreed : (heapFree heap (bimbleosHeapAddress + 4096 * s)).table
      = heap.table.set s heapBlockTableEntryFree := by
    obtain ⟨left, hleft⟩ : ∃ left, heap.table.totalEntries - s = left + 1 :=
      ⟨heap.table.totalEntries - s - 1, by omega⟩
    have hend : heap.table.entries s &&& heapBlockHasNext = 0#8 := not_not.mp hlast
    rw [heapFree_table h.ready, kfreeBlock_block (by omega), hleft, heapFreeLoop, if_pos hend]
  have hentry : ∀ b, b ≠ s → (heapFree heap (bimbleosHeapAddress + 4096 * s)).table.entries b
      = heap.table.entries b := by
    intro b hb
    rw [hfreed, HeapTable.set_entries, if_neg hb]
  refine ⟨h.ready.free, ?_, hnodup, ?_, ?_⟩
  · rw [hfreed, HeapTable.set_totalEntries, hsame]
  · intro a ha
    obtain ⟨b, rfl, hb, hfreeb, htaken, hlastb⟩ := h.single a (List.mem_cons_of_mem _ ha)
    have hbs : b ≠ s := by
      rintro rfl
      exact hnew ha
    refine ⟨b, rfl, hb, hfreeb, ?_, ?_⟩
    · unfold HeapTable.Free
      rw [hentry b hbs]
      exact htaken
    · unfold HeapTable.HasNext
      rw [hentry b hbs]
      exact hlastb
  · intro b hb
    by_cases hbs : b = s
    · subst hbs
      refine iff_of_true ?_ hfree
      unfold HeapTable.Free
      rw [hfreed, HeapTable.set_entries, if_pos rfl]
      decide
    · have hother : bimbleosHeapAddress + 4096 * b ∉ (bimbleosHeapAddress + 4096 * s) :: addresses := by
        intro hin
        rcases List.mem_cons.mp hin with heq | hin
        · omega
        · exact hb hin
      rw [← h.rest b hother]
      unfold HeapTable.Free
      rw [hentry b hbs]

/-- A series of small allocations that are all answered. -/
theorem series {sizes : List Nat} (h : base.Borrowed addresses heap)
    (hsizes : ∀ size ∈ sizes, 1 ≤ size ∧ size ≤ 4096) (hanswered : 0 ∉ heapAnswers heap sizes) :
    base.Borrowed (heapAnswers heap sizes ++ addresses) (heapAfter heap sizes) := by
  induction sizes generalizing heap addresses with
  | nil => exact h
  | cons size sizes ih =>
      obtain ⟨h₁, h₂⟩ := hsizes size List.mem_cons_self
      obtain ⟨hfirst, hlater⟩ := not_or.mp (mt List.mem_cons.mpr hanswered)
      have hnext := h.malloc h₁ h₂ fun heq => hfirst heq.symm
      have hrest := ih hnext (fun q hq => hsizes q (List.mem_cons_of_mem size hq)) hlater
      exact hrest.perm List.perm_middle

/-- With everything given back, the blocks that are taken are those of `base`. -/
theorem taken_eq (h : base.Borrowed [] heap) : heap.taken = base.taken := by
  ext b
  show b < heap.table.totalEntries ∧ ¬ heap.table.Free b ↔ b < base.table.totalEntries ∧ ¬ base.table.Free b
  rw [h.total, h.rest b List.not_mem_nil]

end Heap.Borrowed

/-! ## The life of a directory -/

/-- A call that maps something through a page directory. -/
inductive MappingCall where
  | set (virt val : BitVec 32)
  | mapTo (virt phys physEnd flags : BitVec 32)

/-- What the call does to the page tables. -/
def MappingCall.run (d : Nat) : MappingCall → PageStore → PageStore
  | .set virt val, s => (pagingSet s (s.directory d) virt.toNat val).2
  | .mapTo virt phys physEnd flags, s => (pagingMapTo s d virt.toNat phys.toNat physEnd.toNat flags).2

/-- A directory is made, mapped through, and freed. -/
def useDirectory (flags : BitVec 8) (calls : List MappingCall) : KM Unit := do
  let d ← pagingNew (flags.setWidth 32)
  modifyPages fun s => calls.foldl (fun s call => call.run d s) s
  pagingFree d

section Life

variable {s : PageStore} {ds : Nat → Prop} {d : Nat} {k : Kernel} {call : MappingCall} {calls : List MappingCall}

/-- A call leaves the directories and the tables where they are. -/
theorem SameDirs.mappingCall (h : DirsOk s ds) (hd : ds d) : SameDirs ds s (call.run d s) := by
  cases call with
  | set virt val =>
      show SameDirs ds s (pagingSet s (s.directory d) virt.toNat val).2
      by_cases halign : virt.toNat % 4096 = 0
      · exact ⟨h.setPage hd halign virt.isLt, fun d' hd' => h.directory_setPage hd halign virt.isLt hd',
          fun d' i hd' hi => h.table_setPage hd halign virt.isLt hd' hi⟩
      · rw [pagingSet_misaligned halign]
        exact SameDirs.refl h
  | mapTo virt phys physEnd flags => exact SameDirs.mapTo h hd virt.isLt

/-- So does any series of calls. -/
theorem SameDirs.mappingCalls (h : DirsOk s ds) (hd : ds d) :
    SameDirs ds s (calls.foldl (fun s call => call.run d s) s) := by
  induction calls generalizing s with
  | nil => exact SameDirs.refl h
  | cons call calls ih =>
      have hfirst : SameDirs ds s (call.run d s) := SameDirs.mappingCall h hd
      exact hfirst.trans (ih hfirst.ok)

/-- The loop of `paging_free` gives back the tables it finds in the directory. -/
theorem pagingFreeLoop_borrowed {base : Heap} {tables rest : List Nat} {i : Nat}
    (h : base.Borrowed (tables ++ rest) k.heap)
    (htables : ∀ j (hj : j < tables.length), k.pages.table (k.pages.directory d) (i + j) = tables[j]) :
    ∃ heap, pagingFreeLoop d tables.length i k = .ok ((), { k with heap := heap }) ∧ base.Borrowed rest heap := by
  induction tables generalizing k i with
  | nil => exact ⟨k.heap, rfl, h⟩
  | cons entry tables ih =>
      have hentry : k.pages.table (k.pages.directory d) i = entry := htables 0 (Nat.succ_pos _)
      have hfree : base.Borrowed (tables ++ rest) (heapFree k.heap entry) := h.free
      have hnext : ∀ j (hj : j < tables.length),
          k.pages.table (k.pages.directory d) (i + 1 + j) = tables[j] := by
        intro j hj
        have hlater := htables (j + 1) (Nat.succ_lt_succ hj)
        rw [List.getElem_cons_succ] at hlater
        rw [← hlater]
        congr 1
        omega
      obtain ⟨heap, hrun, hborrowed⟩ := @ih { k with heap := heapFree k.heap entry } (i + 1) hfree hnext
      refine ⟨heap, ?_, hborrowed⟩
      rw [List.length_cons, pagingFreeLoop, Exec.get_bind, hentry]
      exact hrun

/-- `paging_free` gives back a directory, its tables and the structure that points at it. -/
theorem pagingFree_borrowed {base : Heap} {tables : List Nat} {directory : Nat} (hd : d ≠ 0)
    (hlen : tables.length = 1024) (h : base.Borrowed (tables ++ [directory, d]) k.heap)
    (hdirectory : k.pages.directory d = directory)
    (htables : ∀ j (hj : j < tables.length), k.pages.table (k.pages.directory d) j = tables[j]) :
    ∃ heap, pagingFree d k = .ok ((), { k with heap := heap }) ∧ heap.taken = base.taken := by
  have hfrom : ∀ j (hj : j < tables.length), k.pages.table (k.pages.directory d) (0 + j) = tables[j] := by
    intro j hj
    rw [Nat.zero_add]
    exact htables j hj
  obtain ⟨heap, hloop, hborrowed⟩ := pagingFreeLoop_borrowed h hfrom
  rw [hlen] at hloop
  refine ⟨heapFree (heapFree heap directory) d, ?_, hborrowed.free.free.taken_eq⟩
  unfold pagingFree
  rw [Exec.bind_of_ok (deref_of_ne hd), Exec.bind_of_ok hloop, Exec.get_bind]
  show Except.ok ((), ({ k with heap := heapFree (heapFree heap (k.pages.directory d)) d } : Kernel)) = _
  rw [hdirectory]

/-- What `paging_new` makes of the blocks it is given. -/
theorem newDirectory_dirsOk {flags : BitVec 32} {directory : Nat} {tables : List Nat} (hflags : flags.toNat < 256)
    (hlen : tables.length = 1024) (hblocks : OwnPages (directory :: (tables ++ [d]))) :
    DirsOk ((PageStore.newTables flags directory tables 0 s).setWord d (BitVec.ofNat 32 directory))
      fun d' => d' = d := by
  have hmade := newDirectory_spec (s := s) hflags hlen hblocks
  have hno : DirsOk s fun _ => False :=
    ⟨fun _ hd => hd.elim, fun _ _ _ _ hd => hd.elim, fun _ _ _ hd => hd.elim⟩
  have hok := hmade.dirsOk hlen hblocks hno (fun b (hb : b ∈ (∅ : Set Nat)) => hb.elim) (fun _ hd => hd.elim)
    (fun _ _ hb => hb)
  simpa only [false_or] using hok

/-- **A directory that is made and freed leaves the heap as it was**, however it was mapped through. -/
theorem useDirectory_taken (flags : BitVec 8) (calls : List MappingCall) (h : k.heap.Ready)
    (hfree : 1026 ≤ k.heap.freeBlocks) :
    ∃ k', useDirectory flags calls k = .ok ((), k') ∧ k'.heap.taken = k.heap.taken := by
  have hflags : (flags.setWidth 32).toNat < 256 := by
    rw [BitVec.toNat_setWidth]
    have hlt := flags.isLt
    omega
  obtain ⟨d, k₁, hnew, _⟩ := @pagingNew_ok (flags.setWidth 32) k h hfree
  obtain ⟨directory, tables, memory, hlen, hanswers, hanswered, rfl⟩ := pagingNew_run hnew
  -- what was borrowed for the directory
  have hborrowed := (Heap.Borrowed.none h).series pagingNewSizes_one hanswered
  have hperm : (heapAnswers k.heap pagingNewSizes ++ []).Perm (tables ++ [directory, d]) := by
    rw [hanswers, List.append_nil]
    exact List.perm_middle.symm
  have hblocks : OwnPages (directory :: (tables ++ [d])) := hanswers ▸ heapAnswers_ownPages h hfree
  -- where it lies, before and after the calls
  have hmade := newDirectory_spec (s := k.pages) hflags hlen hblocks
  have hok := newDirectory_dirsOk (s := k.pages) hflags hlen hblocks
  generalize (PageStore.newTables (flags.setWidth 32) directory tables 0 k.pages).setWord d
    (BitVec.ofNat 32 directory) = s at hmade hok hnew
  have hborrowed := hborrowed.perm hperm
  generalize heapAfter k.heap pagingNewSizes = heap₁ at hborrowed hnew
  have hsame : SameDirs _ s (calls.foldl (fun s call => call.run d s) s) :=
    SameDirs.mappingCalls hok rfl
  have hd : d ≠ 0 := by
    rintro rfl
    apply hanswered
    rw [hanswers]
    exact List.mem_cons_of_mem _ (List.mem_append_right _ List.mem_cons_self)
  have hpoints : (calls.foldl (fun s call => call.run d s) s).directory d = directory :=
    (hsame.directory d rfl).trans hmade.points
  have htables : ∀ j (hj : j < tables.length), (calls.foldl (fun s call => call.run d s) s).table
      ((calls.foldl (fun s call => call.run d s) s).directory d) j = tables[j] := by
    intro j hj
    rw [hsame.table d j rfl (hlen ▸ hj), hmade.points]
    exact hmade.table j hj
  obtain ⟨heap, hrun, htaken⟩ := @pagingFree_borrowed d
    { k with
      heap := heap₁
      memory := memory
      pages := calls.foldl (fun s call => call.run d s) s }
    k.heap tables directory hd hlen hborrowed hpoints htables
  refine ⟨{ k with
    heap := heap
    memory := memory
    pages := calls.foldl (fun s call => call.run d s) s }, ?_, htaken⟩
  unfold useDirectory
  rw [Exec.bind_of_ok hnew]
  exact hrun

end Life

theorem useDirectory_taken_boot :
    ∃ k', useDirectory 5#8 [.mapTo 0x400000#32 0x1000000#32 0x1003000#32 7#32, .set 0x400000#32 0#32] bootKernel
        = .ok ((), k') ∧ k'.heap.taken = bootKernel.heap.taken :=
  useDirectory_taken _ _ bootKernel_ready (by
    rw [bootKernel_freeBlocks]
    decide)

theorem pagingMapTo_spec_new : ∃ d k', pagingNew 5 bootKernel = .ok (d, k') ∧
    (if 0x400000 % 4096 = 0 ∧ 0x1000000 % 4096 = 0 ∧ 0x1003000 % 4096 = 0 ∧ 0x1000000 ≤ 0x1003000 then
      (pagingMapTo k'.pages d 0x400000 0x1000000 0x1003000 7).1 = 0 ∧
        MappedTo k'.pages (pagingMapTo k'.pages d 0x400000 0x1000000 0x1003000 7).2 d 0x400000 0x1000000 7
          ((0x1003000 - 0x1000000) / 4096)
    else pagingMapTo k'.pages d 0x400000 0x1000000 0x1003000 7 = (-EINVARG, k'.pages)) := by
  have hfree : 1026 ≤ bootKernel.heap.freeBlocks := by
    rw [bootKernel_freeBlocks]
    decide
  obtain ⟨d, k', hrun, _⟩ := @pagingNew_ok 5 bootKernel bootKernel_ready hfree
  obtain ⟨directory, tables, memory, hlen, hanswers, _, hk'⟩ := pagingNew_run hrun
  have hblocks : OwnPages (directory :: (tables ++ [d])) := hanswers ▸ heapAnswers_ownPages bootKernel_ready hfree
  have hok : DirsOk k'.pages fun d' => d' = d := by
    rw [hk']
    exact newDirectory_dirsOk (by decide) hlen hblocks
  exact ⟨d, k', hrun, pagingMapTo_spec hok rfl (by decide) (by decide) (by decide)⟩

end BimbleOS
