import BimbleOS.Fs.LoadedDirectory
import BimbleOS.Memory.HeapShares

/-!
# `Fs.FileOwners` — the blocks that an open file has to itself

What `fat16_open` returns points to structures in blocks of the heap: the descriptor, the item, and the copy of the
entry or the directory with its array (`FatFileDescriptor.owned`). On a clean heap these blocks were free before, are
taken afterwards, and nothing else goes on into them (`OpensFile.reserves`). The array of an empty directory is the
exception: no byte was asked for, so its address is that of a block that stays free (`FatItem.emptyArray`).
-/

namespace BimbleOS

open CWord Exec

/-- The pointers of an item to blocks of its own. -/
def FatItemBody.owned : FatItemBody → List Nat
  | .directory (.live dir items content) => if content.total ≤ 0 then [dir] else [items, dir]
  | .directory _ => []
  | .file copy _ => [copy]

def FatItem.owned (item : FatItem) : List Nat := item.body.owned ++ [item.addr]

def FatFileDescriptor.owned (data : FatFileDescriptor) : List Nat := data.item.owned ++ [data.addr]

/-- The array of a directory without entries. -/
def FatItem.emptyArray (item : FatItem) : List Nat :=
  match item.body with
  | .directory (.live _ items content) => if content.total ≤ 0 then [items] else []
  | _ => []

/-- The pointers are to blocks of a closed set beside `T`. -/
def Heap.Reserves (heap : Heap) (T : Set Nat) (ptrs : List Nat) : Prop :=
  ∃ S, heap.Closed S ∧ Disjoint S T ∧ ∀ ptr ∈ ptrs, kfreeBlock ptr ∈ S

/-- Requests only have come from `heap₀` to `heap`: what was taken still is, and what was taken since is closed. -/
structure Heap.Grown (heap₀ heap : Heap) : Prop where
  clean : heap.Clean
  sub : heap₀.taken ⊆ heap.taken
  closed : heap.Closed (heap.taken \ heap₀.taken)

/-- A client of the heap has come from `k` to `k'`: what was taken in `k` is as it was. -/
structure Stays (k k' : Kernel) : Prop where
  clean : k'.heap.Clean
  kept : k.heap.Kept k.heap.taken k'.heap

section Heap

variable {heap heap' heap₀ : Heap} {T T' S : Set Nat} {ptrs ptrs' freed : List Nat} {ptr size : Nat} {k k' : Kernel}

theorem Heap.Reserves.mono (h : heap.Reserves T ptrs) (hT : T' ⊆ T) : heap.Reserves T' ptrs := by
  obtain ⟨S, hclosed, hdisjoint, hptrs⟩ := h
  exact ⟨S, hclosed, hdisjoint.mono_right hT, hptrs⟩

theorem Heap.Reserves.append (h : heap.Reserves T ptrs) (h' : heap.Reserves T ptrs') :
    heap.Reserves T (ptrs ++ ptrs') := by
  obtain ⟨S, hclosed, hdisjoint, hptrs⟩ := h
  obtain ⟨S', hclosed', hdisjoint', hptrs'⟩ := h'
  refine ⟨S ∪ S', hclosed.union hclosed', Set.disjoint_union_left.mpr ⟨hdisjoint, hdisjoint'⟩, fun ptr hptr => ?_⟩
  rcases List.mem_append.mp hptr with hptr | hptr
  · exact Or.inl (hptrs ptr hptr)
  · exact Or.inr (hptrs' ptr hptr)

theorem Heap.Reserves.kept (h : heap.Reserves T ptrs) (hkept : heap.Kept heap.taken heap') :
    heap'.Reserves T ptrs := by
  obtain ⟨S, hclosed, hdisjoint, hptrs⟩ := h
  exact ⟨S, hclosed.kept hclosed.taken hkept, hdisjoint, hptrs⟩

theorem Heap.Reserves.occupies (h : heap.Reserves T ptrs) : heap.Occupies ptrs := by
  obtain ⟨S, hclosed, _, hptrs⟩ := h
  exact hclosed.occupies hptrs

theorem Heap.Reserves.disjoint (h : heap.Reserves T ptrs) : Disjoint (heap.blocksOf ptrs) T := by
  obtain ⟨S, hclosed, hdisjoint, hptrs⟩ := h
  exact hdisjoint.mono_left (hclosed.blocksOf hptrs)

/-- **Freeing one owner's pointers** leaves what another reserved beside its blocks. -/
theorem Heap.Reserves.freeAll (h : heap.Reserves (T ∪ S) ptrs) (hready : heap.Ready) (hS : heap.Closed S)
    (hfreed : ∀ p ∈ freed, kfreeBlock p ∈ S) : (heap.freeAll freed).Reserves T ptrs := by
  obtain ⟨S', hclosed, hdisjoint, hptrs⟩ := h
  obtain ⟨hbeside, hapart⟩ := Set.disjoint_union_right.mp hdisjoint
  refine ⟨S', hclosed.freeAll hready fun b hb p hp hin => ?_, hbeside, hptrs⟩
  exact Set.disjoint_left.mp hapart hb (hS.blocksFrom (hfreed p hp) hin (hclosed.taken hb).1)

theorem Heap.Clean.grown (h : heap.Clean) : heap.Grown heap := ⟨h, subset_rfl, heap.closed_none⟩

theorem Heap.Grown.malloc (h : heap₀.Grown heap) (hsize : size < 4294967296) :
    heap₀.Grown (heapMalloc heap size).2 where
  clean := (cleanRule.malloc h.clean hsize).1
  sub := h.sub.trans fun _ hb => (h.clean.ready.malloc_taken hsize hb).1
  closed := h.closed.more h.clean h.sub hsize

theorem Heap.Grown.more (h : heap₀.Grown k.heap) (hsize : size < 4294967296)
    (hrun : kzalloc size k = .ok (ptr, k')) : heap₀.Grown k'.heap := by
  rw [(kzalloc_heap hrun).2]
  exact h.malloc hsize

/-- An answer is a block that was not taken at the start. -/
theorem Heap.Grown.block (h : heap₀.Grown k.heap) (h₁ : 1 ≤ size) (h₂ : size ≤ 0xFFFFF000)
    (hrun : kzalloc size k = .ok (ptr, k')) (hne : ptr ≠ 0) : kfreeBlock ptr ∈ k'.heap.taken \ heap₀.taken := by
  obtain ⟨hptr, hheap⟩ := kzalloc_heap hrun
  rw [hheap]
  have hblock := h.clean.malloc_block h₁ h₂ hptr.symm hne
  exact ⟨hblock.1, fun hin => hblock.2 (h.sub hin)⟩

/-- It stays one with the next request. -/
theorem Heap.Grown.later (hready : k.heap.Ready) (hsize : size < 4294967296) {b : Nat}
    (hb : b ∈ k.heap.taken \ heap₀.taken) (hrun : kzalloc size k = .ok (ptr, k')) :
    b ∈ k'.heap.taken \ heap₀.taken := by
  rw [(kzalloc_heap hrun).2]
  exact ⟨(hready.malloc_taken hsize hb.1).1, hb.2⟩

theorem Heap.Grown.reserves (h : heap₀.Grown heap) (hptrs : ∀ ptr ∈ ptrs, kfreeBlock ptr ∈ heap.taken \ heap₀.taken) :
    heap.Reserves heap₀.taken ptrs :=
  ⟨_, h.closed, Set.disjoint_sdiff_left, hptrs⟩

/-- Clean heaps in which the blocks of `B` are as in `heap₀`. -/
theorem stayRule (B : Set Nat) (heap₀ : Heap) :
    HeapRule (fun heap => heap.Clean ∧ heap₀.Kept B heap) (Misses B) where
  malloc := fun h hsize =>
    ⟨⟨(cleanRule.malloc h.1 hsize).1, ((keptRule B heap₀).malloc h.2 hsize).1⟩,
      ((keptRule B heap₀).malloc h.2 hsize).2⟩
  free := fun h hok => ⟨cleanRule.free h.1 True.intro, (keptRule B heap₀).free h.2 hok⟩

theorem Stays.of_keeps {k₀ : Kernel}
    (h : Keeps (fun heap => heap.Clean ∧ k.heap.Kept k.heap.taken heap) k₀ k') : Stays k k' :=
  ⟨h.1.1, h.1.2⟩

theorem Stays.start (h : k.heap.Clean) :
    Keeps (fun heap => heap.Clean ∧ k.heap.Kept k.heap.taken heap) k k :=
  Keeps.refl ⟨h, h.shields.kept⟩

/-- One more request. -/
theorem Stays.more {k₁ : Kernel} (h : Stays k k₁) (hsize : size < 4294967296)
    (hrun : kzalloc size k₁ = .ok (ptr, k')) : Stays k k' := by
  obtain ⟨⟨hclean, hkept⟩, _⟩ := (stayRule k.heap.taken k.heap).malloc ⟨h.clean, h.kept⟩ hsize
  have hheap := (kzalloc_heap hrun).2
  exact ⟨hheap ▸ hclean, hheap ▸ hkept⟩

theorem Stays.refl (h : k.heap.Clean) : Stays k k := ⟨h, h.shields.kept⟩

theorem Stays.taken (h : Stays k k') : k.heap.taken ⊆ k'.heap.taken := h.kept.shields.taken

end Heap

section Open

variable {disk : Disk} {fs : FatPrivate} {volume : FatVolume} {k k' : Kernel} {T : Set Nat} {item : FatItem}
  {r : Option FatItem}

/-- What `fat16_close` frees is owned, or it is the array of an empty directory. -/
theorem mem_blocks {data : FatFileDescriptor} {ptr : Nat} :
    ptr ∈ data.blocks ↔ ptr ∈ data.owned ∨ ptr ∈ data.item.emptyArray := by
  rcases data with ⟨addr, ⟨iaddr, body⟩, pos⟩
  unfold FatFileDescriptor.blocks FatFileDescriptor.owned FatItem.blocks FatItem.owned FatItem.emptyArray
  cases body with
  | file copy content => simp [FatItemBody.blocks, FatItemBody.owned]
  | directory ptr =>
      cases ptr with
      | null => simp [FatItemBody.blocks, FatItemBody.owned, FatDirectoryPtr.blocks]
      | freed => simp [FatItemBody.blocks, FatItemBody.owned, FatDirectoryPtr.blocks]
      | live directory items content =>
          by_cases htotal : content.total ≤ 0
          · simp only [FatItemBody.blocks, FatItemBody.owned, FatDirectoryPtr.blocks, if_pos htotal]
            simp
            tauto
          · simp [FatItemBody.blocks, FatItemBody.owned, FatDirectoryPtr.blocks, htotal]

/-- A directory with entries owns all that is freed with it. -/
theorem FatItem.blocks_of_entries {dir items : Nat} {content : FatDirectory}
    (hbody : item.body = .directory (.live dir items content)) (htotal : 0 < content.total) :
    item.blocks = item.owned := by
  unfold FatItem.blocks FatItem.owned
  rw [hbody]
  unfold FatItemBody.owned
  simp only [if_neg (not_le.mpr htotal)]
  rfl

/-- Freeing an item. -/
theorem fat16FatItemFree_heap {u : Unit} (hready : k.heap.Ready) (hrun : fat16FatItemFree item k = .ok (u, k')) :
    k'.heap = k.heap.freeAll item.blocks := by
  rcases item with ⟨addr, body⟩
  unfold fat16FatItemFree at hrun
  cases body with
  | file copy content =>
      cases hrun
      rfl
  | directory ptr =>
      obtain ⟨_, k₁, hfree, hrest⟩ := bind_eq_ok.mp hrun
      cases hrest
      cases ptr with
      | null =>
          cases hfree
          rfl
      | freed => cases hfree
      | live directory items content =>
          have hheap := fat16FreeDirectory_heap hfree
          by_cases hitems : items = 0
          · -- freeing the null pointer would change nothing
            rw [if_pos hitems] at hheap
            show heapFree k₁.heap addr = heapFree (heapFree (heapFree k.heap items) directory) addr
            rw [hheap, hitems, hready.free_null]
          · rw [if_neg hitems] at hheap
            show heapFree k₁.heap addr = heapFree (heapFree (heapFree k.heap items) directory) addr
            rw [hheap]

/-- Closing a file frees its blocks, and leaves the table alone. -/
theorem fat16Close_heap {data : FatFileDescriptor} {res : Int} (hready : k.heap.Ready)
    (hrun : fat16Close data k = .ok (res, k')) :
    res = 0 ∧ k'.heap = k.heap.freeAll data.blocks ∧ k'.fileDescriptors = k.fileDescriptors := by
  obtain ⟨hres, _, _, _, hk⟩ := fat16Close_keeps HeapRule.trivial.client.free (fun _ _ => True.intro) k res k'
    (Keeps.refl True.intro) hrun
  refine ⟨hres, ?_, by rw [hk]⟩
  obtain ⟨_, k₁, hfree, hrest⟩ := bind_eq_ok.mp hrun
  cases hrest
  have hblocks : k.heap.freeAll data.blocks = heapFree (k.heap.freeAll data.item.blocks) data.addr :=
    List.foldl_append
  rw [hblocks, ← fat16FatItemFree_heap hready hfree]

/-- **A new item** has its blocks to itself. -/
theorem fat16NewFatItemForDirectoryItem_reserves {entry : FatDirectoryItem} (hclean : k.heap.Clean)
    (hrun : fat16NewFatItemForDirectoryItem disk fs entry k = .ok (some item, k')) (hlive : item.Live) :
    k'.heap.Reserves k.heap.taken item.owned := by
  unfold fat16NewFatItemForDirectoryItem at hrun
  obtain ⟨addr, k₁, halloc, hrun⟩ := bind_eq_ok.mp hrun
  by_cases hzero : addr = 0
  · rw [if_pos hzero] at hrun
    cases hrun
  rw [if_neg hzero] at hrun
  have hgrown₁ := hclean.grown.more (by decide) halloc
  have haddr := hclean.grown.block (by decide) (by decide) halloc hzero
  by_cases hsub : entry.isSubdirectory = true
  · rw [if_pos hsub] at hrun
    obtain ⟨ptr, k₂, hload, hrun⟩ := bind_eq_ok.mp hrun
    cases hrun
    have hnone : ∀ ptr, (∀ dir items content, ptr ≠ .live dir items content) →
        ¬ (FatItem.mk addr (.directory ptr)).Live := by
      rintro ptr hptr (⟨_, _, hbody, _⟩ | ⟨dir, items, content, hbody⟩)
      · cases hbody
      · cases hbody
        exact hptr _ _ _ rfl
    cases fat16LoadFatDirectory_outcome hload with
    | file => exact absurd hlive (hnone _ fun _ _ _ => by simp)
    | full => exact absurd hlive (hnone _ fun _ _ _ => by simp)
    | failed => exact absurd hlive (hnone _ fun _ _ _ => by simp)
    | @loaded directory items k₂ _ total bytes _ hdir hne htotal hitems hne' _ =>
        have hgrown₂ := hgrown₁.more (by decide) hdir
        have hdirectory := hgrown₁.block (by decide) (by decide) hdir hne
        have hsize := u32_lt (directorySize total)
        have hgrown₃ := hgrown₂.more hsize hitems
        have haddr' := Heap.Grown.later hgrown₂.clean.ready hsize
          (Heap.Grown.later hgrown₁.clean.ready (by decide) haddr hdir) hitems
        have hdirectory' := Heap.Grown.later hgrown₂.clean.ready hsize hdirectory hitems
        refine hgrown₃.reserves fun p hp => ?_
        unfold FatItem.owned FatItemBody.owned at hp
        by_cases hempty : total ≤ 0
        · simp only [if_pos hempty, List.cons_append, List.nil_append, List.mem_cons, List.not_mem_nil, or_false] at hp
          rcases hp with rfl | rfl
          · exact hdirectory'
          · exact haddr'
        · simp only [if_neg hempty, List.cons_append, List.nil_append, List.mem_cons, List.not_mem_nil, or_false] at hp
          -- the array has at least one byte
          obtain ⟨hpos, hmax⟩ := arraySize_bounds htotal (by omega)
          rw [← (directorySize_eq htotal).2.1] at hpos hmax
          rcases hp with rfl | rfl | rfl
          · exact hgrown₂.block hpos hmax hitems hne'
          · exact hdirectory'
          · exact haddr'
  · rw [if_neg hsub] at hrun
    obtain ⟨copy, k₂, hclone, hrun⟩ := bind_eq_ok.mp hrun
    cases hrun
    have hcopy : copy ≠ 0 := by
      rcases hlive with ⟨_, _, hbody, hne⟩ | ⟨_, _, _, hbody⟩
      · cases hbody
        exact hne
      · cases hbody
    have hgrown₂ := hgrown₁.more (by decide) hclone
    refine hgrown₂.reserves fun p hp => ?_
    simp only [FatItem.owned, FatItemBody.owned, List.cons_append, List.nil_append, List.mem_cons, List.not_mem_nil,
      or_false] at hp
    rcases hp with rfl | rfl
    · exact hgrown₁.block (by decide) (by decide) hclone hcopy
    · exact Heap.Grown.later hgrown₁.clean.ready (by decide) haddr hclone

theorem fat16NewFatItemForDirectoryItem_stays {entry : FatDirectoryItem} (hclean : k.heap.Clean)
    (hrun : fat16NewFatItemForDirectoryItem disk fs entry k = .ok (r, k')) : Stays k k' :=
  .of_keeps (fat16NewFatItemForDirectoryItem_keeps (stayRule _ _).client k r k' (Stays.start hclean) hrun).2

theorem fat16FindLoop_stays {directory : FatDirectory} {name : List (BitVec 8)} {left i : Nat}
    (hclean : k.heap.Clean) (hrun : fat16FindLoop disk fs directory name left i none k = .ok (r, k')) : Stays k k' :=
  .of_keeps (fat16FindLoop_keeps (stayRule _ _).client ownsItem_none k r k' (Stays.start hclean) hrun).2

/-- The search: the item found last has its blocks to itself. The induction is on the items left. -/
theorem fat16FindLoop_reserves {directory : FatDirectory} {name : List (BitVec 8)} {left i : Nat}
    {fItem : Option FatItem} (hclean : k.heap.Clean) (hT : T ⊆ k.heap.taken)
    (hitem : ∀ found, fItem = some found → found.Live → k.heap.Reserves T found.owned)
    (hrun : fat16FindLoop disk fs directory name left i fItem k = .ok (r, k')) :
    ∀ found, r = some found → found.Live → k'.heap.Reserves T found.owned := by
  induction left generalizing i fItem k with
  | zero =>
      cases hrun
      exact hitem
  | succ left ih =>
      unfold fat16FindLoop at hrun
      cases hget : directory.item[i]? with
      | none =>
          rw [hget] at hrun
          cases hrun
      | some entry =>
          simp only [hget] at hrun
          by_cases hsame : sameName entry name = true
          · rw [if_pos hsame] at hrun
            obtain ⟨found, k₁, hnew, hrest⟩ := bind_eq_ok.mp hrun
            have hstays := fat16NewFatItemForDirectoryItem_stays hclean hnew
            refine ih hstays.clean (hT.trans hstays.taken) ?_ hrest
            rintro item rfl hlive
            exact (fat16NewFatItemForDirectoryItem_reserves hclean hnew hlive).mono hT
          · rw [if_neg hsame] at hrun
            exact ih hclean hT hitem hrun

/-- What is found is found in a directory with entries. -/
theorem fat16FindItemInDirectory_entries {directory : FatDirectory} {name : List (BitVec 8)}
    (hrun : fat16FindItemInDirectory disk fs directory name k = .ok (some item, k')) : 0 < directory.total := by
  by_contra hnone
  have hzero : directory.total.toNat = 0 := by omega
  unfold fat16FindItemInDirectory at hrun
  rw [hzero] at hrun
  cases hrun

/-- The walk. Each directory on the way is freed after the next item was made; it had an entry then, so its array is
    its own. The induction is on the parts of the path left. -/
theorem fat16EntryLoop_reserves {path : List PathPart} {current : FatItem} (hclean : k.heap.Clean)
    (hT : T ⊆ k.heap.taken) (hcurrent : current.Live → k.heap.Reserves T current.owned)
    (hrun : fat16EntryLoop disk fs current path k = .ok (some item, k')) (hlive : item.Live) :
    k'.heap.Reserves T item.owned := by
  induction path generalizing k current with
  | nil =>
      cases hrun
      exact hcurrent hlive
  | cons part rest ih =>
      unfold fat16EntryLoop at hrun
      cases hbody : current.body with
      | file copy content =>
          simp only [hbody] at hrun
          cases hrun
      | directory ptr =>
          cases ptr with
          | null =>
              simp only [hbody] at hrun
              cases hrun
          | freed =>
              simp only [hbody] at hrun
              cases hrun
          | live directory items content =>
              simp only [hbody] at hrun
              obtain ⟨tmpItem, k₁, hfind, hrun₁⟩ := bind_eq_ok.mp hrun
              obtain ⟨_, k₂, hfree, hrun₂⟩ := bind_eq_ok.mp hrun₁
              cases tmpItem with
              | none =>
                  change (if rest = [] then pure none else throw .nullPointer : KM (Option FatItem)) k₂ = _ at hrun₂
                  split at hrun₂
                  · cases hrun₂
                  · cases hrun₂
              | some found =>
                  have hstays : Stays k k₁ := fat16FindLoop_stays hclean hfind
                  obtain ⟨S, hclosed, hdisjoint, hS⟩ := hcurrent (Or.inr ⟨directory, items, content, hbody⟩)
                  have hclosed₁ := hclosed.kept hclosed.taken hstays.kept
                  have hheap := fat16FatItemFree_heap hstays.clean.ready hfree
                  have htotal := fat16FindItemInDirectory_entries hfind
                  have hfreed : ∀ p ∈ current.blocks, kfreeBlock p ∈ S := by
                    rw [FatItem.blocks_of_entries hbody htotal]
                    exact hS
                  have hready := hstays.clean.ready
                  refine ih ?_ ?_ (fun hfound => ?_) hrun₂
                  · rw [hheap]
                    exact hstays.clean.freeAll _
                  · intro b hb
                    rw [hheap]
                    refine hready.freeAll_kept (hstays.taken (hT hb)) fun p hp hin => ?_
                    have hmem := hclosed₁.blocksFrom (hfreed p hp) hin (hstays.taken (hT hb)).1
                    exact Set.disjoint_left.mp hdisjoint hmem hb
                  · rw [hheap]
                    have hnew := fat16FindLoop_reserves hclean subset_rfl (fun _ hnone => by cases hnone) hfind found
                      rfl hfound
                    exact (hnew.mono (Set.union_subset hT hclosed.taken)).freeAll hready hclosed₁ hfreed

theorem fat16GetDirectoryEntry_stays {path : List PathPart} (hclean : k.heap.Clean)
    (hrun : fat16GetDirectoryEntry disk volume path k = .ok (r, k')) : Stays k k' :=
  .of_keeps (fat16GetDirectoryEntry_keeps (stayRule _ _).client k r k' (Stays.start hclean) hrun).2

theorem fat16GetDirectoryEntry_reserves {path : List PathPart} (hclean : k.heap.Clean)
    (hrun : fat16GetDirectoryEntry disk volume path k = .ok (some item, k')) (hlive : item.Live) :
    k'.heap.Reserves k.heap.taken item.owned := by
  cases path with
  | nil => cases hrun
  | cons part rest =>
      obtain ⟨rootItem, k₁, hfind, hrun₁⟩ := bind_eq_ok.mp hrun
      cases rootItem with
      | none => cases hrun₁
      | some found =>
          have hstays : Stays k k₁ := fat16FindLoop_stays hclean hfind
          refine fat16EntryLoop_reserves hstays.clean hstays.taken (fun hfound => ?_) hrun₁ hlive
          exact fat16FindLoop_reserves hclean subset_rfl (fun _ hnone => by cases hnone) hfind found rfl hfound

/-- **What `fat16_open` returns** has its blocks to itself. -/
theorem fat16Open_reserves {path : List PathPart} {mode : FileMode} {data : FatFileDescriptor}
    (hclean : k.heap.Clean) (hrun : fat16Open disk volume path mode k = .ok (.ok data, k')) (hlive : data.item.Live) :
    k'.heap.Reserves k.heap.taken data.owned := by
  unfold fat16Open at hrun
  by_cases hmode : mode ≠ .read
  · rw [if_pos hmode] at hrun
    cases hrun
  rw [if_neg hmode] at hrun
  obtain ⟨addr, k₁, halloc, hrun⟩ := bind_eq_ok.mp hrun
  by_cases hzero : addr = 0
  · rw [if_pos hzero] at hrun
    cases hrun
  rw [if_neg hzero] at hrun
  obtain ⟨found, k₂, hentry, hrun⟩ := bind_eq_ok.mp hrun
  cases found with
  | none =>
      obtain ⟨_, _, _, hdone⟩ := bind_eq_ok.mp hrun
      cases hdone
  | some item =>
      cases hrun
      have hgrown := hclean.grown.more (by decide) halloc
      have haddr := hclean.grown.block (by decide) (by decide) halloc hzero
      have hstays := fat16GetDirectoryEntry_stays hgrown.clean hentry
      have hitem := (fat16GetDirectoryEntry_reserves hgrown.clean hentry hlive).mono hgrown.sub
      -- the descriptor was there before the walk
      have hdescriptor : k₁.heap.Reserves k.heap.taken [addr] :=
        hgrown.reserves fun p hp => List.mem_singleton.mp hp ▸ haddr
      exact hitem.append (hdescriptor.kept hstays.kept)

theorem OpensFile.stays {drive : Drive} {filename modeStr : List (BitVec 8)} {data : FatFileDescriptor}
    {k₁ : Kernel} (h : OpensFile drive filename modeStr k volume data k₁) (hclean : k.heap.Clean) : Stays k k₁ :=
  .of_keeps (h.keeps (stayRule _ _) ⟨hclean, hclean.shields.kept⟩).1

/-- A file that is opened has its blocks to itself. -/
theorem OpensFile.reserves {drive : Drive} {filename modeStr : List (BitVec 8)} {data : FatFileDescriptor}
    {k₁ : Kernel} (h : OpensFile drive filename modeStr k volume data k₁) (hclean : k.heap.Clean)
    (hlive : data.item.Live) : k₁.heap.Reserves k.heap.taken data.owned := by
  obtain ⟨rootPath, k₀, hparse, _, _, hopen⟩ := h.opens
  have hstays : Stays k k₀ := .of_keeps (pathparserParse_keeps (stayRule _ _).client k _ k₀ (Stays.start hclean) hparse)
  exact (fat16Open_reserves hstays.clean hopen hlive).mono hstays.taken

end Open

end BimbleOS
