import BimbleOS.Fs.DirectoryCount
import BimbleOS.Memory.HeapChunks

/-!
# `Fs.LoadedDirectory` — the directory that is returned, and who frees it

`fat16_load_fat_directory` allocates a structure and then the array of its items. When a step behind the structure
fails it frees both and returns the pointer all the same, so the item that is made of it is freed a second time later.
An empty directory has an array of no bytes, for which the heap answers with a block that stays free.

`fat16LoadFatDirectory_settles_iff` says when neither happens: then what is returned is null or lies in taken blocks,
and the item made of it can be searched, and every block of it is still taken when it is freed.
-/

namespace BimbleOS

open CWord Exec

/-! ## Reading the items -/

/-- The chain from `cluster` on does not end before `size` bytes do, as far as the lookups from offset `o` on are
    defined. -/
def ChainCovers (disk : Disk) (fs : FatPrivate) (cluster : Int) (o size : Nat) : Prop :=
  ∀ i c, i * fs.clusterBytes < size →
    fat16GetClusterForOffset disk fs cluster ((o + i * fs.clusterBytes : Nat) : Int) = some c → 0 ≤ c

section Covers

variable {disk : Disk} {fs : FatPrivate} {cluster : Int} {o size : Nat}

/-- The first cluster, and those behind it. -/
theorem chainCovers_more (hmore : fs.clusterBytes < size) : ChainCovers disk fs cluster o size ↔
    (∀ c, fat16GetClusterForOffset disk fs cluster o = some c → 0 ≤ c) ∧
      ChainCovers disk fs cluster (o + fs.clusterBytes) (size - fs.clusterBytes) := by
  constructor
  · intro h
    refine ⟨fun c hc => h 0 c (by omega) (by rwa [Nat.zero_mul]), fun i c hi hc => ?_⟩
    refine h (i + 1) c ?_ ?_
    · rw [Nat.add_mul]
      omega
    · rwa [show o + (i + 1) * fs.clusterBytes = o + fs.clusterBytes + i * fs.clusterBytes by
        rw [Nat.add_mul]; omega]
  · rintro ⟨hfirst, hrest⟩ i c hi hc
    rcases i with _ | i
    · rw [Nat.zero_mul] at hc
      exact hfirst c hc
    · rw [Nat.add_mul] at hi
      refine hrest i c (by omega) ?_
      rwa [show o + fs.clusterBytes + i * fs.clusterBytes = o + (i + 1) * fs.clusterBytes by
        rw [Nat.add_mul]; omega]

/-- There is one cluster only. -/
theorem chainCovers_last (hpos : 0 < size) (hlast : size ≤ fs.clusterBytes) : ChainCovers disk fs cluster o size ↔
    ∀ c, fat16GetClusterForOffset disk fs cluster o = some c → 0 ≤ c := by
  constructor
  · intro h c hc
    exact h 0 c (by omega) (by rwa [Nat.zero_mul])
  · intro h i c hi hc
    rcases i with _ | i
    · rw [Nat.zero_mul] at hc
      exact h c hc
    · rw [Nat.add_mul] at hi
      omega

/-- A read that is defined succeeds if and only if the chain covers it. The induction follows the loop. -/
theorem fat16ReadLoop_covers {fuel : Nat} {r : Int} {bytes : List (BitVec 8)} (hpos : 0 < size)
    (h : fat16ReadLoop disk fs cluster fuel o size = some (r, bytes)) : r = 0 ↔ ChainCovers disk fs cluster o size := by
  induction fuel generalizing o size r bytes with
  | zero => cases h
  | succ fuel ih =>
      unfold fat16ReadLoop at h
      obtain ⟨clusterToUse, hcluster, h⟩ := Option.bind_eq_some_iff.mp h
      -- a cluster below zero: the chain has ended
      by_cases hneg : clusterToUse < 0
      · rw [if_pos hneg] at h
        cases h
        refine iff_of_false (by omega) fun hcovers => ?_
        have hfirst := hcovers 0 _ (by omega) (by rw [Nat.zero_mul]; exact hcluster)
        omega
      rw [if_neg hneg] at h
      have hlookup : ∀ c, fat16GetClusterForOffset disk fs cluster o = some c → 0 ≤ c := by
        intro c hc
        obtain rfl : clusterToUse = c := Option.some.inj (hcluster.symm.trans hc)
        omega
      obtain ⟨sector, _, h⟩ := Option.bind_eq_some_iff.mp h
      obtain ⟨sectorPos, _, h⟩ := Option.bind_eq_some_iff.mp h
      obtain ⟨startingPos, _, h⟩ := Option.bind_eq_some_iff.mp h
      obtain ⟨q, hq, h⟩ := Option.bind_eq_some_iff.mp h
      have hres := diskstreamerReadLoop_res hq
      rw [if_neg (not_not_intro hres)] at h
      -- the bytes of this cluster are not all of them, or they are
      by_cases hmore : fs.clusterBytes < size
      · have hbig : (size : Int) > fs.clusterBytes := by omega
        rw [if_pos hbig, if_pos (by omega)] at h
        obtain ⟨offset, hoffset, h⟩ := Option.bind_eq_some_iff.mp h
        obtain ⟨⟨r', bytes'⟩, hrest, heq⟩ := Option.map_eq_some_iff.mp h
        cases heq
        have hnext : offset = ((o + fs.clusterBytes : Nat) : Int) := by
          unfold checked at hoffset
          split at hoffset
          · rw [← Option.some.inj hoffset]
            exact (Int.natCast_add o fs.clusterBytes).symm
          · cases hoffset
        have hleft : (size : Int) - fs.clusterBytes = ((size - fs.clusterBytes : Nat) : Int) := by omega
        rw [hnext, hleft] at hrest
        rw [chainCovers_more hmore, and_iff_right hlookup]
        exact ih (by omega) hrest
      · have hsmall : ¬ (size : Int) > fs.clusterBytes := by omega
        rw [if_neg hsmall, if_neg (by omega)] at h
        cases h
        exact iff_of_true hres ((chainCovers_last hpos (by omega)).mpr hlookup)

theorem fat16ReadInternal_covers {r : Int × List (BitVec 8)} (hpos : 0 < size)
    (h : fat16ReadInternal disk fs cluster 0 size = some r) : r.1 = 0 ↔ ChainCovers disk fs cluster 0 size :=
  fat16ReadLoop_covers hpos h

/-- The size of the array in bytes, and as an `int` when it fits the heap. -/
theorem directorySize_eq {item : FatDirectoryItem} {total : Int} (h : subdirectoryTotal disk fs item = some total) :
    0 ≤ total ∧ u32 (directorySize total) = sizeofFatDirectoryItem * total.toNat ∧
      (sizeofFatDirectoryItem * total.toNat < 2147483648 →
        directorySize total = ((sizeofFatDirectoryItem * total.toNat : Nat) : Int)) := by
  obtain ⟨sector, _, hcount⟩ := Option.bind_eq_some_iff.mp h
  obtain ⟨hlo, hhi⟩ := fat16GetTotalItemsForDirectory_bound hcount
  unfold directorySize sizeofFatDirectoryItem u32 s32
  omega

end Covers

/-! ## What the function returns -/

/-- The ways in which `fat16_load_fat_directory` ends. -/
inductive LoadOutcome (disk : Disk) (fs : FatPrivate) (item : FatDirectoryItem) (k : Kernel) :
    FatDirectoryPtr → Kernel → Prop where
  /-- The entry is not a subdirectory. -/
  | file (hsub : item.isSubdirectory = false) : LoadOutcome disk fs item k .null k
  /-- There is no block for the structure. -/
  | full {k' : Kernel} (hsub : item.isSubdirectory = true) (halloc : kzalloc sizeofFatDirectory k = .ok (0, k')) :
      LoadOutcome disk fs item k .null k'
  /-- The array is refused, or it cannot be read. -/
  | failed {directory : Nat} {k₁ k' : Kernel} {total : Int} (hsub : item.isSubdirectory = true)
      (halloc : kzalloc sizeofFatDirectory k = .ok (directory, k₁)) (hne : directory ≠ 0)
      (htotal : subdirectoryTotal disk fs item = some total)
      (hfails : (∃ k₂, kzalloc (u32 (directorySize total)) k₁ = .ok (0, k₂)) ∨ ∃ r,
        fat16ReadInternal disk fs (fat16GetFirstCluster item) 0 (directorySize total) = some r ∧ r.1 ≠ 0) :
      LoadOutcome disk fs item k .freed k'
  | loaded {directory items : Nat} {k₁ k₂ : Kernel} {total : Int} {bytes : List (BitVec 8)}
      (hsub : item.isSubdirectory = true) (halloc : kzalloc sizeofFatDirectory k = .ok (directory, k₁))
      (hne : directory ≠ 0) (htotal : subdirectoryTotal disk fs item = some total)
      (hitems : kzalloc (u32 (directorySize total)) k₁ = .ok (items, k₂)) (hne' : items ≠ 0)
      (hread : fat16ReadInternal disk fs (fat16GetFirstCluster item) 0 (directorySize total) = some (0, bytes)) :
      LoadOutcome disk fs item k
        (.live directory items { item := directoryItems bytes total.toNat, total := total }) k₂

section Outcome

variable {disk : Disk} {fs : FatPrivate} {item : FatDirectoryItem} {k k' : Kernel} {ptr : FatDirectoryPtr}

theorem fat16LoadFatDirectory_outcome (hrun : fat16LoadFatDirectory disk fs item k = .ok (ptr, k')) :
    LoadOutcome disk fs item k ptr k' := by
  unfold fat16LoadFatDirectory at hrun
  cases hsub : item.isSubdirectory with
  | false =>
      rw [hsub] at hrun
      cases hrun
      exact .file hsub
  | true =>
      rw [hsub] at hrun
      obtain ⟨directory, k₁, halloc, hrun₁⟩ := bind_eq_ok.mp hrun
      -- `out` is reached with a null pointer
      by_cases hne : directory = 0
      · rw [if_pos hne] at hrun₁
        cases hrun₁
        exact .full hsub (hne ▸ halloc)
      rw [if_neg hne] at hrun₁
      obtain ⟨sector, k₂, hsector, hrun₂⟩ := bind_eq_ok.mp hrun₁
      obtain ⟨hsector', rfl⟩ := defined_run hsector
      obtain ⟨total, k₃, hcount, hrun₃⟩ := bind_eq_ok.mp hrun₂
      obtain ⟨hcount', rfl⟩ := defined_run hcount
      have htotal : subdirectoryTotal disk fs item = some total :=
        Option.bind_eq_some_iff.mpr ⟨sector, hsector', hcount'⟩
      obtain ⟨items, k₄, hitems, hrun₄⟩ := bind_eq_ok.mp hrun₃
      -- `out` with an error: the directory is freed and returned
      by_cases hne' : items = 0
      · rw [if_pos hne'] at hrun₄
        obtain ⟨_, k₅, _, hdone⟩ := bind_eq_ok.mp hrun₄
        cases hdone
        exact .failed hsub halloc hne htotal (Or.inl ⟨k₄, hne' ▸ hitems⟩)
      rw [if_neg hne'] at hrun₄
      obtain ⟨⟨res, bytes⟩, k₅, hread, hrun₅⟩ := bind_eq_ok.mp hrun₄
      obtain ⟨hread', rfl⟩ := readInternal_run hread
      change (if res ≠ bimbleosAllOk then _ else _ : KM _) k₅ = _ at hrun₅
      -- and the same when the read fails
      by_cases hres : res = bimbleosAllOk
      · rw [if_neg (not_not_intro hres)] at hrun₅
        cases hrun₅
        obtain rfl : res = 0 := hres
        exact .loaded hsub halloc hne htotal hitems hne' hread'
      · rw [if_pos hres] at hrun₅
        obtain ⟨_, k₆, _, hdone⟩ := bind_eq_ok.mp hrun₅
        cases hdone
        exact .failed hsub halloc hne htotal (Or.inr ⟨_, hread', hres⟩)

end Outcome

/-! ## What the caller may do with it -/

/-- The structure and the array of a directory lie in taken blocks. -/
def FatDirectoryPtr.Live (heap : Heap) : FatDirectoryPtr → Prop
  | .live directory items content => kfreeBlock directory ∈ heap.taken ∧
      heap.BufferTaken items (sizeofFatDirectoryItem * content.total.toNat)
  | _ => False

/-- A search of the directory has come from `k` to `k'`: some of its items are done, or all of them. -/
def DirectorySearched (disk : Disk) (fs : FatPrivate) : FatDirectoryPtr → Kernel → Kernel → Prop
  | .live _ _ content, k, k' =>
      ∃ name left r, fat16FindLoop disk fs content name left 0 none k = .ok (r, k')
  | _, k, k' => k' = k

/-- What a caller relies on when it has called `fat16_load_fat_directory` in `k` and got `ptr`. -/
structure LoadSettles (disk : Disk) (fs : FatPrivate) (item : FatDirectoryItem) (ptr : FatDirectoryPtr)
    (k k' : Kernel) : Prop where
  result : ptr = .null ∨ ptr.Live k'.heap
  /-- A search does not read what was freed. -/
  search : ∀ directory items content, ptr = .live directory items content → ∀ name left,
    fat16FindLoop disk fs content name left 0 none k' ≠ .error .useAfterFree
  /-- The item that `fat16_new_fat_item_for_directory_item` makes of the directory, with its own block at `fItem`: at
      any time of a search the directory is there, and after it every block is still taken when it is freed. -/
  free : ∀ k₀ fItem k₁, k₀.heap.Clean → kzalloc sizeofFatItem k₀ = .ok (fItem, k) → fItem ≠ 0 →
    DirectorySearched disk fs ptr k' k₁ →
      (item.isSubdirectory = true → fat16NewFatItemForDirectoryItem disk fs item k₀
        = .ok (some { addr := fItem, body := .directory ptr }, k')) ∧
      (ptr = .null ∨ ptr.Live k₁.heap) ∧
      k₁.heap.FreesTaken (FatItem.blocks { addr := fItem, body := .directory ptr }) ∧
      ∃ k₂, fat16FatItemFree { addr := fItem, body := .directory ptr } k₁ = .ok ((), k₂)

/-- No step fails behind the structure, and the directory has an entry. -/
inductive LoadsWhole (disk : Disk) (fs : FatPrivate) (item : FatDirectoryItem) (heap : Heap) : Prop where
  | file (hsub : item.isSubdirectory = false)
  | full (hfull : heap.freeBlocks = 0)
  | loaded {total : Int} (htotal : subdirectoryTotal disk fs item = some total) (hpos : 0 < total)
      (hroom : heap.RoomBehind (heapBlocks (sizeofFatDirectoryItem * total.toNat)))
      (hcovers : ChainCovers disk fs (fat16GetFirstCluster item) 0 (sizeofFatDirectoryItem * total.toNat))

section Search

variable {disk : Disk} {fs : FatPrivate} {item : FatDirectoryItem}

/-- What a load frees itself it does not read again. -/
theorem fat16LoadFatDirectory_unfreed : Never .useAfterFree (fat16LoadFatDirectory disk fs item) := by
  have hfree : ∀ directory items content, Never .useAfterFree
      (fat16FreeDirectory (.live directory items content) >>= fun _ => pure FatDirectoryPtr.freed) := by
    intro directory items content
    refine Never.bind ?_ fun _ => Never.pure
    unfold fat16FreeDirectory
    exact Never.ite (Never.bind Never.modify fun _ => Never.modify) Never.modify
  unfold fat16LoadFatDirectory
  refine Never.ite Never.pure ?_
  refine Never.bind (kzalloc_never (by decide)) fun directory => Never.ite Never.pure ?_
  refine Never.bind (defined_never (by decide)) fun sector => ?_
  refine Never.bind (defined_never (by decide)) fun total => ?_
  refine Never.bind (kzalloc_never (by decide)) fun items => Never.ite (hfree _ _ _) ?_
  refine Never.bind (readInternal_never (by decide) (by decide)) fun r => ?_
  exact Never.ite (hfree _ _ _) Never.pure

theorem fat16NewFatItemForDirectoryItem_unfreed :
    Never .useAfterFree (fat16NewFatItemForDirectoryItem disk fs item) := by
  unfold fat16NewFatItemForDirectoryItem
  refine Never.bind (kzalloc_never (by decide)) fun fItem => Never.ite Never.pure ?_
  refine Never.ite ?_ ?_
  · exact Never.bind fat16LoadFatDirectory_unfreed fun _ => Never.pure
  · exact Never.bind (kzalloc_never (by decide)) fun _ => Never.pure

/-- A search reads the items that it was given. The induction is on the items left. -/
theorem fat16FindLoop_unfreed {directory : FatDirectory} {name : List (BitVec 8)} {left i : Nat}
    {fItem : Option FatItem} : Never .useAfterFree (fat16FindLoop disk fs directory name left i fItem) := by
  induction left generalizing i fItem with
  | zero => exact Never.pure
  | succ left ih =>
      unfold fat16FindLoop
      cases directory.item[i]? with
      | none => exact Never.throw (by decide)
      | some item => exact Never.ite (Never.bind fat16NewFatItemForDirectoryItem_unfreed fun _ => ih) ih

end Search

section Settles

variable {disk : Disk} {fs : FatPrivate} {item : FatDirectoryItem} {k k' : Kernel} {ptr : FatDirectoryPtr}
  {chunks : List (Nat × Nat)}

/-- An array that is not empty has a size that the heap can round up. -/
theorem arraySize_bounds {total : Int} (htotal : subdirectoryTotal disk fs item = some total) (hpos : 0 < total) :
    1 ≤ sizeofFatDirectoryItem * total.toNat ∧ sizeofFatDirectoryItem * total.toNat ≤ 0xFFFFF000 := by
  refine ⟨Nat.mul_pos (by decide) (by omega), ?_⟩
  rw [← (directorySize_eq htotal).2.1]
  exact directorySize_le htotal

/-- What is returned says that no step failed. -/
theorem LoadOutcome.whole (h : LoadOutcome disk fs item k ptr k') (hclean : k.heap.Clean)
    (hresult : ptr = .null ∨ ptr.Live k'.heap) : LoadsWhole disk fs item k.heap := by
  cases h with
  | file hsub => exact .file hsub
  | full hsub halloc => exact .full (kzalloc_refused hclean.ready (by decide) (by decide) halloc).1
  | failed hsub halloc hne htotal hfails =>
      -- a freed directory is neither null nor live
      rcases hresult with hnull | hlive
      · cases hnull
      · exact hlive.elim
  | @loaded directory items k₁ _ total bytes hsub halloc hne htotal hitems hne' hread =>
      rcases hresult with hnull | ⟨_, hbuffer⟩
      · cases hnull
      obtain ⟨hlo, hbytes, hint⟩ := directorySize_eq htotal
      rw [hbytes] at hitems
      obtain ⟨hdirectory, hheap₁⟩ := kzalloc_heap halloc
      obtain ⟨harray, hheap₂⟩ := kzalloc_heap hitems
      obtain ⟨hchunks, hclean₁⟩ := k.heap.chunks_nil.kzalloc_one hclean (by decide) (by decide) halloc hne
      rw [hheap₂, harray] at hbuffer
      rw [harray] at hne'
      rcases Nat.eq_zero_or_pos total.toNat with hzero | hpos
      · -- the array has no bytes
        rw [hzero, Nat.mul_zero] at hne' hbuffer
        have htaken := (hchunks.chunk _ List.mem_cons_self).taken _ (Nat.le_refl _) (Nat.lt_succ_self _)
        exact absurd hbuffer.1 (heapMalloc_nothing hclean₁.ready ⟨_, htaken⟩ hne')
      · -- the array was answered inside the table
        obtain ⟨hsize, hmax⟩ := arraySize_bounds htotal (by omega)
        have hfits := fits_of_bufferTaken hclean₁.ready hsize hmax hne' hbuffer
        obtain ⟨hblocks, hcover, _⟩ := heapBlocks_of_le hsize hmax
        have hsmall : sizeofFatDirectoryItem * total.toNat < 2147483648 := by
          obtain ⟨i, hinside, _⟩ := hfits
          have hentries := hclean₁.ready.total
          omega
        rw [hint hsmall] at hread
        refine .loaded htotal (by omega) ?_ ((fat16ReadInternal_covers hsize hread).mp rfl)
        refine (roomBehind_iff hclean.ready (by decide) (by decide) (hdirectory ▸ hne) hblocks).mpr ?_
        rwa [← hheap₁]

/-- With a block for the structure, the array fits and the chain covers it. -/
theorem LoadsWhole.room {directory : Nat} {k₁ : Kernel} {total : Int} (h : LoadsWhole disk fs item k.heap)
    (hclean : k.heap.Clean) (hsub : item.isSubdirectory = true)
    (halloc : kzalloc sizeofFatDirectory k = .ok (directory, k₁)) (hne : directory ≠ 0)
    (htotal : subdirectoryTotal disk fs item = some total) :
    0 < total ∧ k₁.heap.table.Fits (heapBlocks (sizeofFatDirectoryItem * total.toNat)) ∧
      ChainCovers disk fs (fat16GetFirstCluster item) 0 (sizeofFatDirectoryItem * total.toNat) := by
  obtain ⟨hdirectory, hheap₁⟩ := kzalloc_heap halloc
  cases h with
  | file hfile =>
      rw [hfile] at hsub
      cases hsub
  | full hfull =>
      rcases heapMalloc_one hclean.ready (by decide : 1 ≤ sizeofFatDirectory) (by decide) with
        ⟨hnull, _⟩ | ⟨s, _, _, _, hcount⟩
      · rw [hnull] at hdirectory
        exact absurd hdirectory hne
      · omega
  | loaded htotal' hpos hbehind hcovers =>
      obtain rfl := Option.some.inj (htotal.symm.trans htotal')
      obtain ⟨hsize, hmax⟩ := arraySize_bounds htotal hpos
      refine ⟨hpos, ?_, hcovers⟩
      rw [hheap₁]
      exact (roomBehind_iff hclean.ready (by decide) (by decide) (hdirectory ▸ hne)
        (heapBlocks_of_le hsize hmax).1).mp hbehind

/-- When no step fails the structure and the array are two more chunks, unless there is neither. -/
theorem LoadOutcome.takes (h : LoadOutcome disk fs item k ptr k') (hclean : k.heap.Clean)
    (hwhole : LoadsWhole disk fs item k.heap) (hchunks : k.heap.Chunks chunks) :
    (ptr = .null ∧ k'.heap = k.heap) ∨ ∃ directory items content n, ptr = .live directory items content ∧
      sizeofFatDirectoryItem * content.total.toNat ≤ 4096 * n ∧
      k'.heap.Chunks ((items, n) :: (directory, 1) :: chunks) ∧ k'.heap.Clean := by
  cases h with
  | file hsub => exact Or.inl ⟨rfl, rfl⟩
  | full hsub halloc => exact Or.inl ⟨rfl, (kzalloc_refused hclean.ready (by decide) (by decide) halloc).2⟩
  | @failed directory k₁ _ total hsub halloc hne htotal hfails =>
      obtain ⟨hpos, hfits, hcovers⟩ := hwhole.room hclean hsub halloc hne htotal
      obtain ⟨hlo, hbytes, hint⟩ := directorySize_eq htotal
      obtain ⟨hsize, hmax⟩ := arraySize_bounds htotal hpos
      obtain ⟨_, hclean₁⟩ := k.heap.chunks_nil.kzalloc_one hclean (by decide) (by decide) halloc hne
      obtain ⟨hblocks, hcover, _⟩ := heapBlocks_of_le hsize hmax
      -- the array fits, and the chain covers it
      exfalso
      rcases hfails with ⟨k₂, hrefused⟩ | ⟨r, hread, hbad⟩
      · rw [hbytes] at hrefused
        obtain ⟨s, _, heq⟩ := heapMalloc_fits hclean₁.ready hblocks hfits
        have hnull := (kzalloc_heap hrefused).1
        rw [heq] at hnull
        unfold bimbleosHeapAddress at hnull
        omega
      · have hsmall : sizeofFatDirectoryItem * total.toNat < 2147483648 := by
          obtain ⟨i, hinside, _⟩ := hfits
          have hentries := hclean₁.ready.total
          omega
        rw [hint hsmall] at hread
        exact hbad ((fat16ReadInternal_covers hsize hread).mpr hcovers)
  | @loaded directory items k₁ _ total bytes hsub halloc hne htotal hitems hne' hread =>
      obtain ⟨hpos, hfits, _⟩ := hwhole.room hclean hsub halloc hne htotal
      obtain ⟨hsize, hmax⟩ := arraySize_bounds htotal hpos
      obtain ⟨hchunks₁, hclean₁⟩ := hchunks.kzalloc_one hclean (by decide) (by decide) halloc hne
      rw [(directorySize_eq htotal).2.1] at hitems
      obtain ⟨harray, hheap₂⟩ := kzalloc_heap hitems
      refine Or.inr ⟨directory, items, _, heapBlocks (sizeofFatDirectoryItem * total.toNat), rfl,
        (heapBlocks_of_le hsize hmax).2.1, ?_, ?_⟩
      · rw [harray, hheap₂]
        exact hchunks₁.malloc hclean₁ hsize hmax hfits
      · rw [hheap₂]
        exact (cleanRule.malloc hclean₁ (by omega)).1

/-- The chunks of a directory hold it. -/
theorem Heap.Chunks.live {heap : Heap} {directory items n : Nat} {content : FatDirectory}
    (h : heap.Chunks ((items, n) :: (directory, 1) :: chunks))
    (hsize : sizeofFatDirectoryItem * content.total.toNat ≤ 4096 * n) :
    (FatDirectoryPtr.live directory items content).Live heap := by
  have hitems : heap.Chunk items n := h.chunk _ List.mem_cons_self
  have hdirectory : heap.Chunk directory 1 := h.chunk _ (List.mem_cons_of_mem _ List.mem_cons_self)
  have hpos := hitems.pos
  refine ⟨hdirectory.taken _ (Nat.le_refl _) (Nat.lt_succ_self _), hitems.taken _ (Nat.le_refl _) (by omega), ?_⟩
  intro b hlo hhi
  exact hitems.taken b hlo (by omega)

/-- A search keeps what is taken. -/
theorem DirectorySearched.kept {directory items : Nat} {content : FatDirectory} (hclean : k.heap.Clean)
    (h : DirectorySearched disk fs (.live directory items content) k k') : k.heap.Kept k.heap.taken k'.heap := by
  obtain ⟨name, left, r, hrun⟩ := h
  have hr : ClientRule (Keeps (Heap.Kept k.heap.taken k.heap) k) (Misses k.heap.taken) := (keptRule _ _).client
  exact (fat16FindLoop_keeps hr ownsItem_none k r k' (Keeps.refl hclean.shields.kept) hrun).2.1

theorem LoadOutcome.settles (h : LoadOutcome disk fs item k ptr k') (hclean : k.heap.Clean)
    (hrun : fat16LoadFatDirectory disk fs item k = .ok (ptr, k')) (hwhole : LoadsWhole disk fs item k.heap) :
    LoadSettles disk fs item ptr k k' where
  result := by
    rcases h.takes hclean hwhole k.heap.chunks_nil with ⟨hnull, _⟩ | ⟨_, _, _, n, rfl, hsize, hchunks, _⟩
    · exact Or.inl hnull
    · exact Or.inr (hchunks.live hsize)
  search := fun _ _ _ _ _ _ => fat16FindLoop_unfreed k'
  free := by
    intro k₀ fItem k₁ hclean₀ halloc hne hsearched
    obtain ⟨hchunks, _⟩ := k₀.heap.chunks_nil.kzalloc_one hclean₀ (by decide) (by decide) halloc hne
    refine ⟨fun hsub => ?_, ?_⟩
    · unfold fat16NewFatItemForDirectoryItem
      rw [bind_of_ok halloc, if_neg hne, if_pos hsub]
      exact bind_of_ok hrun
    rcases h.takes hclean hwhole hchunks with ⟨rfl, hheap⟩ | ⟨directory, items, content, n, rfl, hsize, hmore, hclean'⟩
    · obtain rfl : k₁ = k' := hsearched
      refine ⟨Or.inl rfl, ?_, _, rfl⟩
      rw [hheap]
      exact hchunks.freesTaken hclean.ready
    · have hkept := hsearched.kept hclean'
      have hstill := hmore.kept hkept
      refine ⟨Or.inr (hstill.live hsize), hstill.freesTaken hkept.shields.ready, ?_⟩
      -- `fat16_free_directory` frees the array only when there is one
      by_cases hitems : items = 0
      · exact ⟨_, by subst hitems; rfl⟩
      · exact ⟨_, by
          unfold fat16FatItemFree fat16FreeDirectory
          simp only [hitems, ne_eq, not_false_eq_true, if_true]
          rfl⟩

end Settles

/-- **A directory that is loaded is null or whole**, and the item made of it is searched and freed without a freed
    block being touched, if and only if the entry is no subdirectory, or no block is free, or the directory has an
    entry, a chain that is long enough, and room behind the block of its structure. -/
theorem fat16LoadFatDirectory_settles_iff {disk : Disk} {fs : FatPrivate} {item : FatDirectoryItem} {k k' : Kernel}
    {ptr : FatDirectoryPtr} (hclean : k.heap.Clean) (hrun : fat16LoadFatDirectory disk fs item k = .ok (ptr, k')) :
    LoadSettles disk fs item ptr k k' ↔ LoadsWhole disk fs item k.heap := by
  have houtcome := fat16LoadFatDirectory_outcome hrun
  constructor
  · intro h
    exact houtcome.whole hclean h.result
  · intro hwhole
    exact houtcome.settles hclean hrun hwhole

/-- As many entries of cluster 2, in sector 10, are counted as sectors 10 and 11 show. -/
theorem chainItem_total {disk : Disk} {t : Nat} (h : Terminated disk 5120 t) (ht : t < 67108703) :
    subdirectoryTotal disk smallFat chainItem = some (Nat.count (InUse disk 5120) t : Int) := by
  have hsector : fat16ClusterToSector smallFat (fat16GetFirstCluster chainItem) = some 10 := by decide
  have hten : u32 10 = 10 := by decide
  unfold subdirectoryTotal
  rw [hsector, Option.bind_some, hten, @fat16GetTotalItemsForDirectory_eq disk t 10 h (by decide) (by omega),
    if_pos (show 10 * 512 + 32 * (t + 1) < 2147483648 by omega)]

/-- A directory of 17 entries, of which its chain of one cluster holds 16. -/
def brokenDisk : Disk where
  sector := fun lba i => if lba = 10 ∨ lba = 11 ∧ i = 0 then 0x41 else 0

theorem brokenDisk_total : subdirectoryTotal brokenDisk smallFat chainItem = some 17 := by
  have hterminated : Terminated brokenDisk 5120 17 := ⟨by decide +kernel, by decide +kernel⟩
  rw [chainItem_total hterminated (by decide)]
  decide +kernel

theorem brokenDisk_read : ∃ bytes, fat16ReadInternal brokenDisk smallFat (fat16GetFirstCluster chainItem) 0
    (directorySize 17) = some (- EIO, bytes) := by
  have hread : (fat16ReadInternal brokenDisk smallFat (fat16GetFirstCluster chainItem) 0 (directorySize 17)).map
      Prod.fst = some (- EIO) := by decide +kernel
  obtain ⟨⟨res, bytes⟩, hsome, hres⟩ := Option.map_eq_some_iff.mp hread
  obtain rfl : res = - EIO := hres
  exact ⟨bytes, hsome⟩

/-- The directory is loaded while the heap still has its boot pages. -/
theorem fat16LoadFatDirectory_boot {disk : Disk} {res total : Int} {bytes : List (BitVec 8)}
    (htotal : subdirectoryTotal disk smallFat chainItem = some total)
    (hread : fat16ReadInternal disk smallFat (fat16GetFirstCluster chainItem) 0 (directorySize total)
      = some (res, bytes)) (hroom : itemBlocks disk smallFat chainItem - 1 < 25600) :
    ∃ ptr k', fat16LoadFatDirectory disk smallFat chainItem bootKernel = .ok (ptr, k') ∧
      Holds disk smallFat chainItem (.directory ptr) ∧
      subdirectory disk smallFat chainItem
        = if res = bimbleosAllOk then some { item := directoryItems bytes total.toNat, total := total } else none := by
  have hsub : chainItem.isSubdirectory = true := by decide
  have hcontent : readDirectory disk smallFat chainItem
      = some (res, { item := directoryItems bytes total.toNat, total := total }) := by
    unfold readDirectory
    rw [htotal, Option.bind_some, hread]
    rfl
  obtain ⟨ptr, k', hrun, hholds, _⟩ :=
    @fat16LoadFatDirectory_total disk smallFat chainItem 0 _ _ hsub hcontent bootKernel (bootKernel_tailRoom (by omega))
  refine ⟨ptr, k', hrun, hholds, ?_⟩
  unfold subdirectory
  rw [if_pos hsub, hcontent]
  rfl

/-- The chain ends before the array is read: what is returned has been freed. -/
theorem fat16LoadFatDirectory_returns_freed :
    ∃ k', fat16LoadFatDirectory brokenDisk smallFat chainItem bootKernel = .ok (.freed, k') ∧
      ¬ LoadSettles brokenDisk smallFat chainItem .freed bootKernel k' := by
  obtain ⟨bytes, hread⟩ := brokenDisk_read
  have hblocks : itemBlocks brokenDisk smallFat chainItem = 3 := by
    rw [itemBlocks_subdirectory (by decide) brokenDisk_total]
    decide
  obtain ⟨ptr, k', hrun, hholds, hnone⟩ := fat16LoadFatDirectory_boot brokenDisk_total hread (by rw [hblocks]; decide)
  rw [if_neg (by decide)] at hnone
  cases hholds with
  | live _ _ hsome =>
      rw [hnone] at hsome
      cases hsome
  | freed _ _ =>
      refine ⟨k', hrun, fun hsettles => ?_⟩
      rcases hsettles.result with hnull | hlive
      · cases hnull
      · exact hlive

/-- A directory of 16 entries in one cluster is loaded whole while the heap still has its boot pages. -/
theorem fat16LoadFatDirectory_settles_chain :
    ∃ ptr k', fat16LoadFatDirectory chainDisk smallFat chainItem bootKernel = .ok (ptr, k') ∧
      LoadSettles chainDisk smallFat chainItem ptr bootKernel k' := by
  have hterminated : Terminated chainDisk 5120 16 := ⟨by decide +kernel, by decide +kernel⟩
  have htotal : subdirectoryTotal chainDisk smallFat chainItem = some 16 := by
    rw [chainItem_total hterminated (by decide)]
    decide +kernel
  have hread := chainDisk_read 512 (by decide)
  have hblocks : itemBlocks chainDisk smallFat chainItem = 3 := by
    rw [itemBlocks_subdirectory (by decide) htotal]
    decide
  obtain ⟨ptr, k', hrun, _⟩ := fat16LoadFatDirectory_boot htotal hread (by rw [hblocks]; decide)
  have hentry : heapGetEntryType heapBlockTableEntryFree = heapBlockTableEntryFree := by decide
  have hfree : ∀ b, bootKernel.heap.table.Free b := fun _ => hentry
  have hroom : bootKernel.heap.RoomBehind 1 :=
    ⟨0, 1, ⟨by decide, fun j _ _ => hfree j, fun a ha => absurd ha (Nat.not_lt_zero a)⟩, by decide, by decide,
      fun j _ _ => hfree j⟩
  refine ⟨ptr, k', hrun, (fat16LoadFatDirectory_settles_iff bootKernel_clean hrun).mpr ?_⟩
  exact .loaded htotal (by decide) hroom ((@fat16ReadInternal_covers _ _ _ 512 _ (by decide) hread).mp rfl)

end BimbleOS
