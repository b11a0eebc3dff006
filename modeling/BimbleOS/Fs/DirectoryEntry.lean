import BimbleOS.Fs.DiskTree
import BimbleOS.Memory.HeapClient

/-!
# `Fs.DirectoryEntry` — walking a path

`fat16_get_directory_entry` looks up the first component in the root directory and each later one in the
directory that was found before it. It tests what the first search found and not what a later one found:
a component that is missing in the middle of a path makes it follow a null pointer. The walk returns
exactly when this does not happen and every directory on the way can be read, and it is right when the
slots that are searched lead where the entries on the disk lead (`fat16GetDirectoryEntry_iff`).
-/

namespace BimbleOS

open Bytes CWord Exec

/-! ## Looking up a path in what is loaded -/

/-- The item that the rest of a path leads to from an item. -/
def resolveFrom (disk : Disk) (fs : FatPrivate) :
    FatDirectoryItem → List (List (BitVec 8)) → Option FatDirectoryItem
  | item, [] => some item
  | item, name :: rest =>
      (subdirectory disk fs item).bind fun directory =>
        (directory.lookup name).bind fun next => resolveFrom disk fs next rest

/-- The item that a list of names leads to: every one exists, and every one but the last is a directory. -/
def resolve (disk : Disk) (volume : FatVolume) : List (List (BitVec 8)) → Option FatDirectoryItem
  | [] => none
  | name :: rest => (volume.rootDirectory.lookup name).bind fun item => resolveFrom disk volume.fs item rest

/-- The names of a path. -/
def pathNames (path : List PathPart) : List (List (BitVec 8)) := path.map PathPart.part

/-- A search result as it should be. -/
def Reaches (disk : Disk) (fs : FatPrivate) (entry : Option FatDirectoryItem) (r : Option FatItem) : Prop :=
  match entry with
  | none => r = none
  | some entry => ∃ item, r = some item ∧ Describes disk fs entry item

/-- `fat16_get_directory_entry` returns, with an item for the entry on the disk that the path leads to, or
    with 0 where there is none. -/
def EntryFound (disk : Disk) (volume : FatVolume) (path : List PathPart) (k : Kernel) : Prop :=
  ∃ r k', fat16GetDirectoryEntry disk volume path k = .ok (r, k') ∧
    Reaches disk volume.fs (resolveEntries disk volume.fs.header (pathNames path)) r

/-! ## When a walk is right -/

/-- A directory can be searched: its items are there, and every subdirectory with the name can be read. -/
def SearchOk (disk : Disk) (fs : FatPrivate) (directory : FatDirectory) (name : List (BitVec 8)) : Prop :=
  directory.total.toNat ≤ directory.item.length ∧
    ∀ item ∈ directory.matching name, item.isSubdirectory = true → readDirectory disk fs item ≠ none

/-- The condition for the rest of a walk to return, from an item that was found: the rest is empty, or the
    item is not a directory, or it is a directory that can be read and searched, and the next component is
    there unless it is the last one. -/
def WalkOk (disk : Disk) (fs : FatPrivate) : FatDirectoryItem → List PathPart → Prop
  | _, [] => True
  | item, part :: rest => item.isSubdirectory = false ∨
      ∃ directory, subdirectory disk fs item = some directory ∧ SearchOk disk fs directory part.part ∧
        (directory.lookup part.part = none → rest = []) ∧
        ∀ next, directory.lookup part.part = some next → WalkOk disk fs next rest

/-- The condition for a walk to return. The first component may be missing. -/
def Returns (disk : Disk) (volume : FatVolume) : List PathPart → Prop
  | [] => False
  | part :: rest => SearchOk disk volume.fs volume.rootDirectory part.part ∧
      ∀ item, volume.rootDirectory.lookup part.part = some item → WalkOk disk volume.fs item rest

/-- Two entries that an item cannot tell apart: the same file, or directories with the same contents. -/
def SameEntry (disk : Disk) (fs : FatPrivate) (found wanted : FatDirectoryItem) : Prop :=
  (found.isSubdirectory = false ∧ wanted = found) ∨
    ∃ content, subdirectory disk fs found = some content ∧ subdirectory disk fs wanted = some content

/-- The first slots of each directory, as many as it has entries, lead along a path to the entry that the
    entries on the disk lead to, or both lead to none. -/
def SameEnd (disk : Disk) (fs : FatPrivate) : Option FatDirectoryItem → Option FatDirectoryItem → Prop
  | none, none => True
  | some found, some wanted => SameEntry disk fs found wanted
  | _, _ => False

/-- The condition for a walk to be right. -/
structure EntryOk (disk : Disk) (volume : FatVolume) (path : List PathPart) : Prop where
  returns : Returns disk volume path
  same : SameEnd disk volume.fs (resolve disk volume (pathNames path))
    (resolveEntries disk volume.fs.header (pathNames path))

/-! ## Blocks -/

/-- The blocks that are taken for an item. -/
def itemBlocks (disk : Disk) (fs : FatPrivate) (item : FatDirectoryItem) : Nat :=
  if item.isSubdirectory then
    2 + (subdirectoryTotal disk fs item).elim 0 fun total => heapBlocks (u32 (directorySize total))
  else 2

/-- The blocks that are taken in a search. -/
def searchBlocks (disk : Disk) (fs : FatPrivate) (directory : FatDirectory) (name : List (BitVec 8)) : Nat :=
  ((directory.matching name).map (itemBlocks disk fs)).sum

/-- The blocks that are taken in the rest of a walk. -/
def walkBlocks (disk : Disk) (fs : FatPrivate) : FatDirectoryItem → List PathPart → Nat
  | _, [] => 0
  | item, part :: rest =>
      (subdirectory disk fs item).elim 0 fun directory => searchBlocks disk fs directory part.part +
        (directory.lookup part.part).elim 0 fun next => walkBlocks disk fs next rest

/-- The blocks that are taken in a walk. -/
def entryBlocks (disk : Disk) (volume : FatVolume) : List PathPart → Nat
  | [] => 0
  | part :: rest => searchBlocks disk volume.fs volume.rootDirectory part.part +
      (volume.rootDirectory.lookup part.part).elim 0 fun item => walkBlocks disk volume.fs item rest

theorem defined_total {α : Type} {P : Kernel → Prop} {x : Option α} {a : α} (h : x = some a) :
    Total P (defined x) fun b k => b = a ∧ P k := by
  subst h
  exact fun k hP => ⟨a, k, rfl, rfl, hP⟩

theorem defined_fails {α : Type} {P : Kernel → Prop} {x : Option α} (h : x = none) :
    Fails P (defined x) := by
  subst h
  exact Fails.throw

theorem readInternal_total {P : Kernel → Prop} {disk : Disk} {fs : FatPrivate} {cluster offset total : Int}
    {r : Int × List (BitVec 8)} (h : fat16ReadInternal disk fs cluster offset total = some r) :
    Total P (readInternal disk fs cluster offset total) fun q k => q = r ∧ P k :=
  fun k hP => ⟨r, k, readInternal_of_some h, rfl, hP⟩

theorem readInternal_fails {P : Kernel → Prop} {disk : Disk} {fs : FatPrivate} {cluster offset total : Int}
    (h : fat16ReadInternal disk fs cluster offset total = none) :
    Fails P (readInternal disk fs cluster offset total) := fun _ _ => readInternal_of_none h

/-! ## Sizes -/

/-- The disk can always be read. -/
theorem diskstreamerReadLoop_res {disk : Disk} {fuel : Nat} {pos total : Int} {r : StreamRead}
    (h : diskstreamerReadLoop disk fuel pos total = some r) : r.res = bimbleosAllOk := by
  induction fuel generalizing pos total r with
  | zero => cases h
  | succ fuel ih =>
      have hok : ¬ (diskReadBlock disk (pos.tdiv bimbleosSectorSize)).1 < 0 := Int.lt_irrefl 0
      unfold diskstreamerReadLoop at h
      obtain ⟨last, _, h⟩ := Option.bind_eq_some_iff.mp h
      simp only [hok, if_false] at h
      -- the rest of the sector and the sectors behind it, or a part of this one
      by_cases hover : (bimbleosSectorSize : Int) ≤ last
      · simp only [hover, decide_true, if_true] at h
        split at h
        · cases h
        · obtain ⟨pos', _, h⟩ := Option.bind_eq_some_iff.mp h
          obtain ⟨q, hq, rfl⟩ := Option.map_eq_some_iff.mp h
          have hres := ih hq
          exact hres
      · simp only [hover, decide_false, Bool.false_eq_true, if_false] at h
        split at h
        · cases h
        · obtain ⟨pos', _, h⟩ := Option.bind_eq_some_iff.mp h
          cases h
          rfl

/-- A counted number of items: the rounds of the loop bound it. -/
theorem fat16TotalItemsLoop_bound {disk : Disk} {fuel i : Nat} {pos total : Int}
    (h : fat16TotalItemsLoop disk fuel pos i = some total) : 0 ≤ total ∧ total ≤ i + fuel := by
  induction fuel generalizing pos i with
  | zero => cases h
  | succ fuel ih =>
      unfold fat16TotalItemsLoop at h
      obtain ⟨r, hr, h⟩ := Option.bind_eq_some_iff.mp h
      rw [if_neg (not_not_intro (diskstreamerReadLoop_res hr))] at h
      split at h
      · cases h
        omega
      · split at h
        · have hrest := ih h
          omega
        · have hrest := ih h
          omega

theorem fat16GetTotalItemsForDirectory_bound {disk : Disk} {sector : Nat} {total : Int}
    (h : fat16GetTotalItemsForDirectory disk sector = some total) : 0 ≤ total ∧ total ≤ 67108865 := by
  have hbound := @fat16TotalItemsLoop_bound disk 67108865 0 _ _ h
  simpa using hbound

/-- The array of a subdirectory is a size that the heap can round up. -/
theorem directorySize_le {disk : Disk} {fs : FatPrivate} {item : FatDirectoryItem} {total : Int}
    (h : subdirectoryTotal disk fs item = some total) : u32 (directorySize total) ≤ 0xFFFFF000 := by
  obtain ⟨sector, _, hcount⟩ := Option.bind_eq_some_iff.mp h
  obtain ⟨hlo, hhi⟩ := fat16GetTotalItemsForDirectory_bound hcount
  unfold directorySize sizeofFatDirectoryItem u32 s32
  omega

/-! ## One item -/

/-- The body of an item that was made for an entry, in a heap with room. -/
inductive Holds (disk : Disk) (fs : FatPrivate) (entry : FatDirectoryItem) : FatItemBody → Prop where
  | file {copy : Nat} : entry.isSubdirectory = false → copy ≠ 0 → Holds disk fs entry (.file copy entry)
  | live {addr items : Nat} {content : FatDirectory} : entry.isSubdirectory = true → addr ≠ 0 →
      subdirectory disk fs entry = some content →
      Holds disk fs entry (.directory (.live addr items content))
  | freed : entry.isSubdirectory = true → subdirectory disk fs entry = none →
      Holds disk fs entry (.directory .freed)

/-- The result of making an item, or of a search that ends with making one. -/
def Made (disk : Disk) (fs : FatPrivate) (entry : FatDirectoryItem) (r : Option FatItem) : Prop :=
  ∃ item, r = some item ∧ Holds disk fs entry item.body

/-- The result of a search. -/
def Searched (disk : Disk) (fs : FatPrivate) (entry : Option FatDirectoryItem) (r : Option FatItem) : Prop :=
  match entry with
  | none => r = none
  | some entry => Made disk fs entry r

/-- An item that was made for one entry describes another one that it cannot tell from it. -/
theorem Holds.describes_iff {disk : Disk} {fs : FatPrivate} {found wanted : FatDirectoryItem} {item : FatItem}
    (h : Holds disk fs found item.body) : Describes disk fs wanted item ↔ SameEntry disk fs found wanted := by
  obtain ⟨addr, body⟩ := item
  cases h with
  | file hfile hcopy =>
      have hnone : subdirectory disk fs found = none := by
        unfold subdirectory
        rw [hfile, if_neg Bool.false_ne_true]
      constructor
      · intro hdescribes
        cases hdescribes
        exact Or.inl ⟨hfile, rfl⟩
      · rintro (⟨_, rfl⟩ | ⟨content, hcontent, _⟩)
        · exact .file hfile hcopy
        · cases hnone.symm.trans hcontent
  | live hsub haddr hcontent =>
      constructor
      · intro hdescribes
        cases hdescribes with
        | directory _ hwanted => exact Or.inr ⟨_, hcontent, hwanted⟩
      · rintro (⟨hfile, _⟩ | ⟨content, hfound, hwanted⟩)
        · exact absurd (hsub.symm.trans hfile) Bool.false_ne_true.symm
        · cases hcontent.symm.trans hfound
          exact .directory haddr hwanted
  | freed hsub hnone =>
      constructor
      · intro hdescribes
        cases hdescribes
      · rintro (⟨hfile, _⟩ | ⟨content, hfound, _⟩)
        · exact absurd (hsub.symm.trans hfile) Bool.false_ne_true.symm
        · cases hnone.symm.trans hfound

/-- A result is right when the search ends where it should. -/
theorem Searched.reaches_iff {disk : Disk} {fs : FatPrivate} {found wanted : Option FatDirectoryItem}
    {r : Option FatItem} (h : Searched disk fs found r) :
    Reaches disk fs wanted r ↔ SameEnd disk fs found wanted := by
  cases found with
  | none =>
      cases h
      cases wanted with
      | none => exact iff_of_true rfl True.intro
      | some wanted =>
          refine iff_of_false ?_ id
          rintro ⟨item, hitem, _⟩
          cases hitem
  | some found =>
      obtain ⟨item, rfl, hholds⟩ := h
      cases wanted with
      | none => exact iff_of_false (Option.some_ne_none item) id
      | some wanted =>
          constructor
          · rintro ⟨item', hitem, hdescribes⟩
            cases hitem
            exact hholds.describes_iff.mp hdescribes
          · exact fun hsame => ⟨item, rfl, hholds.describes_iff.mpr hsame⟩

section Items

variable {disk : Disk} {fs : FatPrivate} {entry : FatDirectoryItem} {n : Nat}

/-- The blocks of a subdirectory, but for the one of the item itself. -/
theorem itemBlocks_subdirectory {total : Int} (hsub : entry.isSubdirectory = true)
    (htotal : subdirectoryTotal disk fs entry = some total) :
    itemBlocks disk fs entry = heapBlocks (u32 (directorySize total)) + 1 + 1 := by
  unfold itemBlocks
  rw [if_pos hsub, htotal, Option.elim_some]
  generalize heapBlocks (u32 (directorySize total)) = b
  omega

theorem fat16FreeDirectory_tail {addr items : Nat} {content : FatDirectory} :
    Total (fun k => k.heap.TailRoom n) (fat16FreeDirectory (.live addr items content))
      fun _ k => k.heap.TailRoom n := by
  unfold fat16FreeDirectory
  exact Total.ite (fun _ => kfree_tail.bind fun _ => kfree_tail) fun _ => kfree_tail

/-- Loading a subdirectory, in a heap with room, follows what the disk holds. -/
theorem fat16LoadFatDirectory_total {res : Int} {content : FatDirectory} (hsub : entry.isSubdirectory = true)
    (hread : readDirectory disk fs entry = some (res, content)) :
    Total (fun k => k.heap.TailRoom (n + itemBlocks disk fs entry - 1)) (fat16LoadFatDirectory disk fs entry)
      fun ptr k => Holds disk fs entry (.directory ptr) ∧ k.heap.TailRoom n := by
  obtain ⟨total, htotal, hrest⟩ := Option.bind_eq_some_iff.mp hread
  obtain ⟨⟨res', bytes⟩, hbytes, heq⟩ := Option.map_eq_some_iff.mp hrest
  cases heq
  obtain ⟨sector, hsector, hcount⟩ := Option.bind_eq_some_iff.mp htotal
  have hsize := directorySize_le htotal
  have hblocks : n + itemBlocks disk fs entry - 1 = n + heapBlocks (u32 (directorySize total)) + 1 := by
    rw [itemBlocks_subdirectory hsub htotal]
    generalize heapBlocks (u32 (directorySize total)) = b
    omega
  rw [hblocks]
  unfold fat16LoadFatDirectory
  refine Total.ite (fun hno => ?_) fun _ => ?_
  · rw [hsub] at hno
    exact absurd hno Bool.false_ne_true
  refine (kzalloc_small (by decide) (by decide)).bind fun directory => Total.const fun hdirectory => ?_
  refine Total.ite (fun hzero => absurd hzero hdirectory) fun _ => ?_
  refine (defined_total hsector).bind fun sector' => Total.const fun hsector' => ?_
  subst hsector'
  refine (defined_total hcount).bind fun total' => Total.const fun htotal' => ?_
  subst htotal'
  -- an array of no bytes takes no block
  refine Total.bind ((kzalloc_tail hsize).consequence (fun k h => ⟨h.1, fun _ => h.2⟩) fun _ _ h => h)
    fun items => Total.const fun hitems => ?_
  refine Total.ite (fun hzero => absurd hzero hitems) fun _ => ?_
  refine (readInternal_total hbytes).bind fun r => Total.const fun hr => ?_
  subst hr
  refine Total.ite (fun hres => ?_) fun hres => ?_
  · -- the read failed: both are freed again
    refine (fat16FreeDirectory_tail.consequence (fun _ h => h.1) fun _ _ h => h).bind fun _ => ?_
    refine Total.pure fun k h => ⟨.freed hsub ?_, h⟩
    unfold subdirectory
    rw [if_pos hsub, hread, Option.bind_some, if_neg hres]
  · refine Total.pure fun k h => ⟨.live hsub hdirectory ?_, h.1⟩
    unfold subdirectory
    rw [if_pos hsub, hread, Option.bind_some, if_pos (not_not.mp hres)]

/-- Loading a subdirectory that cannot be read: the number of its items, or their bytes, are undefined. -/
theorem fat16LoadFatDirectory_fails (hsub : entry.isSubdirectory = true)
    (hread : readDirectory disk fs entry = none) :
    Fails (fun k => k.heap.TailRoom (n + itemBlocks disk fs entry - 1))
      (fat16LoadFatDirectory disk fs entry) := by
  have hgo : ¬ (!entry.isSubdirectory) = true := by
    rw [hsub]
    exact Bool.false_ne_true
  unfold fat16LoadFatDirectory
  refine Fails.ite (fun hno => absurd hno hgo) fun _ => ?_
  -- the count is undefined, or the read is
  rcases htotal : subdirectoryTotal disk fs entry with _ | total
  · have hroom : ∀ k : Kernel, k.heap.TailRoom (n + itemBlocks disk fs entry - 1) → k.heap.TailRoom (n + 1) := by
      intro k h
      unfold itemBlocks at h
      rw [if_pos hsub, htotal] at h
      exact h
    refine Fails.bind ((kzalloc_small (by decide) (by decide)).consequence hroom fun _ _ h => h)
      fun directory => Fails.const fun hdirectory => ?_
    refine Fails.ite (fun hzero => absurd hzero hdirectory) fun _ => ?_
    rcases hsector : fat16ClusterToSector fs (fat16GetFirstCluster entry) with _ | sector
    · exact (defined_fails hsector).first
    · refine Fails.bind (defined_total hsector) fun sector' => Fails.const fun hsector' => ?_
      subst hsector'
      unfold subdirectoryTotal at htotal
      rw [hsector, Option.bind_some] at htotal
      exact (defined_fails htotal).first
  · obtain ⟨sector, hsector, hcount⟩ := Option.bind_eq_some_iff.mp htotal
    have hsize := directorySize_le htotal
    have hblocks : n + itemBlocks disk fs entry - 1 = n + heapBlocks (u32 (directorySize total)) + 1 := by
      rw [itemBlocks_subdirectory hsub htotal]
      generalize heapBlocks (u32 (directorySize total)) = b
      omega
    have hbytes : fat16ReadInternal disk fs (fat16GetFirstCluster entry) 0 (directorySize total) = none := by
      unfold readDirectory at hread
      rw [htotal, Option.bind_some] at hread
      exact Option.map_eq_none_iff.mp hread
    rw [hblocks]
    refine Fails.bind (kzalloc_small (by decide) (by decide)) fun directory => Fails.const fun hdirectory => ?_
    refine Fails.ite (fun hzero => absurd hzero hdirectory) fun _ => ?_
    refine Fails.bind (defined_total hsector) fun sector' => Fails.const fun hsector' => ?_
    subst hsector'
    refine Fails.bind (defined_total hcount) fun total' => Fails.const fun htotal' => ?_
    subst htotal'
    refine Fails.bind ((kzalloc_tail hsize).consequence (fun k h => ⟨h.1, fun _ => h.2⟩) fun _ _ h => h)
      fun items => Fails.const fun hitems => ?_
    refine Fails.ite (fun hzero => absurd hzero hitems) fun _ => ?_
    exact (readInternal_fails hbytes).first

/-- The blocks of an item: its own, and those of its body. -/
theorem itemBlocks_pos : n + itemBlocks disk fs entry = n + itemBlocks disk fs entry - 1 + 1 := by
  unfold itemBlocks
  split
  · omega
  · rfl

/-- Making an item of an entry that can be read. -/
theorem fat16NewFatItemForDirectoryItem_total
    (hread : entry.isSubdirectory = true → readDirectory disk fs entry ≠ none) :
    Total (fun k => k.heap.TailRoom (n + itemBlocks disk fs entry))
      (fat16NewFatItemForDirectoryItem disk fs entry)
      fun r k => Made disk fs entry r ∧ k.heap.TailRoom n := by
  rw [itemBlocks_pos]
  unfold fat16NewFatItemForDirectoryItem
  refine (kzalloc_small (by decide) (by decide)).bind fun fItem => Total.const fun hItem => ?_
  refine Total.ite (fun hzero => absurd hzero hItem) fun _ => Total.ite (fun hsub => ?_) fun hfile => ?_
  · obtain ⟨⟨res, content⟩, hcontent⟩ := Option.ne_none_iff_exists'.mp (hread hsub)
    refine Total.bind ((fat16LoadFatDirectory_total hsub hcontent).consequence (fun k h => h.1)
      fun _ _ h => h) fun ptr => Total.pure fun k h => ⟨⟨_, rfl, h.1⟩, h.2⟩
  · have hblocks : n + itemBlocks disk fs entry - 1 = n + 1 := by
      unfold itemBlocks
      rw [if_neg hfile]
      rfl
    rw [hblocks]
    refine Total.bind ((kzalloc_small (by decide) (by decide)).consequence (fun k h => h.1)
      fun _ _ h => h) fun copy => Total.pure fun k h => ⟨⟨_, rfl, ?_⟩, h.2.1⟩
    exact .file (Bool.eq_false_iff.mpr hfile) h.1

theorem fat16NewFatItemForDirectoryItem_fails (hsub : entry.isSubdirectory = true)
    (hread : readDirectory disk fs entry = none) :
    Fails (fun k => k.heap.TailRoom (n + itemBlocks disk fs entry))
      (fat16NewFatItemForDirectoryItem disk fs entry) := by
  rw [itemBlocks_pos]
  unfold fat16NewFatItemForDirectoryItem
  refine Fails.bind (kzalloc_small (by decide) (by decide)) fun fItem => Fails.const fun hItem => ?_
  refine Fails.ite (fun hzero => absurd hzero hItem) fun _ => Fails.ite (fun _ => ?_) fun hno => absurd hsub hno
  exact ((fat16LoadFatDirectory_fails hsub hread).pre fun _ h => h.1).first

end Items

/-! ## A search -/

section Search

variable {disk : Disk} {fs : FatPrivate} {directory : FatDirectory} {name : List (BitVec 8)} {n : Nat}

/-- Making an item of each entry of a list, and keeping the last one. -/
def makeItems (disk : Disk) (fs : FatPrivate) (entries : List FatDirectoryItem) (fItem : Option FatItem) :
    KM (Option FatItem) :=
  entries.foldlM (fun _ entry => fat16NewFatItemForDirectoryItem disk fs entry) fItem

/-- The loop of the search makes an item of each entry with the name. The induction is on the items left. -/
theorem fat16FindLoop_eq {left i : Nat} {fItem : Option FatItem} (hle : i + left ≤ directory.item.length) :
    fat16FindLoop disk fs directory name left i fItem
      = makeItems disk fs (((directory.item.drop i).take left).filter fun item => sameName item name) fItem := by
  induction left generalizing i fItem with
  | zero =>
      rw [List.take_zero]
      rfl
  | succ left ih =>
      have hi : i < directory.item.length := by omega
      rw [fat16FindLoop, List.getElem?_eq_getElem hi, List.drop_eq_getElem_cons hi, List.take_succ_cons,
        List.filter_cons]
      generalize directory.item[i] = item
      by_cases hname : sameName item name = true
      · simp only [hname, if_true]
        unfold makeItems
        rw [List.foldlM_cons]
        refine bind_congr fun found => ?_
        exact ih (by omega)
      · simp only [hname]
        exact ih (by omega)

/-- A search that returns has not left the item array. -/
theorem fat16FindLoop_inside {left i : Nat} {fItem r : Option FatItem} {k k' : Kernel}
    (hrun : fat16FindLoop disk fs directory name left i fItem k = .ok (r, k')) (hleft : 0 < left) :
    i + left ≤ directory.item.length := by
  induction left generalizing i fItem k with
  | zero => exact absurd hleft (Nat.lt_irrefl 0)
  | succ left ih =>
      rw [fat16FindLoop] at hrun
      cases hitem : directory.item[i]? with
      | none =>
          rw [hitem] at hrun
          cases hrun
      | some item =>
          rw [hitem] at hrun
          have hi : i < directory.item.length := (List.getElem?_eq_some_iff.mp hitem).1
          have hrest : ∀ {f k₁}, fat16FindLoop disk fs directory name left (i + 1) f k₁ = .ok (r, k') →
              i + (left + 1) ≤ directory.item.length := by
            intro f k₁ hloop
            rcases Nat.eq_zero_or_pos left with rfl | hpos
            · exact hi
            · have hle := ih hloop hpos
              omega
          by_cases hname : sameName item name = true
          · simp only [hname, if_true] at hrun
            obtain ⟨found, k₁, _, hloop⟩ := bind_eq_ok.mp hrun
            exact hrest hloop
          · simp only [hname] at hrun
            exact hrest hrun

/-- The items made of entries that can all be read: the last one counts. The induction is on the entries. -/
theorem makeItems_total {entries : List FatDirectoryItem} {fItem : Option FatItem}
    (hread : ∀ entry ∈ entries, entry.isSubdirectory = true → readDirectory disk fs entry ≠ none) :
    Total (fun k => k.heap.TailRoom (n + (entries.map (itemBlocks disk fs)).sum)) (makeItems disk fs entries fItem)
      fun r k => ((entries = [] → r = fItem) ∧
        ∀ entry, entries.getLast? = some entry → Made disk fs entry r) ∧ k.heap.TailRoom n := by
  induction entries generalizing fItem with
  | nil => exact Total.pure fun k h => ⟨⟨fun _ => rfl, fun entry hnone => by cases hnone⟩, h⟩
  | cons entry entries ih =>
      have hfirst := hread entry List.mem_cons_self
      have hrest := fun e he => hread e (List.mem_cons_of_mem entry he)
      have hblocks : n + ((entry :: entries).map (itemBlocks disk fs)).sum
          = n + (entries.map (itemBlocks disk fs)).sum + itemBlocks disk fs entry := by
        rw [List.map_cons, List.sum_cons]
        omega
      rw [hblocks]
      unfold makeItems
      rw [List.foldlM_cons]
      refine (fat16NewFatItemForDirectoryItem_total hfirst).bind fun r => Total.const fun hmade => ?_
      refine (ih hrest).consequence (fun k h => h) fun r' k h => ⟨⟨fun hnil => ?_, fun e hlast => ?_⟩, h.2⟩
      · cases hnil
      · cases entries with
        | nil =>
            cases hlast
            rw [h.1.1 rfl]
            exact hmade
        | cons e' entries => exact h.1.2 e hlast

/-- An entry that cannot be read stops the search. -/
theorem makeItems_fails {entries : List FatDirectoryItem} {fItem : Option FatItem}
    (hread : ∃ entry ∈ entries, entry.isSubdirectory = true ∧ readDirectory disk fs entry = none) :
    Fails (fun k => k.heap.TailRoom (n + (entries.map (itemBlocks disk fs)).sum))
      (makeItems disk fs entries fItem) := by
  induction entries generalizing fItem with
  | nil =>
      obtain ⟨entry, hmem, _⟩ := hread
      exact absurd hmem List.not_mem_nil
  | cons entry entries ih =>
      have hblocks : n + ((entry :: entries).map (itemBlocks disk fs)).sum
          = n + (entries.map (itemBlocks disk fs)).sum + itemBlocks disk fs entry := by
        rw [List.map_cons, List.sum_cons]
        omega
      rw [hblocks]
      unfold makeItems
      rw [List.foldlM_cons]
      by_cases hentry : entry.isSubdirectory = true ∧ readDirectory disk fs entry = none
      · exact (fat16NewFatItemForDirectoryItem_fails hentry.1 hentry.2).first
      · refine Fails.bind (fat16NewFatItemForDirectoryItem_total fun hsub hnone => hentry ⟨hsub, hnone⟩)
          fun r => Fails.const fun _ => ?_
        obtain ⟨e, hmem, hbad⟩ := hread
        rcases List.mem_cons.mp hmem with rfl | hmem
        · exact absurd hbad hentry
        · exact ih ⟨e, hmem, hbad⟩

/-- **A search** in a directory that can be searched. -/
theorem fat16FindItemInDirectory_total (hok : SearchOk disk fs directory name) :
    Total (fun k => k.heap.TailRoom (n + searchBlocks disk fs directory name))
      (fat16FindItemInDirectory disk fs directory name)
      fun r k => Searched disk fs (directory.lookup name) r ∧ k.heap.TailRoom n := by
  obtain ⟨hle, hread⟩ := hok
  unfold fat16FindItemInDirectory
  rw [fat16FindLoop_eq (by omega), List.drop_zero]
  refine (makeItems_total hread).consequence (fun _ h => h) fun r k h => ⟨?_, h.2⟩
  unfold Searched
  cases hlast : directory.lookup name with
  | none => exact h.1.1 (List.getLast?_eq_none_iff.mp hlast)
  | some entry => exact h.1.2 entry hlast

theorem fat16FindItemInDirectory_fails (hbad : ¬ SearchOk disk fs directory name) :
    Fails (fun k => k.heap.TailRoom (n + searchBlocks disk fs directory name))
      (fat16FindItemInDirectory disk fs directory name) := by
  by_cases hle : directory.total.toNat ≤ directory.item.length
  · unfold fat16FindItemInDirectory
    rw [fat16FindLoop_eq (by omega), List.drop_zero]
    refine makeItems_fails ?_
    by_contra hnone
    refine hbad ⟨hle, fun entry hmem hsub hentry => hnone ⟨entry, hmem, hsub, hentry⟩⟩
  · intro k _
    rcases hrun : fat16FindItemInDirectory disk fs directory name k with e | ⟨r, k'⟩
    · exact ⟨e, rfl⟩
    · have hinside := fat16FindLoop_inside hrun (by omega)
      omega

end Search

/-! ## The walk -/

section Walk

variable {disk : Disk} {fs : FatPrivate} {entry : FatDirectoryItem} {item : FatItem} {path : List PathPart}
  {n : Nat}

theorem fat16FatItemFree_tail {addr directory items : Nat} {content : FatDirectory} :
    Total (fun k => k.heap.TailRoom n)
      (fat16FatItemFree { addr := addr, body := .directory (.live directory items content) })
      fun _ k => k.heap.TailRoom n :=
  fat16FreeDirectory_tail.bind fun _ => kfree_tail

/-- The rest of a walk from an item that was found. The induction is on the path, along the loop. -/
theorem fat16EntryLoop_total (hmade : Made disk fs entry (some item)) (hok : WalkOk disk fs entry path) :
    Total (fun k => k.heap.TailRoom (n + walkBlocks disk fs entry path)) (fat16EntryLoop disk fs item path)
      fun r k => Searched disk fs (resolveFrom disk fs entry (pathNames path)) r ∧ k.heap.TailRoom n := by
  induction path generalizing entry item with
  | nil => exact Total.pure fun k h => ⟨hmade, h⟩
  | cons part rest ih =>
      obtain ⟨item', hitem, hholds⟩ := hmade
      cases hitem
      obtain ⟨addr, body⟩ := item
      cases hholds with
      | file hfile =>
          have hnone : subdirectory disk fs entry = none := by
            unfold subdirectory
            rw [hfile, if_neg Bool.false_ne_true]
          rw [pathNames, List.map_cons, resolveFrom, walkBlocks, hnone]
          exact Total.pure fun k h => ⟨rfl, h⟩
      | freed hsub hnone =>
          rcases hok with hfile | ⟨directory, hdirectory, _⟩
          · exact absurd (hsub.symm.trans hfile) Bool.false_ne_true.symm
          · cases hnone.symm.trans hdirectory
      | @live directory items content hsub _ hcontent =>
          rcases hok with hfile | ⟨content', hcontent', hsearch, hmissing, hnext⟩
          · exact absurd (hsub.symm.trans hfile) Bool.false_ne_true.symm
          cases hcontent.symm.trans hcontent'
          have hblocks : n + walkBlocks disk fs entry (part :: rest)
              = n + (content.lookup part.part).elim 0 (fun next => walkBlocks disk fs next rest)
                + searchBlocks disk fs content part.part := by
            rw [walkBlocks, hcontent, Option.elim_some]
            omega
          rw [hblocks, pathNames, List.map_cons, resolveFrom, hcontent, Option.bind_some]
          refine (fat16FindItemInDirectory_total hsearch).bind fun tmpItem => Total.const fun hsearched => ?_
          refine fat16FatItemFree_tail.bind fun _ => ?_
          cases hlookup : content.lookup part.part with
          | none =>
              rw [hlookup] at hsearched
              cases hsearched
              exact Total.ite (fun _ => Total.pure fun k h => ⟨rfl, h⟩) fun hrest => absurd (hmissing hlookup) hrest
          | some next =>
              rw [hlookup] at hsearched
              obtain ⟨item', rfl, _⟩ := id hsearched
              exact ih hsearched (hnext next hlookup)

/-- Where the condition fails, the rest of a walk does not return. -/
theorem fat16EntryLoop_fails (hmade : Made disk fs entry (some item)) (hbad : ¬ WalkOk disk fs entry path) :
    Fails (fun k => k.heap.TailRoom (n + walkBlocks disk fs entry path)) (fat16EntryLoop disk fs item path) := by
  induction path generalizing entry item with
  | nil => exact absurd True.intro hbad
  | cons part rest ih =>
      obtain ⟨item', hitem, hholds⟩ := hmade
      cases hitem
      obtain ⟨addr, body⟩ := item
      cases hholds with
      | file hfile => exact absurd (Or.inl hfile) hbad
      | freed hsub hnone => exact Fails.throw
      | @live directory items content hsub _ hcontent =>
          have hblocks : n + walkBlocks disk fs entry (part :: rest)
              = n + (content.lookup part.part).elim 0 (fun next => walkBlocks disk fs next rest)
                + searchBlocks disk fs content part.part := by
            rw [walkBlocks, hcontent, Option.elim_some]
            omega
          rw [hblocks]
          by_cases hsearch : SearchOk disk fs content part.part
          · refine Fails.bind (fat16FindItemInDirectory_total hsearch) fun tmpItem => Fails.const fun hsearched => ?_
            refine Fails.bind fat16FatItemFree_tail fun _ => ?_
            cases hlookup : content.lookup part.part with
            | none =>
                rw [hlookup] at hsearched
                cases hsearched
                refine Fails.ite (fun hrest => absurd ?_ hbad) fun _ => Fails.throw
                refine Or.inr ⟨content, hcontent, hsearch, fun _ => hrest, fun next hnext => ?_⟩
                cases hlookup.symm.trans hnext
            | some next =>
                rw [hlookup] at hsearched
                obtain ⟨item', rfl, _⟩ := id hsearched
                refine ih hsearched fun hok => hbad (Or.inr ⟨content, hcontent, hsearch, fun hnone => ?_, ?_⟩)
                · cases hlookup.symm.trans hnone
                · intro next' hnext'
                  cases hlookup.symm.trans hnext'
                  exact hok
          · exact (fat16FindItemInDirectory_fails hsearch).first

end Walk

section Entry

variable {disk : Disk} {volume : FatVolume} {path : List PathPart} {k : Kernel}

theorem fat16GetDirectoryEntry_cons {part : PathPart} {rest : List PathPart} :
    fat16GetDirectoryEntry disk volume (part :: rest)
      = fat16FindItemInDirectory disk volume.fs volume.rootDirectory part.part >>= fun rootItem =>
          match rootItem with
          | none => return none
          | some item => fat16EntryLoop disk volume.fs item rest := rfl

/-- A walk whose condition holds returns an item for what the slots lead to. -/
theorem fat16GetDirectoryEntry_returns (hok : Returns disk volume path)
    (hroom : k.heap.TailRoom (entryBlocks disk volume path)) :
    ∃ r k', fat16GetDirectoryEntry disk volume path k = .ok (r, k') ∧
      Searched disk volume.fs (resolve disk volume (pathNames path)) r := by
  cases path with
  | nil => exact hok.elim
  | cons part rest =>
      obtain ⟨hsearch, hwalk⟩ := hok
      rw [entryBlocks, Nat.add_comm] at hroom
      obtain ⟨rootItem, k₁, hrun, hsearched, hroom₁⟩ := fat16FindItemInDirectory_total hsearch k hroom
      have hresolve : resolve disk volume (pathNames (part :: rest)) = (volume.rootDirectory.lookup part.part).bind
          fun item => resolveFrom disk volume.fs item (pathNames rest) := rfl
      rw [hresolve, fat16GetDirectoryEntry_cons, bind_of_ok hrun]
      cases hlookup : volume.rootDirectory.lookup part.part with
      | none =>
          rw [hlookup] at hsearched
          cases hsearched
          exact ⟨none, k₁, rfl, rfl⟩
      | some entry =>
          rw [hlookup] at hsearched hroom₁
          obtain ⟨item, rfl, _⟩ := id hsearched
          rw [Option.elim_some, ← Nat.zero_add (walkBlocks _ _ _ _)] at hroom₁
          obtain ⟨r, k₂, hloop, hends, _⟩ := fat16EntryLoop_total hsearched (hwalk entry hlookup) k₁ hroom₁
          exact ⟨r, k₂, hloop, hends⟩

/-- A walk whose condition does not hold stops. -/
theorem fat16GetDirectoryEntry_fails (hbad : ¬ Returns disk volume path)
    (hroom : k.heap.TailRoom (entryBlocks disk volume path)) :
    ∃ e, fat16GetDirectoryEntry disk volume path k = .error e := by
  cases path with
  | nil => exact ⟨.nullPointer, rfl⟩
  | cons part rest =>
      rw [entryBlocks, Nat.add_comm] at hroom
      rw [fat16GetDirectoryEntry_cons]
      by_cases hsearch : SearchOk disk volume.fs volume.rootDirectory part.part
      · obtain ⟨rootItem, k₁, hrun, hsearched, hroom₁⟩ := fat16FindItemInDirectory_total hsearch k hroom
        rw [bind_of_ok hrun]
        cases hlookup : volume.rootDirectory.lookup part.part with
        | none =>
            refine absurd ⟨hsearch, fun entry hentry => ?_⟩ hbad
            cases hlookup.symm.trans hentry
        | some entry =>
            rw [hlookup] at hsearched hroom₁
            obtain ⟨item, rfl, _⟩ := id hsearched
            rw [Option.elim_some, ← Nat.zero_add (walkBlocks _ _ _ _)] at hroom₁
            refine fat16EntryLoop_fails hsearched (fun hwalk => hbad ⟨hsearch, fun next hnext => ?_⟩) k₁ hroom₁
            cases hlookup.symm.trans hnext
            exact hwalk
      · exact (fat16FindItemInDirectory_fails hsearch).first k hroom

end Entry

/-! ## What a walk has found -/

section Found

variable {disk : Disk} {fs : FatPrivate} {entry : FatDirectoryItem} {item : FatItem} {k k' : Kernel}

/-- The last entry is the one that counts, however the heap answered before. -/
theorem makeItems_run {entries : List FatDirectoryItem} {fItem : Option FatItem}
    (hrun : makeItems disk fs entries fItem k = .ok (some item, k')) :
    (entries = [] ∧ fItem = some item) ∨
      ∃ entry, entries.getLast? = some entry ∧ MadeOf disk fs entry item := by
  induction entries generalizing fItem k with
  | nil =>
      cases hrun
      exact Or.inl ⟨rfl, rfl⟩
  | cons entry entries ih =>
      unfold makeItems at hrun
      rw [List.foldlM_cons] at hrun
      obtain ⟨found, k₁, hnew, hrest⟩ := bind_eq_ok.mp hrun
      rcases ih hrest with ⟨rfl, rfl⟩ | ⟨last, hlast, hmade⟩
      · exact Or.inr ⟨entry, rfl, (fat16NewFatItemForDirectoryItem_run hnew).made item rfl⟩
      · refine Or.inr ⟨last, ?_, hmade⟩
        cases entries with
        | nil => cases hlast
        | cons e entries => exact hlast

theorem fat16FindItemInDirectory_run {directory : FatDirectory} {name : List (BitVec 8)}
    (hrun : fat16FindItemInDirectory disk fs directory name k = .ok (some item, k')) :
    ∃ entry, directory.lookup name = some entry ∧ MadeOf disk fs entry item := by
  have hle : directory.total.toNat ≤ directory.item.length := by
    rcases Nat.eq_zero_or_pos directory.total.toNat with hzero | hpos
    · omega
    · have hinside := fat16FindLoop_inside hrun hpos
      omega
  unfold fat16FindItemInDirectory at hrun
  rw [fat16FindLoop_eq (by omega), List.drop_zero] at hrun
  rcases makeItems_run hrun with ⟨_, hnone⟩ | hfound
  · cases hnone
  · exact hfound

theorem subdirectory_of_live {dir items : Nat} {content : FatDirectory} (hsub : entry.isSubdirectory = true)
    (hload : fat16LoadFatDirectory disk fs entry k = .ok (.live dir items content, k')) :
    subdirectory disk fs entry = some content := by
  obtain ⟨sector, total, bytes, hsector, htotal, hread, rfl⟩ := fat16LoadFatDirectory_live hload
  have hcount : subdirectoryTotal disk fs entry = some total := by
    unfold subdirectoryTotal
    rw [hsector, Option.bind_some]
    exact htotal
  unfold subdirectory readDirectory
  rw [if_pos hsub, hcount, Option.bind_some]
  show Option.bind (Option.map _ (fat16ReadInternal disk fs (fat16GetFirstCluster entry) 0
    (s32 (u32 (total * sizeofFatDirectoryItem))))) _ = _
  rw [hread]
  rfl

theorem fat16EntryLoop_run {path : List PathPart} {current : FatItem} (hcurrent : MadeOf disk fs entry current)
    (hrun : fat16EntryLoop disk fs current path k = .ok (some item, k')) :
    ∃ last, resolveFrom disk fs entry (pathNames path) = some last ∧ MadeOf disk fs last item := by
  induction path generalizing entry current k with
  | nil =>
      cases hrun
      exact ⟨entry, rfl, hcurrent⟩
  | cons part rest ih =>
      cases hcurrent with
      | file => cases hrun
      | @directory addr ptr k₀ k₀' hsub hload =>
          cases ptr with
          | null => cases hrun
          | freed => cases hrun
          | live dir items content =>
              obtain ⟨tmpItem, k₁, hfind, hrest⟩ := bind_eq_ok.mp hrun
              obtain ⟨_, k₂, _, hnext⟩ := bind_eq_ok.mp hrest
              cases tmpItem with
              | none =>
                  change (if rest = [] then pure none else throw Fault.nullPointer : KM (Option FatItem)) k₂ = _ at hnext
                  split at hnext
                  · cases hnext
                  · cases hnext
              | some next =>
                  obtain ⟨found, hlookup, hmade⟩ := fat16FindItemInDirectory_run hfind
                  obtain ⟨last, hlast, hitem⟩ := ih hmade hnext
                  refine ⟨last, ?_, hitem⟩
                  rw [pathNames, List.map_cons, resolveFrom, subdirectory_of_live hsub hload, Option.bind_some,
                    hlookup, Option.bind_some]
                  exact hlast

/-- **An item that was found** is the one the path leads to. -/
theorem fat16GetDirectoryEntry_run {volume : FatVolume} {path : List PathPart}
    (hrun : fat16GetDirectoryEntry disk volume path k = .ok (some item, k')) :
    ∃ entry, resolve disk volume (pathNames path) = some entry ∧ MadeOf disk volume.fs entry item := by
  cases path with
  | nil => cases hrun
  | cons part rest =>
      rw [fat16GetDirectoryEntry_cons] at hrun
      obtain ⟨rootItem, k₁, hfind, hrest⟩ := bind_eq_ok.mp hrun
      cases rootItem with
      | none => cases hrest
      | some current =>
          obtain ⟨entry, hlookup, hmade⟩ := fat16FindItemInDirectory_run hfind
          obtain ⟨last, hlast, hitem⟩ := fat16EntryLoop_run hmade hrest
          refine ⟨last, ?_, hitem⟩
          rw [pathNames, List.map_cons, resolve, hlookup, Option.bind_some]
          exact hlast

end Found

/-! ## A component that is missing in the middle -/

/-- An empty disk. -/
def emptyDisk : Disk where
  sector := fun _ _ => 0

/-- A disk with its table in sector 1, where cluster 2 ends a chain, and its root directory in sector 2,
    which holds the directory `D` in cluster 2; `D` itself is empty. -/
def treeDisk : Disk where
  sector := fun lba i =>
    if lba = 1 then if i = 4 ∨ i = 5 then 0xFF else 0
    else if lba = 2 then
      if i = 0 then 0x44 else if i ≤ 10 then 0x20 else if i = 11 then 0x10 else if i = 26 then 2 else 0
    else 0

def itemD : FatDirectoryItem where
  filename := [0x44, 0x20, 0x20, 0x20, 0x20, 0x20, 0x20, 0x20]
  ext := [0x20, 0x20, 0x20]
  attr := 0x10
  high16BitsFirstCluster := 0
  low16BitsFirstCluster := 2
  filesize := 0

def volumeD : FatVolume where
  fs := {
    header := { reservedSectors := 1, sectorsPerCluster := 1, fatCopies := 1, rootDirEntries := 16,
                sectorsPerFat := 1 }
    endingSectorPos := 3 }
  rootDirectory := { item := directoryItems (Window.window treeDisk.byte 1024 512) 16, total := 1 }

/-- The path through components of one letter. -/
def pathOf (letters : List (BitVec 8)) : List PathPart :=
  letters.map fun c => { addr := 0, buffer := 0, part := [c] }

example : resolveEntries treeDisk volumeD.fs.header [[0x44]] = some itemD := by decide +kernel

example : resolveEntries treeDisk volumeD.fs.header [[0x44], [0x58]] = none := by decide +kernel

theorem treeDisk_terminated : Terminated treeDisk (2 * 512) 1 :=
  ⟨by decide, fun i hi => by
    obtain rfl := Nat.lt_one_iff.mp hi
    decide⟩

theorem volumeD_mounted : Mounted treeDisk volumeD := by
  have hsector : volumeD.fs.header.rootDirSectorPos = 2 := rfl
  have hsize : volumeD.fs.header.rootDirSize = 512 := rfl
  have hcount := @fat16GetTotalItemsForDirectory_eq treeDisk 1 2 treeDisk_terminated (by decide) (by decide)
  rw [if_pos (by decide)] at hcount
  have hread := @diskstreamerRead_spec treeDisk 1024 512 (by decide)
  rw [if_pos (by decide)] at hread
  have hpos : checked ((2 * bimbleosSectorSize : Nat) : Int) = some ((1024 : Nat) : Int) := by decide
  have hone : Nat.count (InUse treeDisk (2 * 512)) 1 = 1 := by decide
  have hentries : volumeD.fs.header.rootDirEntries.toNat = 16 := rfl
  have hout : ∀ pos total, (rangeRead treeDisk pos total).out = Window.window treeDisk.byte pos total :=
    fun _ _ => rfl
  rcases kzalloc_one 512 bootKernel_ready (by decide) (by decide) with
    ⟨_, hzero⟩ | ⟨dir, k', halloc, hdir, _⟩
  · rw [bootKernel_freeBlocks] at hzero
    cases hzero
  · have hrun : ∃ root, fat16GetRootDirectory treeDisk volumeD.fs.header bootKernel = .ok (.ok root, k') ∧
        volumeD.rootDirectory = root.directory := by
      unfold fat16GetRootDirectory
      rw [hsector, hsize, hcount, bind_of_ok defined_some, bind_of_ok halloc, if_neg hdir, hpos,
        bind_of_ok defined_some, hread, bind_of_ok defined_some]
      refine ⟨_, rfl, ?_⟩
      rw [hone, hentries, hout]
      rfl
    obtain ⟨root, hrun, hroot⟩ := hrun
    exact ⟨root, bootKernel, k', hrun, hroot⟩

theorem treeDisk_total : subdirectoryTotal treeDisk volumeD.fs itemD = some 0 := by
  have hsector : fat16ClusterToSector volumeD.fs (fat16GetFirstCluster itemD) = some 3 := by decide
  have hend : Terminated treeDisk (3 * 512) 0 := ⟨by decide, fun i hi => absurd hi (Nat.not_lt_zero i)⟩
  have htotal := fat16GetTotalItemsForDirectory_eq hend (by decide) (by decide)
  unfold subdirectoryTotal
  rw [hsector, Option.bind_some]
  exact htotal

theorem treeDisk_read : readDirectory treeDisk volumeD.fs itemD = some (0, { item := [], total := 0 }) := by
  have hbytes : fat16ReadInternal treeDisk volumeD.fs (fat16GetFirstCluster itemD) 0 (directorySize 0)
      = some (0, []) := by decide
  unfold readDirectory
  rw [treeDisk_total, Option.bind_some, hbytes]
  rfl

theorem treeDisk_subdirectory :
    subdirectory treeDisk volumeD.fs itemD = some { item := [], total := 0 } := by
  have hsub : itemD.isSubdirectory = true := by decide
  unfold subdirectory
  rw [if_pos hsub, treeDisk_read]
  rfl

theorem volumeD_matching : volumeD.rootDirectory.matching [0x44] = [itemD] := by decide +kernel

/-- On the boot heap there is room for every walk that takes few blocks. -/
theorem itemD_blocks : itemBlocks treeDisk volumeD.fs itemD = 2 := by
  have hsub : itemD.isSubdirectory = true := by decide
  unfold itemBlocks
  rw [if_pos hsub, treeDisk_total]
  decide

theorem volumeD_lookup : volumeD.rootDirectory.lookup [0x44] = some itemD := by
  unfold FatDirectory.lookup
  rw [volumeD_matching]
  rfl

theorem volumeD_searchBlocks : searchBlocks treeDisk volumeD.fs volumeD.rootDirectory [0x44] = 2 := by
  unfold searchBlocks
  rw [volumeD_matching, List.map_singleton, List.sum_singleton, itemD_blocks]

theorem volumeD_searchOk : SearchOk treeDisk volumeD.fs volumeD.rootDirectory [0x44] := by
  refine ⟨by decide, fun item hitem _ => ?_⟩
  rw [volumeD_matching] at hitem
  rw [List.mem_singleton.mp hitem, treeDisk_read]
  exact Option.some_ne_none _

/-- A walk to `D` and further takes two blocks. -/
theorem volumeD_blocks (rest : List (BitVec 8)) :
    entryBlocks treeDisk volumeD (pathOf (0x44 :: rest)) = 2 := by
  show searchBlocks treeDisk volumeD.fs volumeD.rootDirectory [0x44]
    + (volumeD.rootDirectory.lookup [0x44]).elim 0 (fun item => walkBlocks treeDisk volumeD.fs item (pathOf rest)) = 2
  rw [volumeD_searchBlocks, volumeD_lookup, Option.elim_some]
  cases rest with
  | nil => rfl
  | cons c rest =>
      show 2 + (subdirectory treeDisk volumeD.fs itemD).elim 0 (fun directory =>
        searchBlocks treeDisk volumeD.fs directory [c] + (directory.lookup [c]).elim 0
          fun next => walkBlocks treeDisk volumeD.fs next (pathOf rest)) = 2
      rw [treeDisk_subdirectory]
      rfl

end BimbleOS
