import BimbleOS.Fs.File
import BimbleOS.Memory.HeapClient

/-!
# `Fs.FileHeap` — what opening and closing files does to the kernel

The functions of the file system allocate and free, and clear what they allocate; nothing else in the
kernel changes, apart from the table of open files. What they free are blocks they were given by the heap,
so they keep every fact about the heap that its clients keep (`HeapRule`). The lemmas follow the functions
of `pparser.c`, `fat16.c` and `file.c`.
-/

namespace BimbleOS

open Bytes CWord Exec

/-- The kernel is `k₀` up to its heap, which satisfies `P`, and the bytes in memory. -/
def Keeps (P : Heap → Prop) (k₀ k : Kernel) : Prop :=
  P k.heap ∧ ∃ heap memory, k = { k₀ with heap := heap, memory := memory }

theorem Keeps.refl {P : Heap → Prop} {k : Kernel} (h : P k.heap) : Keeps P k k := ⟨h, k.heap, k.memory, rfl⟩

/-! ## The blocks of an open file -/

/-- The blocks that `fat16_free_directory` gives back. -/
def FatDirectoryPtr.blocks : FatDirectoryPtr → List Nat
  | .null => []
  | .freed => []
  | .live directory item _ => [item, directory]

def FatItemBody.blocks : FatItemBody → List Nat
  | .directory ptr => ptr.blocks
  | .file item _ => [item]

/-- The blocks that `fat16_fat_item_free` gives back. -/
def FatItem.blocks (item : FatItem) : List Nat := item.body.blocks ++ [item.addr]

/-- The blocks that `fat16_close` gives back. -/
def FatFileDescriptor.blocks (data : FatFileDescriptor) : List Nat := data.item.blocks ++ [data.addr]

/-- The blocks of the item that was found may be given back. -/
def OwnsItem (Ok : Nat → Prop) (r : Option FatItem) : Prop := ∀ found, r = some found → ∀ b ∈ found.blocks, Ok b

theorem ownsItem_none {Ok : Nat → Prop} : OwnsItem Ok none := by
  intro found hsome
  cases hsome

section Keeps

variable {P : Heap → Prop} {Ok : Nat → Prop} {I : Kernel → Prop} {k₀ : Kernel}

theorem deref_keeps {ptr : Nat} : Triple I (deref ptr) fun _ k => ptr ≠ 0 ∧ I k := by
  intro k _ k' hI hrun
  obtain ⟨hne, rfl⟩ := deref_run hrun
  exact ⟨hne, hI⟩

theorem defined_keeps {α : Type} {a : Option α} :
    Triple I (defined a) fun b k => a = some b ∧ I k := by
  intro k b k' hI hrun
  cases a with
  | none => cases hrun
  | some a =>
      cases hrun
      exact ⟨rfl, hI⟩

theorem readInternal_keeps {disk : Disk} {fs : FatPrivate} {cluster offset total : Int} :
    Triple I (readInternal disk fs cluster offset total)
      fun r k => fat16ReadInternal disk fs cluster offset total = some r ∧ I k := by
  intro k r k' hk hrun
  obtain ⟨hread, rfl⟩ := readInternal_run hrun
  exact ⟨hread, hk⟩

theorem kfree_keeps (hr : HeapRule P Ok) {ptr : Nat} (hok : Ok ptr) :
    Triple (Keeps P k₀) (kfree ptr) fun _ => Keeps P k₀ := by
  refine Triple.modify fun k hk => ?_
  obtain ⟨hP, heap, memory, rfl⟩ := hk
  exact ⟨hr.free hP hok, _, memory, rfl⟩

theorem kzalloc_keeps (hr : HeapRule P Ok) {size : Nat} (hsize : size < 4294967296) :
    Triple (Keeps P k₀) (kzalloc size) fun ptr k => Ok ptr ∧ Keeps P k₀ k := by
  intro k ptr k' hk hrun
  obtain ⟨hP, heap, memory, rfl⟩ := hk
  obtain ⟨rfl, memory', rfl⟩ := kzalloc_run hrun
  obtain ⟨hP', hok⟩ := hr.malloc hP hsize
  exact ⟨hok, hP', _, memory', rfl⟩

/-- An invariant of the kernel that a client of the heap keeps. -/
structure ClientRule (I : Kernel → Prop) (Ok : Nat → Prop) : Prop where
  kzalloc : ∀ {size : Nat}, size < 4294967296 → Triple I (kzalloc size) fun ptr k => Ok ptr ∧ I k
  kfree : ∀ {ptr : Nat}, Ok ptr → Triple I (kfree ptr) fun _ => I

/-- An invariant of the kernel that giving back blocks keeps. -/
structure FreeRule (I : Kernel → Prop) (Ok : Nat → Prop) : Prop where
  kfree : ∀ {ptr : Nat}, Ok ptr → Triple I (kfree ptr) fun _ => I

theorem ClientRule.free {I : Kernel → Prop} {Ok : Nat → Prop} (hr : ClientRule I Ok) : FreeRule I Ok := ⟨hr.kfree⟩

theorem HeapRule.client (hr : HeapRule P Ok) : ClientRule (Keeps P k₀) Ok := ⟨kzalloc_keeps hr, kfree_keeps hr⟩

/-! ## `pparser.c` -/

theorem pathparserCopyPart_keeps {ptr i : Nat} {path : List (BitVec 8)} :
    Triple I (pathparserCopyPart ptr i path) fun _ => I := by
  induction path generalizing i with
  | nil => exact Triple.pure fun _ hk => hk
  | cons c path ih =>
      rw [pathparserCopyPart]
      refine Triple.ite (fun _ => Triple.pure fun _ hk => hk) fun _ => ?_
      refine Triple.bind deref_keeps fun _ => Triple.const fun _ => ?_
      refine Triple.ite (fun _ => Triple.throw) fun _ => ?_
      exact Triple.bind ih fun _ => Triple.pure fun _ hk => hk

theorem pathparserParsePathPart_keeps (hr : ClientRule I Ok) {path : List (BitVec 8)} :
    Triple I (pathparserParsePathPart path) fun _ => I := by
  have hpart : Triple I (pathparserGetPathPart path) fun _ => I := by
    refine Triple.bind (hr.kzalloc (by decide)) fun ptr => Triple.const fun hok => ?_
    refine Triple.bind pathparserCopyPart_keeps fun q => ?_
    refine Triple.ite (fun _ => ?_) fun _ => Triple.pure fun _ hk => hk
    exact Triple.bind (hr.kfree hok) fun _ => Triple.pure fun _ hk => hk
  refine Triple.bind hpart fun q => ?_
  rcases q with ⟨_ | str, rest⟩
  · exact Triple.pure fun _ hk => hk
  · refine Triple.bind (hr.kzalloc (by decide)) fun ptr => Triple.const fun _ => ?_
    exact Triple.bind deref_keeps fun _ => Triple.const fun _ => Triple.pure fun _ hk => hk

theorem pathparserParseParts_keeps (hr : ClientRule I Ok) {fuel : Nat} {path : List (BitVec 8)} :
    Triple I (pathparserParseParts fuel path) fun _ => I := by
  induction fuel generalizing path with
  | zero => exact Triple.pure fun _ hk => hk
  | succ fuel ih =>
      refine Triple.bind (pathparserParsePathPart_keeps hr) fun q => ?_
      rcases q with ⟨_ | part, rest⟩
      · exact Triple.pure fun _ hk => hk
      · exact Triple.bind ih fun _ => Triple.pure fun _ hk => hk

theorem pathparserParse_keeps (hr : ClientRule I Ok) {path : List (BitVec 8)} :
    Triple I (pathparserParse path) fun _ => I := by
  unfold pathparserParse
  refine Triple.ite (fun _ => Triple.pure fun _ hk => hk) fun _ => ?_
  refine Triple.ite (fun _ => Triple.pure fun _ hk => hk) fun _ => ?_
  have hroot : Triple I (pathparserCreateRoot (pathparserGetDriveByPath path).1)
      fun _ => I := by
    refine Triple.bind (hr.kzalloc (by decide)) fun ptr => Triple.const fun _ => ?_
    exact Triple.bind deref_keeps fun _ => Triple.const fun _ => Triple.pure fun _ hk => hk
  refine Triple.bind hroot fun root => ?_
  exact Triple.bind (pathparserParseParts_keeps hr) fun _ => Triple.pure fun _ hk => hk

/-! ## `fat16.c` -/

theorem fat16FreeDirectory_keeps (hr : FreeRule I Ok) {ptr : FatDirectoryPtr}
    (hok : ∀ b ∈ ptr.blocks, Ok b) : Triple I (fat16FreeDirectory ptr) fun _ => I := by
  cases ptr with
  | null => exact Triple.pure fun _ hk => hk
  | freed => exact Triple.throw
  | live directory item content =>
      have hitem : Ok item := hok item List.mem_cons_self
      have hdirectory : Ok directory := hok directory (List.mem_cons_of_mem _ List.mem_cons_self)
      unfold fat16FreeDirectory
      refine Triple.ite (fun _ => ?_) fun _ => hr.kfree hdirectory
      exact Triple.bind (hr.kfree hitem) fun _ => hr.kfree hdirectory

theorem fat16FatItemFree_keeps (hr : FreeRule I Ok) {item : FatItem} (hok : ∀ b ∈ item.blocks, Ok b) :
    Triple I (fat16FatItemFree item) fun _ => I := by
  have haddr : Ok item.addr := hok _ (List.mem_append_right _ (List.mem_singleton.mpr rfl))
  have hbody : ∀ b ∈ item.body.blocks, Ok b := fun b hb => hok b (List.mem_append_left _ hb)
  unfold fat16FatItemFree
  cases hcases : item.body with
  | directory ptr =>
      rw [hcases] at hbody
      exact Triple.bind (fat16FreeDirectory_keeps hr hbody) fun _ => hr.kfree haddr
  | file copy content =>
      rw [hcases] at hbody
      exact Triple.bind (hr.kfree (hbody copy List.mem_cons_self)) fun _ => hr.kfree haddr

theorem fat16LoadFatDirectory_keeps (hr : ClientRule I Ok) {disk : Disk} {fs : FatPrivate}
    {item : FatDirectoryItem} : Triple I (fat16LoadFatDirectory disk fs item)
      fun ptr k => (∀ b ∈ ptr.blocks, Ok b) ∧ I k := by
  have hnone : ∀ k, I k → (∀ b ∈ FatDirectoryPtr.null.blocks, Ok b) ∧ I k :=
    fun _ hk => ⟨fun _ hb => absurd hb List.not_mem_nil, hk⟩
  unfold fat16LoadFatDirectory
  refine Triple.ite (fun _ => Triple.pure hnone) fun _ => ?_
  refine Triple.bind (hr.kzalloc (by decide)) fun directory => Triple.const fun hdirectory => ?_
  refine Triple.ite (fun _ => Triple.pure hnone) fun _ => ?_
  refine Triple.bind defined_keeps fun sector => Triple.const fun _ => ?_
  refine Triple.bind defined_keeps fun total => Triple.const fun _ => ?_
  refine Triple.bind (hr.kzalloc (u32_lt _)) fun items => Triple.const fun hitems => ?_
  have hblocks : ∀ content, ∀ b ∈ (FatDirectoryPtr.live directory items content).blocks, Ok b := by
    intro content b hb
    rcases List.mem_cons.mp hb with rfl | hb
    · exact hitems
    · exact List.mem_singleton.mp hb ▸ hdirectory
  -- the directory is given back when it could not be read
  have hfree : ∀ content, Triple (I)
      (fat16FreeDirectory (.live directory items content) >>= fun _ => pure FatDirectoryPtr.freed)
      fun ptr k => (∀ b ∈ ptr.blocks, Ok b) ∧ I k := fun content =>
    Triple.bind (fat16FreeDirectory_keeps hr.free (hblocks content)) fun _ =>
      Triple.pure fun _ hk => ⟨fun _ hb => absurd hb List.not_mem_nil, hk⟩
  refine Triple.ite (fun hzero => ?_) fun _ => ?_
  · subst hzero
    exact hfree _
  · refine Triple.bind readInternal_keeps fun q => Triple.const fun _ => ?_
    refine Triple.ite (fun _ => hfree _) fun _ => Triple.pure fun _ hk => ⟨hblocks _, hk⟩

theorem fat16NewFatItemForDirectoryItem_keeps (hr : ClientRule I Ok) {disk : Disk} {fs : FatPrivate}
    {item : FatDirectoryItem} : Triple I (fat16NewFatItemForDirectoryItem disk fs item)
      fun r k => OwnsItem Ok r ∧ I k := by
  unfold fat16NewFatItemForDirectoryItem
  refine Triple.bind (hr.kzalloc (by decide)) fun fItem => Triple.const fun hfItem => ?_
  have hfound : ∀ body : FatItemBody, (∀ b ∈ body.blocks, Ok b) →
      OwnsItem Ok (some { addr := fItem, body := body }) := by
    rintro body hbody found hsome b hb
    cases hsome
    rcases List.mem_append.mp hb with hb | hb
    · exact hbody b hb
    · exact List.mem_singleton.mp hb ▸ hfItem
  refine Triple.ite (fun _ => Triple.pure fun _ hk => ⟨ownsItem_none, hk⟩) fun _ => ?_
  refine Triple.ite (fun _ => ?_) fun _ => ?_
  · refine Triple.bind (fat16LoadFatDirectory_keeps hr) fun ptr => Triple.const fun hptr => ?_
    exact Triple.pure fun _ hk => ⟨hfound (.directory ptr) hptr, hk⟩
  · refine Triple.bind (hr.kzalloc (by decide)) fun copy => Triple.const fun hcopy => ?_
    exact Triple.pure fun _ hk =>
      ⟨hfound (.file copy item) fun b hb => List.mem_singleton.mp hb ▸ hcopy, hk⟩

/-- The loop of the search: the induction is on the items left. -/
theorem fat16FindLoop_keeps (hr : ClientRule I Ok) {disk : Disk} {fs : FatPrivate} {directory : FatDirectory}
    {name : List (BitVec 8)} {left i : Nat} {fItem : Option FatItem}
    (hitem : OwnsItem Ok fItem) :
    Triple I (fat16FindLoop disk fs directory name left i fItem)
      fun r k => OwnsItem Ok r ∧ I k := by
  induction left generalizing i fItem with
  | zero => exact Triple.pure fun _ hk => ⟨hitem, hk⟩
  | succ left ih =>
      unfold fat16FindLoop
      cases directory.item[i]? with
      | none => exact Triple.throw
      | some item =>
          refine Triple.ite (fun _ => ?_) fun _ => ih hitem
          exact Triple.bind (fat16NewFatItemForDirectoryItem_keeps hr) fun r => Triple.const fun hfound =>
            ih hfound

theorem fat16EntryLoop_keeps (hr : ClientRule I Ok) {disk : Disk} {fs : FatPrivate} {current : FatItem}
    {path : List PathPart} (hcurrent : ∀ b ∈ current.blocks, Ok b) :
    Triple I (fat16EntryLoop disk fs current path)
      fun r k => OwnsItem Ok r ∧ I k := by
  induction path generalizing current with
  | nil =>
      refine Triple.pure fun _ hk => ⟨fun found hsome => ?_, hk⟩
      cases hsome
      exact hcurrent
  | cons part rest ih =>
      have hnone : ∀ k, I k → OwnsItem Ok none ∧ I k := fun _ hk => ⟨ownsItem_none, hk⟩
      unfold fat16EntryLoop
      cases hbody : current.body with
      | file copy content => exact Triple.pure hnone
      | directory ptr =>
          cases ptr with
          | null => exact Triple.throw
          | freed => exact Triple.throw
          | live dir items content =>
              refine Triple.bind (fat16FindLoop_keeps hr ownsItem_none) fun tmpItem =>
                Triple.const fun htmp => ?_
              refine Triple.bind (fat16FatItemFree_keeps hr.free hcurrent) fun _ => ?_
              cases tmpItem with
              | some item => exact ih (htmp item rfl)
              | none => exact Triple.ite (fun _ => Triple.pure hnone) fun _ => Triple.throw

theorem fat16GetDirectoryEntry_keeps (hr : ClientRule I Ok) {disk : Disk} {volume : FatVolume}
    {path : List PathPart} : Triple I (fat16GetDirectoryEntry disk volume path) fun r k => OwnsItem Ok r ∧ I k := by
  cases path with
  | nil => exact Triple.throw
  | cons part rest =>
      refine Triple.bind (fat16FindLoop_keeps hr ownsItem_none) fun rootItem =>
        Triple.const fun hroot => ?_
      cases rootItem with
      | none => exact Triple.pure fun _ hk => ⟨ownsItem_none, hk⟩
      | some item => exact fat16EntryLoop_keeps hr (hroot item rfl)

theorem fat16Open_keeps (hr : ClientRule I Ok) {disk : Disk} {volume : FatVolume} {path : List PathPart}
    {mode : FileMode} : Triple I (fat16Open disk volume path mode)
      fun r k => (∀ data, r = .ok data → ∀ b ∈ data.blocks, Ok b) ∧ I k := by
  have herror : ∀ code k, I k →
      (∀ data, (.error code : Except Int FatFileDescriptor) = .ok data → ∀ b ∈ data.blocks, Ok b)
        ∧ I k := by
    refine fun code k hk => ⟨fun data hok => ?_, hk⟩
    cases hok
  unfold fat16Open
  refine Triple.ite (fun _ => Triple.pure (herror _)) fun _ => ?_
  refine Triple.bind (hr.kzalloc (by decide)) fun addr => Triple.const fun haddr => ?_
  refine Triple.ite (fun _ => Triple.pure (herror _)) fun _ => ?_
  refine Triple.bind (fat16GetDirectoryEntry_keeps hr) fun r => Triple.const fun hfound => ?_
  cases r with
  | none => exact Triple.bind (hr.kfree haddr) fun _ => Triple.pure (herror _)
  | some item =>
      refine Triple.pure fun _ hk => ⟨fun data hok b hb => ?_, hk⟩
      cases hok
      rcases List.mem_append.mp hb with hb | hb
      · exact hfound item rfl b hb
      · exact List.mem_singleton.mp hb ▸ haddr

theorem fat16Close_keeps (hr : FreeRule I Ok) {data : FatFileDescriptor} (hok : ∀ b ∈ data.blocks, Ok b) :
    Triple I (fat16Close data) fun res k => res = 0 ∧ I k := by
  have haddr : Ok data.addr := hok _ (List.mem_append_right _ (List.mem_singleton.mpr rfl))
  refine Triple.bind (fat16FatItemFree_keeps hr fun b hb => hok b (List.mem_append_left _ hb)) fun _ => ?_
  exact Triple.bind (hr.kfree haddr) fun _ => Triple.pure fun _ hk => ⟨rfl, hk⟩

end Keeps

/-! ## `file.c` -/

/-- The path leads to a file that can be opened: `data` is what `fat16_open` returns for it. -/
structure OpensFile (drive : Drive) (filename modeStr : List (BitVec 8)) (k : Kernel) (volume : FatVolume)
    (data : FatFileDescriptor) (k₁ : Kernel) : Prop where
  filesystem : drive.filesystem = some volume
  opens : ∃ rootPath k₀, pathparserParse filename k = .ok (some rootPath, k₀) ∧ rootPath.first ≠ [] ∧
    rootPath.driveNo = 0 ∧
    fat16Open drive.disk volume rootPath.first (fileGetModeByString modeStr) k₀ = .ok (.ok data, k₁)

/-- The descriptor that `fopen` puts into slot `i`. -/
def openedDescriptor (i addr : Nat) (volume : FatVolume) (data : FatFileDescriptor) : FileDescriptor :=
  { addr := addr, index := i + 1, filesystem := some volume, privateData := some data }

/-- Slot `i` is the first empty one. -/
structure FirstFree (k : Kernel) (i : Nat) : Prop where
  lt : i < bimbleosMaxFileDescriptors
  free : k.fileDescriptors i = none
  before : ∀ j, j < i → k.fileDescriptors j ≠ none

/-- Only the heap and the bytes in memory change, and the heap as its clients change it. -/
def HeapOnly (k k' : Kernel) : Prop :=
  ∀ (P : Heap → Prop) (Ok : Nat → Prop), HeapRule P Ok → P k.heap → Keeps P k k'

/-- What an `fopen` that returns has done. -/
inductive FopenOutcome (drive : Drive) (filename modeStr : List (BitVec 8)) (k : Kernel) :
    Int → Kernel → Prop where
  /-- There is no such file. -/
  | missing {k' : Kernel} : (∀ volume data k₁, ¬ OpensFile drive filename modeStr k volume data k₁) →
      HeapOnly k k' → FopenOutcome drive filename modeStr k 0 k'
  /-- The table is full. -/
  | full {volume : FatVolume} {data : FatFileDescriptor} {k₁ : Kernel} :
      OpensFile drive filename modeStr k volume data k₁ →
      (∀ j, j < bimbleosMaxFileDescriptors → k₁.fileDescriptors j ≠ none) →
      FopenOutcome drive filename modeStr k 0 k₁
  /-- The file is in the first empty slot. -/
  | opened {volume : FatVolume} {data : FatFileDescriptor} {k₁ k₂ : Kernel} {i addr : Nat} :
      OpensFile drive filename modeStr k volume data k₁ → FirstFree k₁ i →
      kzalloc sizeofFileDescriptor k₁ = .ok (addr, k₂) → addr ≠ 0 →
      FopenOutcome drive filename modeStr k (i + 1) { k₂ with
        fileDescriptors := Function.update k₂.fileDescriptors i (some (openedDescriptor i addr volume data)) }

section Fopen

variable {drive : Drive} {filename modeStr : List (BitVec 8)} {k k' : Kernel} {fd : Int}

/-- The loop of `file_new_descriptor`: it stops at the first empty slot. -/
theorem fileNewDescriptorLoop_run {left i : Nat} {r : Except Int FileDescriptor}
    (hrun : fileNewDescriptorLoop left i k = .ok (r, k')) :
    (r = .error (-ENOMEM) ∧ k' = k ∧ ∀ j, i ≤ j → j < i + left → k.fileDescriptors j ≠ none) ∨
      ∃ j addr k₁, i ≤ j ∧ j < i + left ∧ k.fileDescriptors j = none ∧
        (∀ m, i ≤ m → m < j → k.fileDescriptors m ≠ none) ∧
        kzalloc sizeofFileDescriptor k = .ok (addr, k₁) ∧ addr ≠ 0 ∧
        r = .ok { addr := addr, index := j + 1 } ∧
        k' = { k₁ with fileDescriptors :=
          Function.update k₁.fileDescriptors j (some { addr := addr, index := j + 1 }) } := by
  induction left generalizing i with
  | zero =>
      cases hrun
      exact Or.inl ⟨rfl, rfl, fun j hlo hhi => by omega⟩
  | succ left ih =>
      change (if (k.fileDescriptors i).isSome then fileNewDescriptorLoop left (i + 1) else _ : KM _) k
        = _ at hrun
      by_cases hsome : (k.fileDescriptors i).isSome
      · rw [if_pos hsome] at hrun
        have hi : k.fileDescriptors i ≠ none := Option.isSome_iff_ne_none.mp hsome
        rcases ih hrun with ⟨hr, hk, hall⟩ | ⟨j, addr, k₁, hlo, hhi, hnone, hbefore, hrest⟩
        · refine Or.inl ⟨hr, hk, fun j hlo hhi => ?_⟩
          rcases Nat.eq_or_lt_of_le hlo with rfl | hlt
          · exact hi
          · exact hall j hlt (by omega)
        · refine Or.inr ⟨j, addr, k₁, by omega, by omega, hnone, fun m hm hmj => ?_, hrest⟩
          rcases Nat.eq_or_lt_of_le hm with rfl | hlt
          · exact hi
          · exact hbefore m hlt hmj
      · rw [if_neg hsome] at hrun
        have hi : k.fileDescriptors i = none := by simpa using hsome
        obtain ⟨addr, k₁, halloc, hrest⟩ := bind_eq_ok.mp hrun
        obtain ⟨_, k₂, hderef, hdone⟩ := bind_eq_ok.mp hrest
        obtain ⟨hne, rfl⟩ := deref_run hderef
        cases hdone
        exact Or.inr ⟨i, addr, k₂, Nat.le_refl i, by omega, hi, fun m hm hmi => by omega, halloc, hne, rfl, rfl⟩

/-- The first empty slot gets the new descriptor. -/
theorem fileNewDescriptor_first {i addr : Nat} {k₁ : Kernel} (h : FirstFree k i)
    (halloc : kzalloc sizeofFileDescriptor k = .ok (addr, k₁)) (hne : addr ≠ 0) :
    fileNewDescriptor k = .ok (.ok { addr := addr, index := i + 1 }, { k₁ with
      fileDescriptors := Function.update k₁.fileDescriptors i (some { addr := addr, index := i + 1 }) }) := by
  have hloop : ∀ left m, m ≤ i → i < m + left → fileNewDescriptorLoop left m k
      = .ok (.ok { addr := addr, index := i + 1 }, { k₁ with
        fileDescriptors := Function.update k₁.fileDescriptors i (some { addr := addr, index := i + 1 }) }) := by
    intro left
    induction left with
    | zero => exact fun m hlo hhi => by omega
    | succ left ih =>
        intro m hlo hhi
        show (if (k.fileDescriptors m).isSome then fileNewDescriptorLoop left (m + 1) else _ : KM _) k = _
        by_cases hm : m = i
        · subst hm
          rw [h.free, if_neg (by decide), bind_of_ok halloc, bind_of_ok (deref_of_ne hne)]
          rfl
        · rw [if_pos (Option.isSome_iff_ne_none.mpr (h.before m (by omega)))]
          exact ih (m + 1) (by omega) (by omega)
  exact hloop bimbleosMaxFileDescriptors 0 (Nat.zero_le i) (by have := h.lt; omega)

/-- The error codes of `fat16_open` are negative. -/
theorem fat16Open_error {disk : Disk} {volume : FatVolume} {path : List PathPart} {mode : FileMode}
    {code : Int} (hrun : fat16Open disk volume path mode k = .ok (.error code, k')) : code < 0 := by
  have hcode : Triple (fun _ => True) (fat16Open disk volume path mode)
      fun r _ => ∀ code, r = .error code → code < 0 := by
    unfold fat16Open
    refine Triple.ite (fun _ => Triple.pure fun _ _ code heq => ?_) fun _ => ?_
    · cases heq
      decide
    refine Triple.bind (fun _ _ _ _ _ => (True.intro : True)) fun addr => ?_
    refine Triple.ite (fun _ => Triple.pure fun _ _ code heq => ?_) fun _ => ?_
    · cases heq
      decide
    refine Triple.bind (fun _ _ _ _ _ => (True.intro : True)) fun item => ?_
    cases item with
    | none =>
        refine Triple.bind (fun _ _ _ _ _ => (True.intro : True)) fun _ => Triple.pure fun _ _ code heq => ?_
        cases heq
        decide
    | some item => exact Triple.pure fun _ _ code heq => by cases heq
  exact hcode k _ k' True.intro hrun code rfl

/-- `fat16_open` needs a part to look for. -/
theorem fopenResult_of_opens {volume : FatVolume} {data : FatFileDescriptor} {k₁ : Kernel}
    (h : OpensFile drive filename modeStr k volume data k₁) :
    fopenResult drive filename modeStr k = (fileNewDescriptor >>= fun desc => match desc with
      | .error code => pure code
      | .ok desc => do
          setDescriptor (desc.index - 1)
            (some { desc with filesystem := some volume, privateData := some data })
          return (desc.index : Int) : KM Int) k₁ := by
  obtain ⟨rootPath, k₀, hparse, hfirst, hdrive, hopen⟩ := h.opens
  have hmode : fileGetModeByString modeStr ≠ .invalid := by
    intro hmode
    rw [hmode] at hopen
    cases hopen
  have hdisk : diskGet drive rootPath.driveNo = some drive := if_pos hdrive
  unfold fopenResult
  rw [bind_of_ok hparse]
  simp only [if_neg hfirst, hdisk, h.filesystem, if_neg hmode]
  exact (bind_of_ok hopen).trans rfl

/-- One change after the other. -/
theorem HeapOnly.trans {k₁ k₂ k₃ : Kernel} (h : HeapOnly k₁ k₂) (h' : HeapOnly k₂ k₃) : HeapOnly k₁ k₃ := by
  intro P Ok hr hP
  obtain ⟨hP₂, heap, memory, rfl⟩ := h P Ok hr hP
  obtain ⟨hP₃, heap', memory', rfl⟩ := h' P Ok hr hP₂
  exact ⟨hP₃, heap', memory', rfl⟩

/-- Parsing a path changes the heap only. -/
theorem pathparserParse_heapOnly {path : List (BitVec 8)} {r : Option PathRoot}
    (hrun : pathparserParse path k = .ok (r, k')) : HeapOnly k k' :=
  fun _ _ hr hP => pathparserParse_keeps hr.client k r k' (Keeps.refl hP) hrun

/-- A file that cannot be opened leads to an error code. -/
theorem fopenResult_missing {res : Int}
    (hmissing : ∀ volume data k₁, ¬ OpensFile drive filename modeStr k volume data k₁)
    (hrun : fopenResult drive filename modeStr k = .ok (res, k')) : res < 0 ∧
      ∃ root k₀, pathparserParse filename k = .ok (root, k₀) ∧ HeapOnly k₀ k' := by
  have heinvarg : -EINVARG < 0 := by decide
  have heio : - EIO < 0 := by decide
  have hsame : ∀ k, HeapOnly k k := fun _ _ _ _ hP => Keeps.refl hP
  unfold fopenResult at hrun
  obtain ⟨rootPath, k₀, hparse, hrun⟩ := bind_eq_ok.mp hrun
  cases rootPath with
  | none =>
      cases hrun
      exact ⟨heinvarg, none, k', hparse, hsame k'⟩
  | some rootPath =>
      by_cases hfirst : rootPath.first = []
      · simp only [hfirst, if_true] at hrun
        cases hrun
        exact ⟨heinvarg, some rootPath, k', hparse, hsame k'⟩
      simp only [if_neg hfirst] at hrun
      by_cases hdrive : rootPath.driveNo = 0
      · have hdisk : diskGet drive rootPath.driveNo = some drive := if_pos hdrive
        simp only [hdisk] at hrun
        cases hfs : drive.filesystem with
        | none =>
            simp only [hfs] at hrun
            cases hrun
            exact ⟨heio, some rootPath, k', hparse, hsame k'⟩
        | some volume =>
            simp only [hfs] at hrun
            by_cases hmode : fileGetModeByString modeStr = .invalid
            · rw [if_pos hmode] at hrun
              cases hrun
              exact ⟨heinvarg, some rootPath, k', hparse, hsame k'⟩
            rw [if_neg hmode] at hrun
            obtain ⟨opened, k₁, hopen, hrun⟩ := bind_eq_ok.mp hrun
            cases opened with
            | error code =>
                cases hrun
                refine ⟨fat16Open_error hopen, some rootPath, k₀, hparse, fun P Ok hr hP => ?_⟩
                exact (fat16Open_keeps hr.client k₀ _ _ (Keeps.refl hP) hopen).2
            | ok data => exact absurd ⟨hfs, rootPath, k₀, hparse, hfirst, hdrive, hopen⟩ (hmissing volume data k₁)
      · have hdisk : diskGet drive rootPath.driveNo = none := if_neg hdrive
        simp only [hdisk] at hrun
        cases hrun
        exact ⟨heio, some rootPath, k', hparse, hsame k'⟩

/-- Opening a file only takes blocks, and its own may be given back. -/
theorem OpensFile.keeps {P : Heap → Prop} {Ok : Nat → Prop} {volume : FatVolume} {data : FatFileDescriptor}
    {k₁ : Kernel} (h : OpensFile drive filename modeStr k volume data k₁) (hr : HeapRule P Ok)
    (hP : P k.heap) : Keeps P k k₁ ∧ ∀ b ∈ data.blocks, Ok b := by
  obtain ⟨rootPath, k₀, hparse, _, _, hopen⟩ := h.opens
  have hparsed := pathparserParse_keeps hr.client k _ k₀ (Keeps.refl hP) hparse
  obtain ⟨hblocks, hk⟩ := fat16Open_keeps hr.client k₀ _ k₁ hparsed hopen
  exact ⟨hk, hblocks data rfl⟩

/-- **What `fopen` does**: there is no such file, or the table is full, or the file is in the first empty
    slot. -/
theorem fopen_outcome (hrun : fopen drive filename modeStr k = .ok (fd, k')) :
    FopenOutcome drive filename modeStr k fd k' := by
  by_cases hopens : ∃ volume data k₁, OpensFile drive filename modeStr k volume data k₁
  · obtain ⟨volume, data, k₁, h⟩ := hopens
    obtain ⟨res, k₂, hres, hpos⟩ := bind_eq_ok.mp hrun
    rw [fopenResult_of_opens h] at hres
    obtain ⟨r, k₃, hnew, hset⟩ := bind_eq_ok.mp hres
    rcases fileNewDescriptorLoop_run hnew with ⟨rfl, rfl, hfull⟩ |
      ⟨i, addr, k₄, _, hlt, hnone, hbefore, halloc, hne, rfl, rfl⟩
    · cases hset
      cases hpos
      exact .full h fun j hj => hfull j (Nat.zero_le j) (by omega)
    · cases hset
      have hnonneg : ¬ ((i + 1 : Nat) : Int) < 0 := by omega
      change (if ((i + 1 : Nat) : Int) < 0 then _ else _ : KM Int) _ = _ at hpos
      rw [if_neg hnonneg] at hpos
      cases hpos
      have hout := FopenOutcome.opened h ⟨by omega, hnone, fun j hj => hbefore j (Nat.zero_le j) hj⟩ halloc hne
      -- the slot is written twice
      have hidem : Function.update (Function.update k₄.fileDescriptors i
            (some { addr := addr, index := i + 1 })) i (some (openedDescriptor i addr volume data))
          = Function.update k₄.fileDescriptors i (some (openedDescriptor i addr volume data)) :=
        Function.update_idem _ _ _
      rw [← hidem] at hout
      exact hout
  · obtain ⟨res, k₂, hres, hneg⟩ := bind_eq_ok.mp hrun
    have hmissing : ∀ volume data k₁, ¬ OpensFile drive filename modeStr k volume data k₁ :=
      fun volume data k₁ h => hopens ⟨volume, data, k₁, h⟩
    obtain ⟨hres₀, root, k₀, hparse, hheap⟩ := fopenResult_missing hmissing hres
    rw [if_pos hres₀] at hneg
    cases hneg
    exact .missing hmissing ((pathparserParse_heapOnly hparse).trans hheap)

/-- A successful `fopen`, put together. -/
theorem fopen_of_opens {volume : FatVolume} {data : FatFileDescriptor} {k₁ k₂ : Kernel} {i addr : Nat}
    (h : OpensFile drive filename modeStr k volume data k₁) (hfirst : FirstFree k₁ i)
    (halloc : kzalloc sizeofFileDescriptor k₁ = .ok (addr, k₂)) (hne : addr ≠ 0) :
    ∃ k', fopen drive filename modeStr k = .ok ((i : Int) + 1, k') ∧ k'.heap = k₂.heap ∧
      k'.fileDescriptors
        = Function.update k₂.fileDescriptors i (some (openedDescriptor i addr volume data)) := by
  obtain ⟨k', hrun, hheap, htable⟩ : ∃ k', fopenResult drive filename modeStr k = .ok ((i : Int) + 1, k') ∧
      k'.heap = k₂.heap ∧ k'.fileDescriptors
        = Function.update k₂.fileDescriptors i (some (openedDescriptor i addr volume data)) := by
    rw [fopenResult_of_opens h, bind_of_ok (fileNewDescriptor_first hfirst halloc hne)]
    exact ⟨_, rfl, rfl, Function.update_idem _ _ _⟩
  have hpos : ¬ (i : Int) + 1 < 0 := by omega
  refine ⟨k', ?_, hheap, htable⟩
  unfold fopen
  rw [bind_of_ok hrun, if_neg hpos]
  rfl

end Fopen

/-! ## Progress -/

section Progress

variable {disk : Disk} {volume : FatVolume} {item : FatDirectoryItem} {part : PathPart} {n : Nat}
  {ptrs : List Nat}

/-- The only item of a root directory, when it is a file, takes three blocks to open; they are held. -/
theorem fat16Open_total (hitems : volume.rootDirectory.item = [item]) (htotal : volume.rootDirectory.total = 1)
    (hname : sameName item part.part = true) (hfile : item.isSubdirectory = false) :
    Total (Kernel.Room ptrs (n + 3)) (fat16Open disk volume [part] .read)
      fun r k => ∃ data copy, r = .ok data ∧ copy ≠ 0 ∧ data.item.body = .file copy item ∧ data.pos = 0 ∧
        k.Room (data.blocks ++ ptrs) n := by
  have hnew : ∀ ptrs, Total (Kernel.Room ptrs (n + 2)) (fat16NewFatItemForDirectoryItem disk volume.fs item)
      fun r k => ∃ addr copy, r = some { addr := addr, body := .file copy item } ∧ copy ≠ 0 ∧
        k.Room (copy :: addr :: ptrs) n := by
    intro ptrs
    unfold fat16NewFatItemForDirectoryItem
    refine Total.bind (kzalloc_room (by decide) (by decide)) fun fItem => Total.const fun hfItem => ?_
    rw [if_neg hfItem, hfile, if_neg Bool.false_ne_true]
    refine Total.bind (kzalloc_room (by decide) (by decide)) fun copy => Total.const fun hcopy => ?_
    exact Total.pure fun _ hk => ⟨fItem, copy, rfl, hcopy, hk⟩
  have hfind : ∀ ptrs, Total (Kernel.Room ptrs (n + 2))
      (fat16FindItemInDirectory disk volume.fs volume.rootDirectory part.part)
      fun r k => ∃ addr copy, r = some { addr := addr, body := .file copy item } ∧ copy ≠ 0 ∧
        k.Room (copy :: addr :: ptrs) n := by
    intro ptrs
    unfold fat16FindItemInDirectory
    rw [htotal]
    show Total _ (fat16FindLoop disk volume.fs volume.rootDirectory part.part 1 0 none) _
    rw [fat16FindLoop, hitems]
    simp only [List.getElem?_cons_zero, hname, if_true]
    exact Total.bind (hnew ptrs) fun r => Total.pure fun _ hk => hk
  have hentry : ∀ ptrs, Total (Kernel.Room ptrs (n + 2)) (fat16GetDirectoryEntry disk volume [part])
      fun r k => ∃ addr copy, r = some { addr := addr, body := .file copy item } ∧ copy ≠ 0 ∧
        k.Room (copy :: addr :: ptrs) n := by
    intro ptrs k hk
    obtain ⟨r, k', hrun, itemAddr, copy, rfl, hcopy, hroom⟩ := hfind ptrs k hk
    exact ⟨_, k', bind_of_ok hrun, itemAddr, copy, rfl, hcopy, hroom⟩
  unfold fat16Open
  rw [if_neg (not_not_intro rfl)]
  refine Total.bind (kzalloc_room (by decide) (by decide)) fun addr => Total.const fun haddr => ?_
  rw [if_neg haddr]
  intro k hk
  obtain ⟨r, k', hrun, itemAddr, copy, rfl, hcopy, hroom⟩ := hentry (addr :: ptrs) k hk
  exact ⟨_, k', bind_of_ok hrun, _, copy, rfl, hcopy, rfl, rfl, hroom⟩

end Progress

end BimbleOS
