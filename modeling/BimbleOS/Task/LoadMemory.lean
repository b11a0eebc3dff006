import BimbleOS.Task.LoadProgress

/-!
# `Task.LoadMemory` — the memory that a load leaves alone

A load writes to the blocks that it is given: it clears them, reads the file into one of them, and keeps the
record of an ELF file in another. The bytes below the heap, and those of the blocks that were taken before,
stay as they were (`processLoad_sheltered`). The lemmas follow the functions from `file.c` up to `process.c`.
-/

namespace BimbleOS

open Bytes CWord Exec

section Memory

variable {B E : Set Nat} {m : Mem} {k k' : Kernel} {drive : Drive} {filename : List (BitVec 8)}

theorem shelteredClient : ClientRule (Sheltered B E m) (Misses B) where
  kzalloc := kzalloc_sheltered
  kfree := fun hok => Triple.modify fun _ hk => ⟨(shieldRule B E).free hk.shields hok, hk.memory⟩

/-- Writing beside the shelter. -/
theorem Sheltered.store {memory : Mem} (h : Sheltered B E m k) (hm : ∀ a, InShelter B a → memory a = k.memory a) :
    Sheltered B E m { k with memory := memory } :=
  ⟨h.shields, fun a ha => (hm a ha).trans (h.memory a ha)⟩

/-! ## Files -/

theorem setDescriptor_sheltered {i : Nat} {desc : Option FileDescriptor} :
    Triple (Sheltered B E m) (setDescriptor i desc) fun _ => Sheltered B E m :=
  Triple.modify fun _ hk => hk.congr rfl rfl

theorem fileNewDescriptorLoop_sheltered {left i : Nat} :
    Triple (Sheltered B E m) (fileNewDescriptorLoop left i) fun _ => Sheltered B E m := by
  induction left generalizing i with
  | zero => exact Triple.pure fun _ hk => hk
  | succ left ih =>
      rw [fileNewDescriptorLoop]
      refine Triple.get_bind fun k₁ hk₁ => Triple.pre (P := Sheltered B E m) (fun k hk => hk ▸ hk₁) ?_
      refine Triple.ite (fun _ => ih) fun _ => ?_
      refine Triple.bind (kzalloc_sheltered (by decide)) fun addr => Triple.const fun _ => ?_
      refine Triple.bind deref_keeps fun _ => Triple.const fun _ => ?_
      exact Triple.bind setDescriptor_sheltered fun _ => Triple.pure fun _ hk => hk

theorem fopen_sheltered {modeStr : List (BitVec 8)} :
    Triple (Sheltered B E m) (fopen drive filename modeStr) fun _ => Sheltered B E m := by
  have hpure : ∀ res : Int, Triple (Sheltered B E m) (pure res : KM Int) fun _ => Sheltered B E m := fun _ =>
    Triple.pure fun _ hk => hk
  refine Triple.bind (R := fun _ => Sheltered B E m) ?_ fun res => Triple.ite (fun _ => hpure _) fun _ => hpure _
  unfold fopenResult
  refine Triple.bind (pathparserParse_keeps shelteredClient) fun rootPath => ?_
  cases rootPath with
  | none => exact hpure _
  | some rootPath =>
      refine Triple.ite (fun _ => hpure _) fun _ => ?_
      cases diskGet drive rootPath.driveNo with
      | none => exact hpure _
      | some drive =>
          cases hfs : drive.filesystem with
          | none => simp only [hfs]; exact hpure _
          | some volume =>
              simp only [hfs]
              refine Triple.ite (fun _ => hpure _) fun _ => ?_
              refine Triple.bind (fat16Open_keeps shelteredClient) fun opened => Triple.const fun _ => ?_
              cases opened with
              | error code => exact hpure _
              | ok data =>
                  refine Triple.bind fileNewDescriptorLoop_sheltered fun desc => ?_
                  cases desc with
                  | error code => exact hpure _
                  | ok desc => exact Triple.bind setDescriptor_sheltered fun _ => hpure _

/-! ## ELF files -/

/-- The last fields of the record of an ELF file are all that its program headers change. -/
theorem elfProcessPhdrPtLoad_outside {file phdr a : Nat} (ha : a < file + 116 ∨ file + sizeofElfFile ≤ a) :
    elfProcessPhdrPtLoad m file phdr a = m a := by
  have hrecord : a < file + 116 ∨ file + 132 ≤ a := by
    unfold sizeofElfFile at ha
    omega
  have hstore : ∀ (m : Mem) (b : Nat) (v : BitVec 32), 116 ≤ b → b ≤ 128 → store32 m (file + b) v a = m a := by
    intro m b v hlo hhi
    exact store32_of_outside (by omega)
  have hlow : ∀ (c : Prop) [Decidable c] (m : Mem) (v w : BitVec 32),
      (if c then store32 (store32 m (file + elfVirtualBaseAddress) v) (file + elfPhysicalBaseAddress) w else m) a
        = m a := by
    intro c _ m v w
    split
    · rw [hstore _ _ _ (by decide) (by decide), hstore _ _ _ (by decide) (by decide)]
    · rfl
  have hhigh : ∀ (c : Prop) [Decidable c] (m : Mem) (v w : BitVec 32),
      (if c then store32 (store32 m (file + elfVirtualEndAddress) v) (file + elfPhysicalEndAddress) w else m) a
        = m a := by
    intro c _ m v w
    split
    · rw [hstore _ _ _ (by decide) (by decide), hstore _ _ _ (by decide) (by decide)]
    · rfl
  unfold elfProcessPhdrPtLoad
  exact (hhigh _ _ _ _).trans (hlow _ _ _ _)

theorem elfProcessPheader_outside {file phdr a : Nat} (ha : a < file + 116 ∨ file + sizeofElfFile ≤ a) :
    (elfProcessPheader m file phdr).2 a = m a := by
  unfold elfProcessPheader
  split
  · exact elfProcessPhdrPtLoad_outside ha
  · rfl

theorem elfProcessLoaded_outside {file a : Nat} (ha : a < file + 116 ∨ file + sizeofElfFile ≤ a) :
    (elfProcessLoaded m file).2 a = m a := by
  have hloop : ∀ header left i (m : Mem), (elfProcessPheadersLoop file header left i m).2 a = m a := by
    intro header left
    induction left with
    | zero => exact fun i m => rfl
    | succ left ih =>
        intro i m
        unfold elfProcessPheadersLoop
        split
        · dsimp only
          split
          · exact elfProcessPheader_outside ha
          · exact (ih (i + 1) _).trans (elfProcessPheader_outside ha)
        · rfl
  unfold elfProcessLoaded
  dsimp only
  split
  · rfl
  · exact hloop _ _ _ _

section Using

variable {k₀ : Kernel} {i : Nat} {volume : FatVolume} {data : FatFileDescriptor} {res : Int}

/-- A read into a block beside the shelter. -/
theorem fread_sheltered {fd : Int} {copy ptr : Nat} {entry : FatDirectoryItem} (h : Sheltered B E m k)
    (hopen : OpenFile k fd volume data copy entry) (hpos : data.pos = 0)
    (hbeside : ptr ≠ 0 → Beside B ptr entry.filesize.toNat)
    (hrun : fread drive ptr entry.filesize.toNat 1 fd k = .ok (res, k')) : Sheltered B E m k' := by
  rcases Nat.eq_zero_or_pos entry.filesize.toNat with hzero | hsize
  · unfold fread at hrun
    rw [if_pos (Or.inl hzero)] at hrun
    cases hrun
    exact h
  obtain ⟨r, bytes, hbytes, hnull, rfl, _⟩ := fread_once hopen hpos hsize hrun
  have hlen := fat16ReadLoop_length hbytes
  have hlength : bytes.length ≤ entry.filesize.toNat := by
    have hlt := entry.filesize.isLt
    unfold s32 at hlen
    omega
  refine h.store fun a ha => if_neg fun hin => ?_
  have hne : bytes ≠ [] := by
    rintro rfl
    rw [List.length_nil] at hin
    omega
  have hout := hbeside (hnull hne) a ha
  omega

theorem elfReadFile_sheltered {record : Nat} (hused : Using (Heap.Shields B E) (Misses B) k₀ i volume data k)
    (hfile : FileAt drive filename volume data) (h : Sheltered B E m k)
    (hrecord : record ≠ 0 → Beside B record sizeofElfFile)
    (hrun : elfReadFile drive record ((i : Int) + 1) k = .ok (res, k')) : Sheltered B E m k' := by
  unfold elfReadFile at hrun
  obtain ⟨⟨res₁, stat⟩, k₁, hstat, hrest⟩ := bind_eq_ok.mp hrun
  change (if res₁ < 0 then pure res₁ else _ : KM Int) k₁ = _ at hrest
  obtain ⟨rfl, hcases⟩ := fstat_using hused hfile hstat
  rcases hcases with ⟨hneg, _⟩ | ⟨copy, entry, rfl, hi, hentry, hsize, hopen⟩
  · rw [if_pos hneg] at hrest
    cases hrest
    exact h
  rw [if_neg (Int.lt_irrefl 0), hsize] at hrest
  obtain ⟨base, k₂, halloc, hafter⟩ := bind_eq_ok.mp hrest
  obtain ⟨hbase, _, h₂⟩ := kzalloc_beside h entry.filesize.isLt halloc
  have htable := kzalloc_table halloc
  obtain ⟨_, k₃, hderef, hstored⟩ := bind_eq_ok.mp hafter
  obtain ⟨hne, rfl⟩ := deref_run hderef
  obtain ⟨_, k₄, hstore, hread⟩ := bind_eq_ok.mp hstored
  obtain ⟨res₂, k₅, hfread, hdone⟩ := bind_eq_ok.mp hread
  have hout : ∀ a, InShelter B a → a < record ∨ record + sizeofElfFile ≤ a := hrecord hne
  -- the address of the file goes into the record
  obtain rfl : k₄ = { k₃ with memory := store32 k₃.memory (record + 112) (BitVec.ofNat 32 base) } :=
    (Prod.mk.inj (Except.ok.inj hstore)).2.symm
  have h₄ : Sheltered B E m { k₃ with memory := store32 k₃.memory (record + 112) (BitVec.ofNat 32 base) } := by
    refine h₂.store fun a ha => store32_of_outside ?_
    have hbeside := hout a ha
    unfold sizeofElfFile at hbeside
    omega
  have h₅ : Sheltered B E m k₅ := fread_sheltered h₄ (hopen.congr htable) hfile.pos hbase hfread
  split at hdone
  · cases hdone
    exact h₅
  · obtain ⟨_, k₆, hderef', hprocess⟩ := bind_eq_ok.mp hdone
    obtain ⟨_, rfl⟩ := deref_run hderef'
    obtain ⟨_, rfl⟩ := Prod.mk.inj (Except.ok.inj hprocess)
    refine h₅.store fun a ha => elfProcessLoaded_outside ?_
    have hbeside := hout a ha
    omega

/-- Closing the file in use. -/
theorem fclose_sheltered (hused : Using (Heap.Shields B E) (Misses B) k₀ i volume data k) (h : Sheltered B E m k)
    (hrun : fclose ((i : Int) + 1) k = .ok (res, k')) : Sheltered B E m k' := by
  obtain ⟨addr, heap, memory, haddr, hk⟩ := hused.kernel
  by_cases hi : i < 511
  · have hslot : k.fileDescriptors i = some (openedDescriptor i addr volume data) := by
      rw [hk]
      exact Function.update_self ..
    have hin : ¬ ((i : Int) + 1 ≤ 0 ∨ (bimbleosMaxFileDescriptors : Int) ≤ (i : Int) + 1) := by
      unfold bimbleosMaxFileDescriptors
      omega
    have hindex : ((i : Int) + 1 - 1).toNat = i := by omega
    unfold fclose at hrun
    rw [bind_of_ok (fileGetDescriptor_eq _ k), if_neg hin, hindex, hslot] at hrun
    obtain ⟨data', k₁, hdata, hclosing⟩ := bind_eq_ok.mp hrun
    cases hdata
    obtain ⟨code, k₂, hclose, hrest⟩ := bind_eq_ok.mp hclosing
    have h₂ := (fat16Close_keeps shelteredClient.free hused.blocks k code k₂ h hclose).2
    have hlast : Triple (Sheltered B E m) (do
        if code = bimbleosAllOk then
          setDescriptor (i + 1 - 1) none
          kfree addr
          return code
        else return code : KM Int) fun _ => Sheltered B E m := by
      refine Triple.ite (fun _ => ?_) fun _ => Triple.pure fun _ hk => hk
      refine Triple.bind setDescriptor_sheltered fun _ => ?_
      exact Triple.bind (shelteredClient.kfree haddr) fun _ => Triple.pure fun _ hk => hk
    exact hlast k₂ res k' h₂ hrest
  · obtain rfl := (fclose_using (shieldRule B E) hused hrun).2.2 (by omega)
    exact h

end Using

/-- **`elf_load`** leaves the shelter alone. -/
theorem elfLoad_sheltered : Triple (Sheltered B E m) (elfLoad drive filename) fun _ => Sheltered B E m := by
  intro k r k' h hrun
  obtain ⟨record, k₁, halloc, hrest⟩ := bind_eq_ok.mp hrun
  obtain ⟨hrecord, _, h₁⟩ := kzalloc_beside h (by decide) halloc
  obtain ⟨fd, k₂, hopen, hopened⟩ := bind_eq_ok.mp hrest
  have h₂ := fopen_sheltered k₁ fd k₂ h₁ hopen
  rcases fopen_using (shieldRule B E) h₁.shields hopen with ⟨rfl, _⟩ | ⟨i, volume, data, rfl, hfile, hused⟩
  · -- closing descriptor 0 does nothing
    rw [if_pos (Int.le_refl 0)] at hopened
    obtain ⟨code, k₃, hclose, hdone⟩ := bind_eq_ok.mp hopened
    have hnone : fclose 0 k₂ = .ok (- EIO, k₂) := rfl
    rw [hnone] at hclose
    cases hclose
    cases hdone
    exact h₂
  · rw [if_neg (by omega)] at hopened
    obtain ⟨res, k₃, hread, hafter⟩ := bind_eq_ok.mp hopened
    obtain ⟨hused₃, _⟩ := elfReadFile_run (shieldRule B E) hused hfile hread
    have h₃ := elfReadFile_sheltered hused hfile h₂ hrecord hread
    obtain ⟨closed, k₄, hclose, hdone⟩ := bind_eq_ok.mp hafter
    have h₄ := fclose_sheltered hused₃ h₃ hclose
    split at hdone
    · cases hdone
      exact h₄
    · cases hdone
      exact h₄

/-! ## `process.c` -/

theorem modifyProcess_sheltered {process : Nat} {f : Process → Process} :
    Triple (Sheltered B E m) (modifyProcess process f) fun _ => Sheltered B E m :=
  Triple.modify fun _ hk => hk.congr rfl rfl

theorem processLoadBinary_sheltered {process : Nat} :
    Triple (Sheltered B E m) (processLoadBinary drive filename process) fun _ => Sheltered B E m := by
  intro k res k' h hrun
  obtain ⟨fd, k₁, hopen, hopened⟩ := bind_eq_ok.mp hrun
  have h₁ := fopen_sheltered k fd k₁ h hopen
  rcases fopen_using (shieldRule B E) h.shields hopen with ⟨rfl, _⟩ | ⟨i, volume, data, rfl, hfile, hused⟩
  · cases hopened
  rw [if_neg (by omega)] at hopened
  obtain ⟨⟨res₁, stat⟩, k₂, hstat, hrest⟩ := bind_eq_ok.mp hopened
  change (if res₁ ≠ bimbleosAllOk then throw .uninitialised else _ : KM Int) k₂ = _ at hrest
  obtain ⟨rfl, hcases⟩ := fstat_using hused hfile hstat
  by_cases hbad : res₁ ≠ bimbleosAllOk
  · rw [if_pos hbad] at hrest
    cases hrest
  rw [if_neg hbad] at hrest
  rcases hcases with ⟨hneg, _⟩ | ⟨copy, entry, rfl, hi, hentry, hsize, hopenFile⟩
  · exact absurd hneg (by rw [not_not.mp hbad]; decide)
  rw [hsize] at hrest
  obtain ⟨ptr, k₃, halloc, hafter⟩ := bind_eq_ok.mp hrest
  obtain ⟨hbeside, hptr, h₃⟩ := kzalloc_beside h₁ entry.filesize.isLt halloc
  have htable := kzalloc_table halloc
  have hused₃ := (hused.alloc (shieldRule B E) entry.filesize.isLt halloc).2
  by_cases hnull : ptr = 0
  · rw [if_pos hnull] at hafter
    obtain ⟨closed, k₄, hclose, hdone⟩ := bind_eq_ok.mp hafter
    cases hdone
    exact fclose_sheltered hused₃ h₃ hclose
  rw [if_neg hnull] at hafter
  obtain ⟨read, k₄, hread, hchecked⟩ := bind_eq_ok.mp hafter
  have h₄ : Sheltered B E m k₄ := fread_sheltered h₃ (hopenFile.congr htable) hfile.pos hbeside hread
  have hused₄ := hused₃.fread (hopenFile.congr htable) hfile.pos hread
  by_cases hone : read ≠ 1
  · rw [if_pos hone] at hchecked
    obtain ⟨_, k₅, hfree, hclosing⟩ := bind_eq_ok.mp hchecked
    have h₅ := shelteredClient.kfree hptr k₄ () k₅ h₄ hfree
    cases hfree
    obtain ⟨closed, k₆, hclose, hdone⟩ := bind_eq_ok.mp hclosing
    cases hdone
    exact fclose_sheltered (hused₄.dealloc (shieldRule B E) hptr) h₅ hclose
  · rw [if_neg hone] at hchecked
    obtain ⟨_, k₅, hwrite, hclosing⟩ := bind_eq_ok.mp hchecked
    have h₅ := modifyProcess_sheltered k₄ () k₅ h₄ hwrite
    cases hwrite
    obtain ⟨closed, k₆, hclose, hdone⟩ := bind_eq_ok.mp hclosing
    cases hdone
    exact fclose_sheltered hused₄.setProcess h₅ hclose

theorem processLoadData_sheltered {process : Nat} :
    Triple (Sheltered B E m) (processLoadData drive filename process) fun _ => Sheltered B E m := by
  have hpure : ∀ res : Int, Triple (Sheltered B E m) (pure res : KM Int) fun _ => Sheltered B E m := fun _ =>
    Triple.pure fun _ hk => hk
  refine Triple.bind (R := fun _ => Sheltered B E m) ?_ fun res => ?_
  · refine Triple.bind elfLoad_sheltered fun r => ?_
    rcases r with ⟨res, elfFile⟩
    exact Triple.ite (fun _ => hpure res) fun _ => Triple.bind modifyProcess_sheltered fun _ => hpure res
  · exact Triple.ite (fun _ => processLoadBinary_sheltered) fun _ => hpure res

/-- `task_new` where it returns a task. -/
theorem taskNew_sheltered {process : Nat} :
    Triple (Sheltered B E m) (Kernel.taskNew process) fun r k => (∃ task, r = .ok task) → Sheltered B E m k := by
  unfold Kernel.taskNew
  refine Triple.bind (kzalloc_sheltered (by decide)) fun task => Triple.const fun _ => ?_
  have herror : ∀ res : Int, Triple (fun _ => True) (pure (.error res) : KM (Except Int Nat))
      fun r k => (∃ task, r = .ok task) → Sheltered B E m k := by
    refine fun res => Triple.pure fun _ _ hok => ?_
    obtain ⟨_, hok⟩ := hok
    cases hok
  refine Triple.ite (fun _ => Triple.bind (fun _ _ _ _ _ => True.intro) fun _ => herror _) fun _ => ?_
  refine Triple.bind (R := fun _ => Sheltered B E m) ?_ fun res => ?_
  · unfold Kernel.taskInit
    refine Triple.bind pagingNew_sheltered fun d => Triple.const fun _ => ?_
    refine Triple.ite (fun _ => Triple.pure fun _ hk => hk) fun _ => ?_
    refine Triple.bind (R := fun _ => Sheltered B E m) ?_ fun ip => ?_
    · intro k ip k' hk hrun
      obtain ⟨_, _, hentry⟩ := entryPoint_eq process k
      rw [hentry] at hrun
      cases hrun
      exact hk.congr rfl rfl
    · refine Triple.bind (Triple.modify fun k hk => ?_) fun _ => Triple.pure fun _ hk => hk
      exact hk.congr rfl rfl
  · refine Triple.ite (fun _ => Triple.bind (fun _ _ _ _ _ => True.intro) fun _ => herror _) fun _ => ?_
    refine Triple.bind (Triple.modify fun k hk => ?_) fun _ => Triple.pure fun _ hk _ => hk
    exact hk.congr rfl rfl

theorem processFill_sheltered {process slot : Nat} :
    Triple (Sheltered B E m) (processFill drive filename process slot) fun _ => Sheltered B E m := by
  unfold processFill
  have hpure : ∀ res : Int, Triple (Sheltered B E m) (pure res : KM Int) fun _ => Sheltered B E m := fun _ =>
    Triple.pure fun _ hk => hk
  refine Triple.bind processLoadData_sheltered fun res => Triple.ite (fun _ => hpure res) fun _ => ?_
  refine Triple.bind (kzalloc_sheltered (by decide)) fun stack => Triple.const fun _ => ?_
  refine Triple.ite (fun _ => hpure _) fun _ => ?_
  refine Triple.bind modifyProcess_sheltered fun _ => Triple.bind taskNew_sheltered fun task => ?_
  cases task with
  | error res => exact Triple.throw
  | ok task =>
      refine Triple.pre (P := Sheltered B E m) (fun k hk => hk ⟨task, rfl⟩) ?_
      refine Triple.bind modifyProcess_sheltered fun _ => ?_
      intro k res k' hk hrun
      obtain ⟨_, _, _, _, _, rfl⟩ := kernelProcessMapMemory_run hrun
      exact hk.congr rfl rfl

/-- **A load that succeeds** leaves the memory outside the blocks that were free as it was. -/
theorem processLoad_sheltered {process : Nat} (hclean : k.heap.Clean)
    (hrun : processLoad drive filename k = .ok ((0, process), k')) : Sheltered k.heap.taken ∅ k.memory k' := by
  have h : Sheltered k.heap.taken ∅ k.memory k := by
    obtain ⟨hready, htaken, hborder, _⟩ := hclean.shields
    exact ⟨⟨hready, htaken, hborder, fun b hb => hb.elim⟩, fun a _ => rfl⟩
  obtain ⟨slot, k₁, k₂, _, halloc, _, hfill, rfl⟩ := processLoad_fill hrun
  obtain ⟨_, h₁⟩ := kzalloc_sheltered (by decide) k process k₁ h halloc
  have h₂ : Sheltered k.heap.taken ∅ k.memory (k₁.setProcess process {}) := h₁.congr rfl rfl
  exact (processFill_sheltered _ 0 k₂ h₂ hfill).congr rfl rfl

end Memory

end BimbleOS
