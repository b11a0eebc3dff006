import BimbleOS.Fs.FileUse

/-!
# `Fs.FileBlocks` — the blocks that `fopen` and `fclose` leave behind

`fclose` gives back what `fat16_open` and `file_new_descriptor` allocated, and puts the table of open files
back. The parsed path is never given back: `pathparser_free` is not called. So the blocks of its root, and
of its parts, stay taken whether the file was opened or not, and only a path that is rejected before the
root is allocated leaves the heap as it was (`openClose_restores_iff`).
-/

namespace BimbleOS

open Exec

/-- `fopen`, and `fclose` when there is a descriptor. -/
def openClose (drive : Drive) (filename modeStr : List (BitVec 8)) : KM Int := do
  let fd ← fopen drive filename modeStr
  if 0 < fd then
    let _ ← fclose fd
    return fd
  else return fd

/-- `pathparser_parse` refuses the path: it is too long, or does not start with a drive. -/
def PathRejected (path : List (BitVec 8)) : Prop :=
  bimbleosMaxPath < strlen path ∨ (pathparserGetDriveByPath path).1 < 0

section Parse

variable {k k' : Kernel} {path : List (BitVec 8)}

/-- A path that is refused costs nothing. -/
theorem pathparserParse_rejected (h : PathRejected path) : pathparserParse path k = .ok (none, k) := by
  unfold pathparserParse
  by_cases hlong : bimbleosMaxPath < strlen path
  · rw [if_pos hlong]
    rfl
  · rw [if_neg hlong]
    show (if (pathparserGetDriveByPath path).1 < 0 then _ else _ : KM _) k = _
    rw [if_pos (h.resolve_left hlong)]
    rfl

/-- Any other path gets a root, which is not given back. -/
theorem pathparserParse_rooted {r : Option PathRoot} (h : ¬ PathRejected path)
    (hrun : pathparserParse path k = .ok (r, k')) :
    ∃ addr k₁, kzalloc sizeofPathRoot k = .ok (addr, k₁) ∧ addr ≠ 0 ∧ HeapOnly k₁ k' := by
  obtain ⟨hlong, hdrive⟩ := not_or.mp h
  unfold pathparserParse at hrun
  rw [if_neg hlong] at hrun
  change (if (pathparserGetDriveByPath path).1 < 0 then _ else _ : KM _) k = _ at hrun
  rw [if_neg hdrive] at hrun
  obtain ⟨root, k₁, hroot, hrest⟩ := bind_eq_ok.mp hrun
  obtain ⟨addr, halloc, hne, rfl⟩ := pathparserCreateRoot_run hroot
  obtain ⟨parts, k₄, hparts, hdone⟩ := bind_eq_ok.mp hrest
  cases hdone
  refine ⟨addr, k₁, halloc, hne, fun P Ok hr hP => ?_⟩
  exact pathparserParseParts_keeps hr.client k₁ parts k' (Keeps.refl hP) hparts

end Parse

section OpenClose

variable {drive : Drive} {filename modeStr : List (BitVec 8)} {k k' : Kernel} {fd : Int}

theorem fopen_rejected (h : PathRejected filename) : fopen drive filename modeStr k = .ok (0, k) := by
  unfold fopen fopenResult
  rw [bind_of_ok (bind_of_ok (pathparserParse_rejected h))]
  rfl

/-- **`fopen` behind the root of the path**: from there on the heap changes as its clients change it. -/
theorem fopen_rooted (h : ¬ PathRejected filename) (hrun : fopen drive filename modeStr k = .ok (fd, k')) :
    ∃ addr k₁, kzalloc sizeofPathRoot k = .ok (addr, k₁) ∧ addr ≠ 0 ∧
      ∀ (P : Heap → Prop) (Ok : Nat → Prop), HeapRule P Ok → P k₁.heap → (fd = 0 ∧ Keeps P k₁ k') ∨
        ∃ (i : Nat) (volume : FatVolume) (data : FatFileDescriptor), fd = i + 1 ∧
          Using P Ok k₁ i volume data k' := by
  by_cases hopens : ∃ volume data k₁, OpensFile drive filename modeStr k volume data k₁
  · obtain ⟨volume, data, k₂, hopens⟩ := hopens
    obtain ⟨rootPath, k₀, hparse, _, _, hopen⟩ := hopens.opens
    obtain ⟨addr, k₁, halloc, hne, hparts⟩ := pathparserParse_rooted h hparse
    refine ⟨addr, k₁, halloc, hne, fun P Ok hr hP => ?_⟩
    obtain ⟨hblocks, hkeeps⟩ := fat16Open_keeps hr.client k₀ _ k₂ (hparts P Ok hr hP) hopen
    have htable : k₁.fileDescriptors = k₂.fileDescriptors := by
      obtain ⟨_, heap, memory, rfl⟩ := hkeeps
      rfl
    cases fopen_outcome hrun with
    | missing hmissing => exact absurd hopens (hmissing volume data k₂)
    | full hopens' =>
        rw [(hopens.same hopens').2] at hkeeps
        exact Or.inl ⟨rfl, hkeeps⟩
    | @opened volume' data' k₂' k₃ i desc hopens' hfirst hdesc _ =>
        obtain ⟨rfl, rfl⟩ := hopens.same hopens'
        obtain ⟨haddr, hP₃, heap, memory, rfl⟩ := kzalloc_keeps hr (by decide) k₂ desc k₃ hkeeps hdesc
        refine Or.inr ⟨i, volume', data, rfl, hP₃, hfirst.lt, ?_, hblocks data rfl, ?_⟩
        · rw [htable]
          exact hfirst.free
        · exact ⟨desc, heap, memory, haddr, rfl⟩
  · have hmissing : ∀ volume data k₁, ¬ OpensFile drive filename modeStr k volume data k₁ :=
      fun volume data k₁ h => hopens ⟨volume, data, k₁, h⟩
    obtain ⟨res, k₂, hres, hneg⟩ := bind_eq_ok.mp hrun
    obtain ⟨hres₀, root, k₀, hparse, hheap⟩ := fopenResult_missing hmissing hres
    rw [if_pos hres₀] at hneg
    cases hneg
    obtain ⟨addr, k₁, halloc, hne, hparts⟩ := pathparserParse_rooted h hparse
    exact ⟨addr, k₁, halloc, hne, fun P Ok hr hP => Or.inl ⟨rfl, (hparts.trans hheap) P Ok hr hP⟩⟩

/-- From the root on, the descriptor is opened and closed again, and what the heap's clients keep is kept. -/
theorem openClose_rooted (h : ¬ PathRejected filename)
    (hrun : openClose drive filename modeStr k = .ok (fd, k')) :
    ∃ addr k₁, kzalloc sizeofPathRoot k = .ok (addr, k₁) ∧ addr ≠ 0 ∧
      ∀ (P : Heap → Prop) (Ok : Nat → Prop), HeapRule P Ok → P k₁.heap → P k'.heap := by
  obtain ⟨fd', k₂, hopen, hrest⟩ := bind_eq_ok.mp hrun
  obtain ⟨addr, k₁, halloc, hne, hafter⟩ := fopen_rooted h hopen
  refine ⟨addr, k₁, halloc, hne, fun P Ok hr hP => ?_⟩
  rcases hafter P Ok hr hP with ⟨rfl, hkeeps⟩ | ⟨i, volume, data, rfl, husing⟩
  · cases hrest
    exact hkeeps.1
  · have hpos : 0 < (i : Int) + 1 := by omega
    change (if 0 < (i : Int) + 1 then _ else _ : KM Int) k₂ = _ at hrest
    rw [if_pos hpos] at hrest
    obtain ⟨res, k₃, hclose, hdone⟩ := bind_eq_ok.mp hrest
    cases hdone
    exact (fclose_using hr husing hclose).1

/-- The block of the root was free before, and is taken at the end. -/
theorem openClose_leaks (hclean : k.heap.Clean) (h : ¬ PathRejected filename)
    (hrun : openClose drive filename modeStr k = .ok (fd, k')) : ∃ b, b ∉ k.heap.taken ∧ b ∈ k'.heap.taken := by
  obtain ⟨addr, k₁, halloc, hne, hafter⟩ := openClose_rooted h hrun
  obtain ⟨hclean₁, b, hfree, htaken⟩ := kzalloc_taken hclean (by decide) (by decide) halloc hne
  -- what is taken behind the root is a shield of the rest of the run
  have hshields := hafter _ _ (shieldRule k₁.heap.taken _) hclean₁.shields
  exact ⟨b, hfree, hshields.taken htaken⟩

end OpenClose

/-- **Opening and closing a file leaves the blocks and the table as they were** exactly when its path is
    refused before anything is allocated. -/
theorem openClose_restores_iff {drive : Drive} {filename modeStr : List (BitVec 8)} {k k' : Kernel} {fd : Int}
    (hclean : k.heap.Clean) (hrun : openClose drive filename modeStr k = .ok (fd, k')) :
    k'.heap.taken = k.heap.taken ∧ k'.fileDescriptors = k.fileDescriptors ↔ PathRejected filename := by
  constructor
  · rintro ⟨htaken, _⟩
    by_contra haccepted
    obtain ⟨b, hfree, hleft⟩ := openClose_leaks hclean haccepted hrun
    rw [htaken] at hleft
    exact hfree hleft
  · intro hrejected
    have hnone : openClose drive filename modeStr k = .ok (0, k) := by
      unfold openClose
      rw [bind_of_ok (fopen_rejected hrejected)]
      rfl
    rw [hnone] at hrun
    cases hrun
    exact ⟨rfl, rfl⟩

/-- The file on `splitDrive` is opened and closed after the boot. -/
theorem splitDrive_openClose : ∃ fd k', openClose splitDrive splitPath readMode bootKernel = .ok (fd, k') := by
  have hfirst : FirstFree bootKernel 0 := ⟨by decide, rfl, fun j hj => absurd hj (Nat.not_lt_zero j)⟩
  obtain ⟨data, copy, addr, _, k₁, _, hopen, hroom, hbody, hcopy, _, htable⟩ :=
    splitDrive_rootFile.opens (Kernel.room_nil (bootKernel_tailRoom (n := 8) (by decide))) hfirst
  have hfile := OpenFile.of_table (by decide) htable hbody hcopy
  obtain ⟨res, k₂, hclose, _⟩ := hfile.closes hroom.room
  refine ⟨1, k₂, ?_⟩
  unfold openClose
  rw [bind_of_ok hopen]
  exact bind_of_ok hclose

theorem openClose_restores_iff_split : ∃ fd k', openClose splitDrive splitPath readMode bootKernel = .ok (fd, k') ∧
    (k'.heap.taken = bootKernel.heap.taken ∧ k'.fileDescriptors = bootKernel.fileDescriptors ↔
      PathRejected splitPath) := by
  obtain ⟨fd, k', hrun⟩ := splitDrive_openClose
  exact ⟨fd, k', hrun, openClose_restores_iff bootKernel_clean hrun⟩

/-- A file that is opened and closed costs the blocks of its path. -/
theorem openClose_keeps_path :
    ¬ ∀ (drive : Drive) (filename modeStr : List (BitVec 8)) (k k' : Kernel) (fd : Int), k.heap.Clean →
      openClose drive filename modeStr k = .ok (fd, k') →
      k'.heap.taken = k.heap.taken ∧ k'.fileDescriptors = k.fileDescriptors := by
  intro h
  obtain ⟨fd, k', hrun⟩ := splitDrive_openClose
  have haccepted : ¬ PathRejected splitPath := by
    rintro (hlong | hdrive)
    · exact absurd hlong (by decide)
    · exact absurd hdrive (by decide)
  obtain ⟨b, hfree, hleft⟩ := openClose_leaks bootKernel_clean haccepted hrun
  rw [(h _ _ _ _ _ _ bootKernel_clean hrun).1] at hleft
  exact hfree hleft

end BimbleOS
