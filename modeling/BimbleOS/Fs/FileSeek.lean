import BimbleOS.Fs.FileTag

/-!
# `Fs.FileSeek` — the position of an open file over runs of `fseek`

`fat16_seek` compares its offset with the size of the file, but a relative seek adds the offset to a position that
is not compared with anything. So the position stays in the file exactly as long as no relative seek from inside the
file leads to its end or behind it (`fseek_runs_law_iff`); the sum is a `uint32_t`, and one that wraps is inside
again.
-/

namespace BimbleOS

open CWord Exec Transition

/-- The arguments of an `fseek` call. -/
structure SeekCall where
  offset : Int
  whence : SeekMode
  deriving DecidableEq, Repr

/-- A kernel, what the last `fseek` call returned, and the position of the descriptor in front of that call. -/
structure SeekState where
  kernel : Kernel
  code : Int
  before : Option Nat

/-- Nothing was called yet. -/
def SeekState.start (fd : Int) (k : Kernel) : SeekState where
  kernel := k
  code := 0
  before := k.filePos fd

/-- An `fseek` call on `fd` that returned. -/
inductive SeekStep (fd : Int) : SeekState → SeekCall → SeekState → Prop where
  | call {s : SeekState} {call : SeekCall} {res : Int} {k' : Kernel} :
      fseek fd call.offset call.whence s.kernel = .ok (res, k') →
      SeekStep fd s call { kernel := k', code := res, before := s.kernel.filePos fd }

/-- What holds in a good state: the position is in the file, and a call that failed left it as it was. -/
structure SeekLaw (fd : Int) (filesize : Nat) (s : SeekState) : Prop where
  below : ∃ pos, s.kernel.filePos fd = some pos ∧ pos < filesize
  kept : s.code < 0 → s.kernel.filePos fd = s.before

/-- The condition on a call: a relative seek whose offset is accepted stays in front of the end, or wraps. No call
    reaches descriptor 512. -/
def SeekCall.StaysBelow (fd : Int) (filesize : Nat) (s : SeekState) (call : SeekCall) : Prop :=
  fd < 512 → call.whence = .seekCur → u32 call.offset < filesize → ∀ pos, s.kernel.filePos fd = some pos →
    pos + u32 call.offset < filesize ∨ 4294967296 ≤ pos + u32 call.offset

/-- What `fat16_seek` returns for a file, and the position it leaves. -/
def seekTo (filesize pos offset : Nat) (mode : SeekMode) : Int × Nat :=
  if filesize ≤ offset then (- EIO, pos)
  else
    match mode with
    | .seekSet => (0, offset)
    | .seekEnd => (-EUNIMP, pos)
    | .seekCur => (0, u32 (pos + offset : Nat))
    | .other => (-EINVARG, pos)

section Position

variable {filesize pos offset : Nat} {mode : SeekMode}

/-- A failed seek does not move. -/
theorem seekTo_kept (h : (seekTo filesize pos offset mode).1 < 0) : (seekTo filesize pos offset mode).2 = pos := by
  unfold seekTo at h ⊢
  by_cases hbehind : filesize ≤ offset
  · rw [if_pos hbehind]
  · rw [if_neg hbehind] at h ⊢
    cases mode with
    | seekSet => exact absurd h (Int.lt_irrefl 0)
    | seekCur => exact absurd h (Int.lt_irrefl 0)
    | seekEnd => rfl
    | other => rfl

/-- From inside the file only a relative seek gets out of it. -/
theorem seekTo_lt_iff (hpos : pos < filesize) (hsize : filesize < 4294967296) :
    (seekTo filesize pos offset mode).2 < filesize ↔
      (mode = .seekCur → offset < filesize → pos + offset < filesize ∨ 4294967296 ≤ pos + offset) := by
  unfold seekTo
  -- the offset is compared with the size, wherever the position is
  by_cases hbehind : filesize ≤ offset
  · rw [if_pos hbehind]
    exact iff_of_true hpos fun _ hin => absurd hbehind (Nat.not_le_of_lt hin)
  rw [if_neg hbehind]
  have hin : offset < filesize := Nat.lt_of_not_le hbehind
  cases mode with
  | seekSet => exact iff_of_true hin fun hmode => by cases hmode
  | seekEnd => exact iff_of_true hpos fun hmode => by cases hmode
  | other => exact iff_of_true hpos fun hmode => by cases hmode
  | seekCur =>
      -- the sum is not compared with anything, and it wraps
      have hsum : u32 ((pos + offset : Nat) : Int) = (pos + offset) % 4294967296 := u32_natCast _
      simp only [hsum, hin, true_implies]
      omega

end Position

section Step

variable {fd : Int} {k k' : Kernel} {i : Nat} {item : FatDirectoryItem} {s s' : SeekState} {call : SeekCall}

/-- On a file `fat16_seek` is `seekTo`. -/
theorem fat16Seek_file {data : FatFileDescriptor} {copy offset : Nat} {mode : SeekMode}
    (hbody : data.item.body = .file copy item) (hcopy : copy ≠ 0) : fat16Seek data offset mode k
      = .ok (((seekTo item.filesize.toNat data.pos offset mode).1,
          { data with pos := (seekTo item.filesize.toNat data.pos offset mode).2 }), k) := by
  unfold fat16Seek seekTo
  simp only [hbody]
  rw [bind_of_ok (deref_of_ne hcopy)]
  by_cases hbehind : item.filesize.toNat ≤ offset
  · simp only [if_pos hbehind]
    rfl
  · simp only [if_neg hbehind]
    cases mode with
    | seekSet => rfl
    | seekCur => rfl
    | seekEnd => rfl
    | other => rfl

/-- It follows the copy of the entry. -/
theorem fat16Seek_copy {data : FatFileDescriptor} {copy offset : Nat} {mode : SeekMode} {r : Int × FatFileDescriptor}
    (hbody : data.item.body = .file copy item) (hrun : fat16Seek data offset mode k = .ok (r, k')) : copy ≠ 0 := by
  unfold fat16Seek at hrun
  simp only [hbody] at hrun
  obtain ⟨_, k₁, hderef, _⟩ := bind_eq_ok.mp hrun
  exact (deref_run hderef).1

/-- Slot `i` holds a descriptor of the file `item`. -/
def HoldsItem (k : Kernel) (i : Nat) (item : FatDirectoryItem) : Prop :=
  ∃ desc data copy, k.fileDescriptors i = some desc ∧ desc.privateData = some data ∧
    data.item.body = .file copy item

/-- The position of a slot. -/
theorem filePos_slot : k.filePos ((i + 1 : Nat) : Int)
    = (k.fileDescriptors i).bind fun desc => desc.privateData.map (·.pos) := by
  have hindex : (((i + 1 : Nat) : Int) - 1).toNat = i := by omega
  unfold Kernel.filePos
  rw [hindex]

/-- **One call** on a descriptor up to 511 moves the position as `seekTo` says. -/
theorem SeekStep.moves (h : HoldsItem s.kernel i item) (hi : i < 511)
    (hstep : SeekStep ((i + 1 : Nat) : Int) s call s') :
    HoldsItem s'.kernel i item ∧ s'.before = s.kernel.filePos ((i + 1 : Nat) : Int) ∧
      ∃ pos, s.kernel.filePos ((i + 1 : Nat) : Int) = some pos ∧
        s'.code = (seekTo item.filesize.toNat pos (u32 call.offset) call.whence).1 ∧
        s'.kernel.filePos ((i + 1 : Nat) : Int)
          = some (seekTo item.filesize.toNat pos (u32 call.offset) call.whence).2 := by
  obtain ⟨desc, data, copy, hslot, hprivate, hbody⟩ := h
  have hindex : (((i + 1 : Nat) : Int) - 1).toNat = i := by omega
  -- `file_get_descriptor` accepts the number
  have hin : ¬ (((i + 1 : Nat) : Int) ≤ 0 ∨ (bimbleosMaxFileDescriptors : Int) ≤ ((i + 1 : Nat) : Int)) := by
    unfold bimbleosMaxFileDescriptors
    omega
  have hpos : s.kernel.filePos ((i + 1 : Nat) : Int) = some data.pos := by
    rw [filePos_slot, hslot, Option.bind_some, hprivate]
    rfl
  cases hstep with
  | @call res k' hrun =>
      unfold fseek at hrun
      rw [bind_of_ok (fileGetDescriptor_eq _ _), if_neg hin, hindex, hslot] at hrun
      obtain ⟨data₁, k₁, hdata, hrest⟩ := bind_eq_ok.mp hrun
      obtain ⟨hsame, rfl⟩ := descriptorData_run hdata
      obtain rfl := Option.some.inj (hprivate.symm.trans hsame)
      obtain ⟨_, k₂, hseek, hset⟩ := bind_eq_ok.mp hrest
      cases (fat16Seek_file hbody (fat16Seek_copy hbody hseek)).symm.trans hseek
      cases hset
      refine ⟨⟨_, _, copy, Function.update_self .., rfl, hbody⟩, rfl, data.pos, hpos, rfl, ?_⟩
      refine filePos_slot.trans ?_
      simp only [Function.update_self, Option.bind_some, Option.map_some]

/-- A call on descriptor 512 fails and moves nothing. -/
theorem SeekStep.last (hstep : SeekStep 512 s call s') :
    s'.kernel = s.kernel ∧ s'.before = s.kernel.filePos 512 := by
  cases hstep with
  | call hrun =>
      cases hrun
      exact ⟨rfl, rfl⟩

/-- **The step lemma**: from a good state a call leads to a good state exactly when it meets the condition. -/
theorem SeekStep.law_iff (h : HoldsItem s.kernel i item) (hi : i < 512)
    (hstep : SeekStep ((i + 1 : Nat) : Int) s call s') :
    HoldsItem s'.kernel i item ∧ (SeekLaw ((i + 1 : Nat) : Int) item.filesize.toNat s →
      (SeekLaw ((i + 1 : Nat) : Int) item.filesize.toNat s' ↔
        call.StaysBelow ((i + 1 : Nat) : Int) item.filesize.toNat s)) := by
  -- descriptor 512 is handed out, and no call finds it
  by_cases hlast : i = 511
  · subst hlast
    obtain ⟨hkernel, hbefore⟩ := SeekStep.last hstep
    rw [hkernel]
    refine ⟨h, fun hlaw => iff_of_true ⟨?_, fun _ => ?_⟩ fun hlt => absurd hlt (by decide)⟩
    · rw [hkernel]
      exact hlaw.below
    · rw [hkernel, hbefore]
      rfl
  · obtain ⟨hheld, hbefore, pos, hpos, hcode, hmoved⟩ := hstep.moves h (by omega)
    refine ⟨hheld, fun hlaw => ?_⟩
    obtain ⟨pos', hpos', hlt⟩ := hlaw.below
    obtain rfl := Option.some.inj (hpos.symm.trans hpos')
    have hmove := @seekTo_lt_iff item.filesize.toNat pos (u32 call.offset) call.whence hlt item.filesize.isLt
    constructor
    · intro hlaw' _ hmode hoffset pos₁ hpos₁
      obtain rfl := Option.some.inj (hpos.symm.trans hpos₁)
      obtain ⟨pos₂, hpos₂, hlt₂⟩ := hlaw'.below
      obtain rfl := Option.some.inj (hmoved.symm.trans hpos₂)
      exact hmove.mp hlt₂ hmode hoffset
    · intro hok
      refine ⟨⟨_, hmoved, hmove.mpr fun hmode hoffset => hok (by omega) hmode hoffset pos hpos⟩, fun hneg => ?_⟩
      rw [hcode] at hneg
      rw [hmoved, hbefore, hpos, seekTo_kept hneg]

end Step

/-- A run of seeks on a file that is held. -/
theorem seekRun_law_iff {i : Nat} {item : FatDirectoryItem} {s₀ s : SeekState} {tr : List (SeekState × SeekCall)}
    (hheld : HoldsItem s₀.kernel i item) (hi : i < 512)
    (hstart : SeekLaw ((i + 1 : Nat) : Int) item.filesize.toNat s₀)
    (htr : Trace (SeekStep ((i + 1 : Nat) : Int)) s₀ tr s) :
    Throughout (SeekLaw ((i + 1 : Nat) : Int) item.filesize.toNat) tr s ↔
      ∀ q ∈ tr, q.2.StaysBelow ((i + 1 : Nat) : Int) item.filesize.toNat q.1 := by
  constructor
  · intro hlaw
    -- the descriptor is held whether the law holds or not
    have hpres : ∀ s e s', HoldsItem s.kernel i item → SeekStep ((i + 1 : Nat) : Int) s e s' →
        HoldsItem s'.kernel i item := fun _ _ _ hheld hstep => (hstep.law_iff hheld hi).1
    refine (htr.guard_of_safe hpres ?_ hheld hlaw).2
    intro s e s' hheld hsafe hstep hsafe'
    exact ((hstep.law_iff hheld hi).2 hsafe).mp hsafe'
  · intro hok
    have hpres : ∀ s e s', (HoldsItem s.kernel i item ∧ SeekLaw ((i + 1 : Nat) : Int) item.filesize.toNat s) →
        e.StaysBelow ((i + 1 : Nat) : Int) item.filesize.toNat s → SeekStep ((i + 1 : Nat) : Int) s e s' →
        HoldsItem s'.kernel i item ∧ SeekLaw ((i + 1 : Nat) : Int) item.filesize.toNat s' := by
      rintro s e s' ⟨hheld, hlaw⟩ hguard hstep
      obtain ⟨hheld', hiff⟩ := hstep.law_iff hheld hi
      exact ⟨hheld', (hiff hlaw).mpr hguard⟩
    exact (Trace.invariant hpres ⟨hheld, hstart⟩ htr hok).imp fun _ hinv => hinv.2

/-- `fopen` leaves the descriptor of a file at its start. -/
theorem fopen_start {drive : Drive} {filename modeStr : List (BitVec 8)} {k k₁ : Kernel} {fd : Int}
    {entry : FatDirectoryItem} (hrun : fopen drive filename modeStr k = .ok (fd, k₁)) (hfd : 0 < fd)
    (hentry : drive.entry filename = some entry) (hfile : entry.isSubdirectory = false) : ∃ i,
      fd = ((i + 1 : Nat) : Int) ∧ i < 512 ∧ HoldsItem k₁ i entry ∧ k₁.filePos fd = some 0 := by
  cases fopen_outcome hrun with
  | missing => exact absurd hfd (Int.lt_irrefl 0)
  | full => exact absurd hfd (Int.lt_irrefl 0)
  | @opened volume data k₂ k₃ i addr hopens hfirst halloc hne =>
      have hat := hopens.fileAt
      obtain ⟨entry', hentry', hdescribes⟩ := hat.entry
      obtain rfl := Option.some.inj (hentry.symm.trans hentry')
      have hslot : Function.update k₃.fileDescriptors i (some (openedDescriptor i addr volume data)) i
          = some (openedDescriptor i addr volume data) := Function.update_self ..
      rcases hdescribes.body with ⟨ptr, _, hsub⟩ | ⟨copy, hbody, _⟩
      · rw [hfile] at hsub
        cases hsub
      · refine ⟨i, rfl, hfirst.lt, ⟨_, data, copy, hslot, rfl, hbody⟩, ?_⟩
        refine filePos_slot.trans ?_
        simp only [hslot, Option.bind_some]
        exact congrArg some hat.pos

/-- **Over every run of `fseek` calls behind `fopen`**, the position stays in the file and failed calls leave it
    exactly when all relative seeks meet the condition. -/
theorem fseek_runs_law_iff {drive : Drive} {filename modeStr : List (BitVec 8)} {k k₁ : Kernel} {fd : Int}
    {entry : FatDirectoryItem} {tr : List (SeekState × SeekCall)} {s : SeekState}
    (hrun : fopen drive filename modeStr k = .ok (fd, k₁)) (hfd : 0 < fd)
    (hentry : drive.entry filename = some entry) (hfile : entry.isSubdirectory = false)
    (hsize : 0 < entry.filesize.toNat) (htr : Trace (SeekStep fd) (SeekState.start fd k₁) tr s) :
    Throughout (SeekLaw fd entry.filesize.toNat) tr s ↔ ∀ q ∈ tr, q.2.StaysBelow fd entry.filesize.toNat q.1 := by
  obtain ⟨i, rfl, hi, hheld, hpos⟩ := fopen_start hrun hfd hentry hfile
  have hstart : SeekLaw ((i + 1 : Nat) : Int) entry.filesize.toNat (SeekState.start ((i + 1 : Nat) : Int) k₁) :=
    ⟨⟨0, hpos, hsize⟩, fun _ => rfl⟩
  exact seekRun_law_iff hheld hi hstart htr

/-! ## Two relative seeks -/

/-- A relative seek to the last byte of a file of 512 bytes. -/
def toLastByte : SeekCall where
  offset := 511
  whence := .seekCur

/-- The descriptor of a file behind a call. -/
def FatFileDescriptor.seek (data : FatFileDescriptor) (item : FatDirectoryItem) (call : SeekCall) : FatFileDescriptor :=
  { data with pos := (seekTo item.filesize.toNat data.pos (u32 call.offset) call.whence).2 }

/-- Seeking in an open file returns, and the file stays open. -/
theorem OpenFile.seek {k : Kernel} {fd : Int} {volume : FatVolume} {data : FatFileDescriptor} {copy : Nat}
    {item : FatDirectoryItem} (call : SeekCall) (h : OpenFile k fd volume data copy item) : ∃ k',
      fseek fd call.offset call.whence k
          = .ok ((seekTo item.filesize.toNat data.pos (u32 call.offset) call.whence).1, k') ∧
      OpenFile k' fd volume (data.seek item call) copy item := by
  obtain ⟨desc, hentry, hfilesystem, hdata⟩ := h.entry
  have hlow := h.low
  have hhigh := h.high
  have hin : ¬ (fd ≤ 0 ∨ (bimbleosMaxFileDescriptors : Int) ≤ fd) := by
    unfold bimbleosMaxFileDescriptors
    omega
  have hmove := @fat16Seek_file k item data copy (u32 call.offset) call.whence h.body h.copy_ne
  have hslot : ∀ data', ∃ desc', Function.update k.fileDescriptors (fd - 1).toNat
      (some { desc with privateData := some data' }) (fd - 1).toNat = some desc' ∧
      desc'.filesystem = some volume ∧ desc'.privateData = some data' := fun data' =>
    ⟨_, Function.update_self .., hfilesystem, rfl⟩
  refine ⟨{ k with
    fileDescriptors := Function.update k.fileDescriptors (fd - 1).toNat
      (some { desc with privateData := some (data.seek item call) }) }, ?_, hlow, hhigh, hslot _, h.body, h.copy_ne⟩
  have hprivate : descriptorData desc k = .ok (data, k) := by
    unfold descriptorData
    rw [hdata]
    rfl
  unfold fseek
  rw [bind_of_ok (fileGetDescriptor_eq fd k), if_neg hin, hentry]
  exact (bind_of_ok hprivate).trans (bind_of_ok hmove)

theorem splitDrive_open : ∃ k₁ data copy, fopen splitDrive splitPath readMode bootKernel = .ok (1, k₁) ∧
    splitDrive.entry splitPath = some splitFile ∧ OpenFile k₁ 1 splitVolume data copy splitFile ∧ data.pos = 0 := by
  have hfirst : FirstFree bootKernel 0 := ⟨by decide, rfl, fun j hj => absurd hj (Nat.not_lt_zero j)⟩
  obtain ⟨data, copy, addr, k₂, k₁, hopens, hrun, _, hbody, hcopy, hpos, htable⟩ :=
    @RootFile.opens splitDrive splitPath splitVolume splitFile 0 0 [] bootKernel splitDrive_rootFile
      (Kernel.room_nil (bootKernel_tailRoom (by decide))) hfirst
  obtain ⟨entry, hentry, hdescribes⟩ := hopens.fileAt.entry
  obtain rfl := hdescribes.entry_of_file hbody
  exact ⟨k₁, data, copy, hrun, hentry, OpenFile.of_table (by decide) htable hbody hcopy, hpos⟩

/-- Two of them in a row are accepted. -/
theorem splitDrive_seeks : ∃ k₁ tr s, fopen splitDrive splitPath readMode bootKernel = .ok (1, k₁) ∧
    splitDrive.entry splitPath = some splitFile ∧ Trace (SeekStep 1) (SeekState.start 1 k₁) tr s ∧
    s.kernel.filePos 1 = some 1022 := by
  obtain ⟨k₁, data, copy, hrun, hentry, hopen, hpos⟩ := splitDrive_open
  obtain ⟨k₂, hfirst, hopen₂⟩ := hopen.seek toLastByte
  obtain ⟨k₃, hsecond, hopen₃⟩ := hopen₂.seek toLastByte
  have htr : Trace (SeekStep 1) (SeekState.start 1 k₁) _ _ := (Trace.nil.snoc (.call hfirst)).snoc (.call hsecond)
  refine ⟨k₁, _, _, hrun, hentry, htr, ?_⟩
  -- 511 and 511 again
  have htwice : (seekTo splitFile.filesize.toNat (seekTo splitFile.filesize.toNat 0 (u32 toLastByte.offset)
      toLastByte.whence).2 (u32 toLastByte.offset) toLastByte.whence).2 = 1022 := by decide
  rw [hopen₃.filePos]
  simp only [FatFileDescriptor.seek, hpos, htwice]

theorem fseek_runs_law_iff_split : ∃ (k₁ : Kernel) (tr : List (SeekState × SeekCall)) (s : SeekState),
    fopen splitDrive splitPath readMode bootKernel = .ok (1, k₁) ∧ s.kernel.filePos 1 = some 1022 ∧
    (Throughout (SeekLaw 1 splitFile.filesize.toNat) tr s ↔
      ∀ q ∈ tr, q.2.StaysBelow 1 splitFile.filesize.toNat q.1) := by
  obtain ⟨k₁, tr, s, hrun, hentry, htr, hpos⟩ := splitDrive_seeks
  exact ⟨k₁, tr, s, hrun, hpos, fseek_runs_law_iff hrun (by decide) hentry (by decide) (by decide) htr⟩

/-- Two seeks inside the file lead out of it. -/
theorem fseek_leaves_file : ¬ ∀ (drive : Drive) (filename modeStr : List (BitVec 8)) (k k₁ : Kernel) (fd : Int)
    (entry : FatDirectoryItem) (tr : List (SeekState × SeekCall)) (s : SeekState),
    fopen drive filename modeStr k = .ok (fd, k₁) → 0 < fd → drive.entry filename = some entry →
    entry.isSubdirectory = false → 0 < entry.filesize.toNat → Trace (SeekStep fd) (SeekState.start fd k₁) tr s →
    Throughout (SeekLaw fd entry.filesize.toNat) tr s := by
  intro h
  obtain ⟨k₁, tr, s, hrun, hentry, htr, hpos⟩ := splitDrive_seeks
  have hlaw := h splitDrive splitPath readMode bootKernel k₁ 1 splitFile tr s hrun (by decide) hentry (by decide)
    (by decide) htr
  obtain ⟨pos, hpos', hlt⟩ := hlaw.2.below
  obtain rfl := Option.some.inj (hpos.symm.trans hpos')
  exact absurd hlt (by decide)

end BimbleOS
