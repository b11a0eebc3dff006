import BimbleOS.Fs.Fat16
import Mathlib.Data.Nat.Count

/-!
# `Fs.Directory` — finding an item in a directory

A directory is a sequence of slots on the disk, up to the first one without a name. The number of items
that is kept for it counts the slots that are not deleted, but the array that is loaded and the search
through it take that many slots from the start, deleted ones included. A search is right exactly when the
last slot with the name among them is in use, or no slot at all in use has it
(`fat16FindItemInDirectory_iff`).
-/

namespace BimbleOS

open Bytes CWord Exec Window

/-! ## The slots of a directory -/

/-- Slot `i` of the directory that starts at byte `start` of the disk. -/
def slotItem (disk : Disk) (start i : Nat) : FatDirectoryItem :=
  FatDirectoryItem.ofBytes (window disk.byte (start + 32 * i) 32) 0

/-- Slot `i` is not deleted. -/
def InUse (disk : Disk) (start i : Nat) : Prop := disk.byte (start + 32 * i) ≠ 0xE5

instance (disk : Disk) (start : Nat) : DecidablePred (InUse disk start) :=
  fun _ => inferInstanceAs (Decidable (_ ≠ _))

/-- The slots end before slot `t`. -/
structure Terminated (disk : Disk) (start t : Nat) : Prop where
  last : disk.byte (start + 32 * t) = 0x00
  before : ∀ i, i < t → disk.byte (start + 32 * i) ≠ 0x00

/-- The 8.3 name of an item, and a C string, without regard to case. -/
def HasName (item : FatDirectoryItem) (name : List (BitVec 8)) : Prop :=
  (fat16GetFullRelativeFilename item).map tolower = (name.takeWhile (· ≠ 0)).map tolower

/-- Some slot in use has the name. -/
def Listed (disk : Disk) (start t : Nat) (name : List (BitVec 8)) : Prop :=
  ∃ i, i < t ∧ InUse disk start i ∧ HasName (slotItem disk start i) name

/-- The number of items of a subdirectory, unless computing it is undefined. -/
def subdirectoryTotal (disk : Disk) (fs : FatPrivate) (item : FatDirectoryItem) : Option Int :=
  (fat16ClusterToSector fs (fat16GetFirstCluster item)).bind fun sector =>
    fat16GetTotalItemsForDirectory disk (u32 sector)

/-- `directory_size`. -/
def directorySize (total : Int) : Int := s32 (u32 (total * sizeofFatDirectoryItem))

/-- What the disk holds for a subdirectory, with the result of reading it; `none` is undefined. -/
def readDirectory (disk : Disk) (fs : FatPrivate) (item : FatDirectoryItem) : Option (Int × FatDirectory) :=
  (subdirectoryTotal disk fs item).bind fun total =>
    (fat16ReadInternal disk fs (fat16GetFirstCluster item) 0 (directorySize total)).map fun r =>
      (r.1, { item := directoryItems r.2 total.toNat, total := total })

/-- The directory that an item leads to. -/
def subdirectory (disk : Disk) (fs : FatPrivate) (item : FatDirectoryItem) : Option FatDirectory :=
  if item.isSubdirectory then
    (readDirectory disk fs item).bind fun r => if r.1 = bimbleosAllOk then some r.2 else none
  else none

/-- An item on the heap that describes a directory entry: it points to a copy of the entry, or to the
    directory that the entry leads to. -/
inductive Describes (disk : Disk) (fs : FatPrivate) (entry : FatDirectoryItem) : FatItem → Prop where
  | file {addr copy : Nat} : entry.isSubdirectory = false → copy ≠ 0 →
      Describes disk fs entry { addr := addr, body := .file copy entry }
  | directory {addr dir items : Nat} {content : FatDirectory} : dir ≠ 0 →
      subdirectory disk fs entry = some content →
      Describes disk fs entry { addr := addr, body := .directory (.live dir items content) }

/-- An item that was made of a directory entry, however the heap answered: its copy may be null, and its
    directory null or freed. -/
inductive MadeOf (disk : Disk) (fs : FatPrivate) (entry : FatDirectoryItem) : FatItem → Prop where
  | file {addr copy : Nat} : entry.isSubdirectory = false →
      MadeOf disk fs entry { addr := addr, body := .file copy entry }
  | directory {addr : Nat} {ptr : FatDirectoryPtr} {k k' : Kernel} : entry.isSubdirectory = true →
      fat16LoadFatDirectory disk fs entry k = .ok (ptr, k') →
      MadeOf disk fs entry { addr := addr, body := .directory ptr }

/-- A search result as it should be: an item exactly when the name is listed, and one that describes such
    an entry. -/
structure FindsEntry (disk : Disk) (fs : FatPrivate) (start t : Nat) (name : List (BitVec 8))
    (r : Option FatItem) : Prop where
  found : (∃ item, r = some item) ↔ Listed disk start t name
  describes : ∀ item, r = some item → ∃ i, i < t ∧ InUse disk start i ∧
    HasName (slotItem disk start i) name ∧ Describes disk fs (slotItem disk start i) item

/-- A directory that was loaded from byte `start` of the disk: the root directory, or a subdirectory that
    fits into its cluster. -/
inductive LoadedFrom (disk : Disk) (fs : FatPrivate) (start t : Nat) : FatDirectory → Prop where
  | root {k k' : Kernel} {root : RootDirectory} : start = fs.header.rootDirSectorPos * 512 →
      t ≤ fs.header.rootDirEntries.toNat →
      fat16GetRootDirectory disk fs.header k = .ok (.ok root, k') →
      LoadedFrom disk fs start t root.directory
  | subdirectory {k k' : Kernel} {item : FatDirectoryItem} {dir items : Nat} {content : FatDirectory} :
      2 ≤ fat16GetFirstCluster item → start = fs.clusterPos (fat16GetFirstCluster item) 0 →
      32 * t < fs.clusterBytes →
      fat16LoadFatDirectory disk fs item k = .ok (.live dir items content, k') →
      LoadedFrom disk fs start t content

/-- The structure at a multiple of its size in a window is the one at that place. -/
theorem ofBytes_window {f : Nat → BitVec 8} {s n i : Nat} (h : 32 * i + 32 ≤ n) :
    FatDirectoryItem.ofBytes (window f s n) (32 * i)
      = FatDirectoryItem.ofBytes (window f (s + 32 * i) 32) 0 := by
  have hbyte : ∀ a, a < 32 → (window f s n).getD (32 * i + a) 0
      = (window f (s + 32 * i) 32).getD (0 + a) 0 := by
    intro a ha
    rw [getD_window (by omega), getD_window (by omega), Nat.zero_add, Nat.add_assoc]
  have hwindow : ∀ a b, a + b ≤ 32 → window (fun a => (window f s n).getD (32 * i + a) 0) a b
      = window (fun a => (window f (s + 32 * i) 32).getD (0 + a) 0) a b :=
    fun a b hab => window_inj.mpr fun j hj => hbyte (a + j) (by omega)
  have hword : ∀ a, a + 2 ≤ 32 → load16 (fun a => (window f s n).getD (32 * i + a) 0) a
      = load16 (fun a => (window f (s + 32 * i) 32).getD (0 + a) 0) a :=
    fun a ha => load16_congr fun j hj => hbyte (a + j) (by omega)
  have hdword : load32 (fun a => (window f s n).getD (32 * i + a) 0) 28
      = load32 (fun a => (window f (s + 32 * i) 32).getD (0 + a) 0) 28 :=
    load32_congr fun j hj => hbyte (28 + j) (by omega)
  have hfields := FatDirectoryItem.mk.injEq
  unfold FatDirectoryItem.ofBytes
  simp only [hfields]
  exact ⟨hwindow 0 8 (by decide), hwindow 8 3 (by decide), hbyte 11 (by decide), hword 20 (by decide),
    hword 26 (by decide), hdword⟩

/-- The name field of a slot. -/
theorem slotItem_filename (disk : Disk) (start i : Nat) :
    (slotItem disk start i).filename = window disk.byte (start + 32 * i) 8 := by
  show window (fun a => (window disk.byte (start + 32 * i) 32).getD (0 + a) 0) 0 8 = _
  refine window_inj.mpr fun j hj => ?_
  rw [getD_window (by omega), Nat.zero_add, Nat.zero_add]

section Names

variable {s s' : List (BitVec 8)} {n : Nat} {c d : BitVec 8}

theorem tolower_eq_zero : tolower c = 0 ↔ c = 0 := by
  revert c
  decide

theorem tolower_eq_deleted : tolower c = 0xE5 ↔ c = 0xE5 := by
  revert c
  decide

theorem takeWhile_char (hd : d ≠ 0) : (d :: s).takeWhile (· ≠ 0) = d :: s.takeWhile (· ≠ 0) := by
  have hkeep : decide (d ≠ 0) = true := decide_eq_true hd
  rw [List.takeWhile_cons, hkeep]
  rfl

theorem istrncmp_differ (hne : tolower (s.headD 0) ≠ tolower (s'.headD 0)) : istrncmp (n + 1) s s' ≠ 0 := by
  have hbytes : s.headD 0 ≠ s'.headD 0 := fun heq => hne (congrArg tolower heq)
  have hnat : (s.headD 0).toNat ≠ (s'.headD 0).toNat := fun heq => hbytes (BitVec.eq_of_toNat_eq heq)
  unfold istrncmp
  simp only [hbytes, hne, ne_eq, not_false_eq_true, and_self, if_true]
  omega

theorem istrncmp_agree (heq : tolower (s.headD 0) = tolower (s'.headD 0)) :
    istrncmp (n + 1) s s' = if s.headD 0 = 0 then 0 else istrncmp n s.tail s'.tail := by
  have hno : ¬ (s.headD 0 ≠ s'.headD 0 ∧ tolower (s.headD 0) ≠ tolower (s'.headD 0)) := fun h => h.2 heq
  rw [istrncmp]
  simp only [hno, if_false]

/-- The comparison of two strings, the first of which is short enough, is the comparison of their texts
    without regard to case. The induction follows the loop of `istrncmp`. -/
theorem istrncmp_eq_zero (hs : ∀ c ∈ s, c ≠ 0) (hn : s.length < n) :
    istrncmp n s s' = 0 ↔ s.map tolower = (s'.takeWhile (· ≠ 0)).map tolower := by
  induction s generalizing n s' with
  | nil =>
      obtain ⟨n, rfl⟩ : ∃ m, n = m + 1 := ⟨n - 1, by omega⟩
      -- the first string has ended: the second one has to end here too
      by_cases hend : s'.headD 0 = 0
      · rw [istrncmp_agree (by rw [hend]; rfl)]
        refine iff_of_true rfl ?_
        cases s' with
        | nil => rfl
        | cons d s' =>
            have hd : d = 0 := hend
            subst hd
            rfl
      · refine iff_of_false (istrncmp_differ fun heq => hend (tolower_eq_zero.mp heq.symm)) fun heq => ?_
        cases s' with
        | nil => exact hend rfl
        | cons d s' =>
            have hd : d ≠ 0 := hend
            rw [takeWhile_char hd] at heq
            cases heq
  | cons c s ih =>
      obtain ⟨n, rfl⟩ : ∃ m, n = m + 1 := ⟨n - 1, by omega⟩
      rw [List.length_cons] at hn
      have hc : c ≠ 0 := hs c List.mem_cons_self
      -- equal up to case, or the comparison ends
      by_cases heq : tolower c = tolower (s'.headD 0)
      · have hd : s'.headD 0 ≠ 0 := by
          intro hzero
          rw [hzero] at heq
          exact hc (tolower_eq_zero.mp heq)
        have hagree := @istrncmp_agree (c :: s) s' n heq
        rw [if_neg (show ¬ (c :: s).headD 0 = 0 from hc)] at hagree
        rw [hagree]
        cases s' with
        | nil => exact absurd rfl hd
        | cons d s' =>
            rw [takeWhile_char (show d ≠ 0 from hd), List.map_cons, List.map_cons, List.cons.injEq]
            have hrest := @ih s' n (fun b hb => hs b (List.mem_cons_of_mem c hb)) (by omega)
            exact hrest.trans (and_iff_right heq).symm
      · refine iff_of_false (istrncmp_differ heq) fun hmap => heq ?_
        cases s' with
        | nil => cases hmap
        | cons d s' =>
            by_cases hd : d = 0
            · subst hd
              cases hmap
            · rw [takeWhile_char hd] at hmap
              exact (List.cons.inj hmap).1

theorem mem_fat16ToProperString {field : List (BitVec 8)} (h : c ∈ fat16ToProperString field) : c ≠ 0 := by
  have hkeep := List.mem_takeWhile_imp h
  exact (of_decide_eq_true hkeep).1

/-- The file name of a slot: at most twelve characters, none of them zero. -/
theorem fat16GetFullRelativeFilename_short {item : FatDirectoryItem} (hname : item.filename.length ≤ 8)
    (hext : item.ext.length ≤ 3) : (fat16GetFullRelativeFilename item).length < bimbleosMaxPath ∧
      ∀ c ∈ fat16GetFullRelativeFilename item, c ≠ 0 := by
  have hlen₁ : (fat16ToProperString item.filename).length ≤ 8 :=
    Nat.le_trans (List.takeWhile_sublist _).length_le hname
  have hlen₂ : (fat16ToProperString item.ext).length ≤ 3 :=
    Nat.le_trans (List.takeWhile_sublist _).length_le hext
  unfold fat16GetFullRelativeFilename bimbleosMaxPath
  by_cases hdot : item.ext.headD 0 ≠ 0x00 ∧ item.ext.headD 0 ≠ 0x20
  · rw [if_pos hdot]
    constructor
    · rw [List.length_append, List.length_cons]
      omega
    · intro c hc
      rcases List.mem_append.mp hc with hc | hc
      · exact mem_fat16ToProperString hc
      · rcases List.mem_cons.mp hc with rfl | hc
        · decide
        · exact mem_fat16ToProperString hc
  · rw [if_neg hdot]
    exact ⟨by omega, fun c hc => mem_fat16ToProperString hc⟩

/-- **The comparison of the search** is the one of the names. -/
theorem sameName_iff {disk : Disk} {start i : Nat} {name : List (BitVec 8)} :
    sameName (slotItem disk start i) name = true ↔ HasName (slotItem disk start i) name := by
  have hname : (slotItem disk start i).filename.length ≤ 8 := by
    rw [slotItem_filename, length_window]
  have hext : (slotItem disk start i).ext.length ≤ 3 := by
    show (window (fun a => (window disk.byte (start + 32 * i) 32).getD (0 + a) 0) 8 3).length ≤ 3
    rw [length_window]
  obtain ⟨hlen, hzero⟩ := fat16GetFullRelativeFilename_short hname hext
  unfold sameName HasName
  rw [decide_eq_true_eq]
  exact istrncmp_eq_zero hzero hlen

/-- The file name of a slot starts with its first byte, or with the dot. -/
theorem fullName_head {disk : Disk} {start i : Nat} :
    (disk.byte (start + 32 * i) = 0xE5 →
      (fat16GetFullRelativeFilename (slotItem disk start i)).head? = some 0xE5) ∧
    ∀ c, (fat16GetFullRelativeFilename (slotItem disk start i)).head? = some c →
      c = disk.byte (start + 32 * i) ∨ c = 0x2e := by
  obtain ⟨rest, hname⟩ : ∃ rest, (slotItem disk start i).filename = disk.byte (start + 32 * i) :: rest :=
    ⟨_, (slotItem_filename disk start i).trans window_succ⟩
  unfold fat16GetFullRelativeFilename
  rw [hname]
  generalize disk.byte (start + 32 * i) = b
  have hkept : ∀ b : BitVec 8, b ≠ 0x00 ∧ b ≠ 0x20 →
      fat16ToProperString (b :: rest) = b :: fat16ToProperString rest := by
    intro b hb
    have hkeep : decide (b ≠ 0x00 ∧ b ≠ 0x20) = true := decide_eq_true hb
    unfold fat16ToProperString
    rw [List.takeWhile_cons, hkeep]
    rfl
  have hcut : ¬ (b ≠ 0x00 ∧ b ≠ 0x20) → fat16ToProperString (b :: rest) = [] := by
    intro hb
    have hstop : decide (b ≠ 0x00 ∧ b ≠ 0x20) = false := decide_eq_false hb
    unfold fat16ToProperString
    rw [List.takeWhile_cons, hstop]
    rfl
  constructor
  · rintro rfl
    have hE5 := hkept 0xE5 (by decide)
    simp only [hE5]
    split
    · rfl
    · rfl
  · intro c hc
    by_cases hb : b ≠ 0x00 ∧ b ≠ 0x20
    · simp only [hkept b hb] at hc
      split at hc
      · exact Or.inl (Option.some.inj hc).symm
      · exact Or.inl (Option.some.inj hc).symm
    · simp only [hcut hb] at hc
      split at hc
      · exact Or.inr (Option.some.inj hc).symm
      · cases hc

/-- A deleted slot never has the name of a slot in use. -/
theorem HasName.inUse {disk : Disk} {start i j : Nat} {name : List (BitVec 8)}
    (hi : HasName (slotItem disk start i) name) (hj : HasName (slotItem disk start j) name)
    (huse : InUse disk start i) : InUse disk start j := by
  intro hdeleted
  have hsame := congrArg List.head? (hi.trans hj.symm)
  rw [List.head?_map, List.head?_map, fullName_head.1 hdeleted] at hsame
  obtain ⟨c, hc, hlower⟩ := Option.map_eq_some_iff.mp hsame
  have hE5 : c = 0xE5 := tolower_eq_deleted.mp hlower
  -- the name of slot `j` starts with its first byte or with a dot, and neither is the mark
  rcases fullName_head.2 c hc with hbyte | hdot
  · exact huse (hbyte.symm.trans hE5)
  · rw [hE5] at hdot
    exact absurd hdot (by decide)

end Names

/-! ## Counting and loading -/

section Load

variable {disk : Disk} {fs : FatPrivate} {start t j c fuel : Nat}

/-- The counting loop from slot `j` on: it counts the slots in use, and needs all positions up to the end
    of the last slot. The induction is on the slots left. -/
theorem fat16TotalItemsLoop_eq (h : Terminated disk start t) (hj : j ≤ t) (hfuel : t - j < fuel) :
    fat16TotalItemsLoop disk fuel ((start + 32 * j : Nat) : Int) c
      = if start + 32 * (t + 1) < 2147483648 then
          some ((c + (Nat.count (InUse disk start) t - Nat.count (InUse disk start) j) : Nat) : Int)
        else none := by
  induction fuel generalizing j c with
  | zero => exact absurd hfuel (Nat.not_lt_zero _)
  | succ fuel ih =>
      have hread := @diskstreamerRead_spec disk (start + 32 * j) 32 (by decide)
      have hsize : (sizeofFatDirectoryItem : Int) = ((32 : Nat) : Int) := rfl
      rw [fat16TotalItemsLoop, hsize, hread]
      -- the streamer needs the position behind the slot
      by_cases hpos : start + 32 * j + 32 < 2147483648
      · rw [if_pos hpos, Option.bind_some]
        have hok : ¬ (rangeRead disk (start + 32 * j) 32).res ≠ bimbleosAllOk := not_not_intro rfl
        have hfirst : (rangeRead disk (start + 32 * j) 32).out.headD 0 = disk.byte (start + 32 * j) := rfl
        have hnext : (rangeRead disk (start + 32 * j) 32).pos = ((start + 32 * (j + 1) : Nat) : Int) := by
          show ((start + 32 * j : Nat) : Int) + (32 : Nat) = _
          omega
        rw [if_neg hok, hfirst, hnext]
        rcases Nat.eq_or_lt_of_le hj with rfl | hlt
        · rw [if_pos h.last, if_pos (by omega), Nat.sub_self, Nat.add_zero]
        · have hmono := Nat.count_monotone (InUse disk start) (show j + 1 ≤ t from hlt)
          rw [if_neg (h.before j hlt)]
          -- a deleted slot is passed over without counting
          by_cases huse : InUse disk start j
          · have hcount : Nat.count (InUse disk start) (j + 1) = Nat.count (InUse disk start) j + 1 := by
              rw [Nat.count_succ, if_pos huse]
            rw [if_neg huse, ih hlt (by omega)]
            have hsum : c + 1 + (Nat.count (InUse disk start) t - Nat.count (InUse disk start) (j + 1))
                = c + (Nat.count (InUse disk start) t - Nat.count (InUse disk start) j) := by omega
            rw [hsum]
          · have hcount : Nat.count (InUse disk start) (j + 1) = Nat.count (InUse disk start) j := by
              rw [Nat.count_succ, if_neg huse, Nat.add_zero]
            rw [if_pos (not_not.mp huse), ih hlt (by omega), hcount]
      · rw [if_neg hpos, if_neg (by omega), Option.bind_none]

/-- The number of items: the slots in use. -/
theorem fat16GetTotalItemsForDirectory_eq {sector : Nat} (h : Terminated disk (sector * 512) t)
    (hsector : sector * 512 < 2147483648) (ht : t < 67108865) :
    fat16GetTotalItemsForDirectory disk sector
      = if sector * 512 + 32 * (t + 1) < 2147483648 then
          some ((Nat.count (InUse disk (sector * 512)) t : Nat) : Int)
        else none := by
  have hpos : s32 (u32 ((sector * bimbleosSectorSize : Nat) : Int)) = ((sector * 512 + 32 * 0 : Nat) : Int) := by
    unfold bimbleosSectorSize
    rw [u32_of_lt (by omega), s32_natCast_of_lt hsector, Nat.mul_zero, Nat.add_zero]
  have hloop := @fat16TotalItemsLoop_eq disk (sector * 512) t 0 0 67108865 h (Nat.zero_le t) (by omega)
  unfold fat16GetTotalItemsForDirectory
  rw [hpos, hloop, Nat.count_zero, Nat.sub_zero, Nat.zero_add]

/-- The items that are made of the bytes of a directory. -/
theorem directoryItems_get {n i : Nat} {total : Nat} (hi : i < total) (hn : 32 * i + 32 ≤ n) :
    (directoryItems (window disk.byte start n) total)[i]? = some (slotItem disk start i) := by
  unfold directoryItems slotItem sizeofFatDirectoryItem
  rw [List.getElem?_map, List.getElem?_range hi, Option.map_some, ofBytes_window hn]

/-- A position that is computed without overflow. -/
theorem checked_natCast {n : Nat} {x : Int} (h : checked (n : Int) = some x) : n < 2147483648 ∧ x = n := by
  unfold checked at h
  split at h
  · cases h
    exact ⟨by omega, rfl⟩
  · cases h

/-- **The root directory** as it is loaded. -/
theorem rootDirectory_items {header : FatHeader} {root : RootDirectory} {k k' : Kernel}
    (h : Terminated disk (header.rootDirSectorPos * 512) t) (ht : t ≤ header.rootDirEntries.toNat)
    (hrun : fat16GetRootDirectory disk header k = .ok (.ok root, k')) :
    root.directory.total = (Nat.count (InUse disk (header.rootDirSectorPos * 512)) t : Nat) ∧
      ∀ i, i < t → root.directory.item[i]? = some (slotItem disk (header.rootDirSectorPos * 512) i) := by
  have hentries := header.rootDirEntries.isLt
  unfold fat16GetRootDirectory at hrun
  obtain ⟨total, k₁, hcount, hrun⟩ := bind_eq_ok.mp hrun
  obtain ⟨dir, k₂, _, hrun⟩ := bind_eq_ok.mp hrun
  by_cases hdir : dir = 0
  · rw [if_pos hdir] at hrun
    cases hrun
  rw [if_neg hdir] at hrun
  obtain ⟨pos, k₃, hpos, hrun⟩ := bind_eq_ok.mp hrun
  obtain ⟨read, k₄, hread, hrun⟩ := bind_eq_ok.mp hrun
  -- the load has got as far as the read, so its position is a possible one
  obtain ⟨hlt, rfl⟩ := checked_natCast (defined_run hpos).1
  have hsize : header.rootDirSize + 512 ≤ 2147483648 := by
    unfold FatHeader.rootDirSize sizeofFatDirectoryItem
    omega
  have hread' := (defined_run hread).1
  rw [diskstreamerRead_spec hsize] at hread'
  split at hread'
  · cases hread'
    have hok : ¬ (rangeRead disk (header.rootDirSectorPos * bimbleosSectorSize) header.rootDirSize).res
        ≠ bimbleosAllOk := not_not_intro rfl
    rw [if_neg hok] at hrun
    cases hrun
    have hcount' := (defined_run hcount).1
    rw [fat16GetTotalItemsForDirectory_eq h hlt (by omega)] at hcount'
    split at hcount'
    · cases hcount'
      refine ⟨rfl, fun i hi => directoryItems_get (by omega) ?_⟩
      unfold FatHeader.rootDirSize sizeofFatDirectoryItem
      omega
    · cases hcount'
  · cases hread'

/-- The first sector of a cluster, where it is computed without overflow. -/
theorem fat16ClusterToSector_some {cluster : Nat} {sector : Int} (hcluster : 2 ≤ cluster)
    (h : fat16ClusterToSector fs cluster = some sector) : fs.clusterPos cluster 0 = u32 sector * 512 ∧
      sector = (u32 sector : Nat) := by
  unfold fat16ClusterToSector at h
  obtain ⟨ahead, hahead, h⟩ := Option.bind_eq_some_iff.mp h
  obtain ⟨sectors, hsectors, h⟩ := Option.bind_eq_some_iff.mp h
  obtain ⟨a, rfl⟩ : ∃ a, cluster = a + 2 := ⟨cluster - 2, by omega⟩
  have ha : ((a + 2 : Nat) : Int) - 2 = (a : Nat) := by omega
  rw [ha] at hahead
  obtain ⟨_, rfl⟩ := checked_natCast hahead
  rw [← Int.natCast_mul] at hsectors
  obtain ⟨_, rfl⟩ := checked_natCast hsectors
  rw [← Int.natCast_add] at h
  obtain ⟨hlt, rfl⟩ := checked_natCast h
  unfold FatPrivate.clusterPos
  rw [u32_of_lt (by omega), Nat.add_sub_cancel, Nat.add_zero]
  exact ⟨rfl, rfl⟩

/-- Reading the first cluster: its position is a possible one. -/
theorem fat16ReadInternal_start {cluster : Nat} {total : Int} {r : Int × List (BitVec 8)}
    (hcluster : 2 ≤ cluster) (hB : 0 < fs.clusterBytes)
    (hread : fat16ReadInternal disk fs cluster 0 total = some r) : fs.clusterPos cluster 0 < 2147483648 := by
  have hfirst : fat16GetClusterForOffset disk fs (cluster : Int) 0 = some (cluster : Int) :=
    @fat16GetClusterForOffset_first disk fs 0 cluster hB
  unfold fat16ReadInternal fat16ReadLoop at hread
  rw [hfirst, Option.bind_some, if_neg (by omega)] at hread
  obtain ⟨sector, hsector, hread⟩ := Option.bind_eq_some_iff.mp hread
  obtain ⟨pos, hpos, _⟩ := Option.bind_eq_some_iff.mp hread
  obtain ⟨hstart, hcast⟩ := fat16ClusterToSector_some hcluster hsector
  unfold bimbleosSectorSize at hpos
  rw [hcast, ← Int.natCast_mul] at hpos
  rw [hstart]
  exact (checked_natCast hpos).1

/-- What a subdirectory was loaded from. -/
theorem fat16LoadFatDirectory_live {item : FatDirectoryItem} {dir items : Nat} {content : FatDirectory}
    {k k' : Kernel} (hrun : fat16LoadFatDirectory disk fs item k = .ok (.live dir items content, k')) :
    ∃ sector total bytes, fat16ClusterToSector fs (fat16GetFirstCluster item) = some sector ∧
      fat16GetTotalItemsForDirectory disk (u32 sector) = some total ∧
      fat16ReadInternal disk fs (fat16GetFirstCluster item) 0
        (s32 (u32 (total * (sizeofFatDirectoryItem : Int)))) = some (0, bytes) ∧
      content = { item := directoryItems bytes total.toNat, total := total } := by
  unfold fat16LoadFatDirectory at hrun
  by_cases hsub : (!item.isSubdirectory) = true
  · rw [if_pos hsub] at hrun
    cases hrun
  rw [if_neg hsub] at hrun
  obtain ⟨directory, k₁, _, hrun⟩ := bind_eq_ok.mp hrun
  by_cases hdirectory : directory = 0
  · rw [if_pos hdirectory] at hrun
    cases hrun
  rw [if_neg hdirectory] at hrun
  obtain ⟨sector, k₂, hsector, hrun⟩ := bind_eq_ok.mp hrun
  obtain ⟨total, k₃, htotal, hrun⟩ := bind_eq_ok.mp hrun
  obtain ⟨array, k₄, _, hrun⟩ := bind_eq_ok.mp hrun
  by_cases harray : array = 0
  · rw [if_pos harray] at hrun
    obtain ⟨_, _, _, hrun⟩ := bind_eq_ok.mp hrun
    cases hrun
  rw [if_neg harray] at hrun
  obtain ⟨⟨res, bytes⟩, k₅, hread, hrun⟩ := bind_eq_ok.mp hrun
  change (if res ≠ bimbleosAllOk then _ else _ : KM _) k₅ = _ at hrun
  by_cases hres : res = bimbleosAllOk
  · rw [if_neg (not_not_intro hres)] at hrun
    cases hrun
    have hread' := (readInternal_run hread).1
    rw [hres] at hread'
    exact ⟨sector, total, bytes, (defined_run hsector).1, (defined_run htotal).1, hread', rfl⟩
  · rw [if_pos hres] at hrun
    obtain ⟨_, _, _, hrun⟩ := bind_eq_ok.mp hrun
    cases hrun

/-- **A subdirectory** as it is loaded, when it fits into its cluster. -/
theorem subdirectory_items {item : FatDirectoryItem} {dir items : Nat} {content : FatDirectory}
    {k k' : Kernel} (hcluster : 2 ≤ fat16GetFirstCluster item)
    (h : Terminated disk (fs.clusterPos (fat16GetFirstCluster item) 0) t) (ht : 32 * t < fs.clusterBytes)
    (hrun : fat16LoadFatDirectory disk fs item k = .ok (.live dir items content, k')) :
    content.total = (Nat.count (InUse disk (fs.clusterPos (fat16GetFirstCluster item) 0)) t : Nat) ∧
      ∀ i, i < Nat.count (InUse disk (fs.clusterPos (fat16GetFirstCluster item) 0)) t →
        content.item[i]? = some (slotItem disk (fs.clusterPos (fat16GetFirstCluster item) 0) i) := by
  have hB : 0 < fs.clusterBytes := by omega
  have hlen := clusterBytes_le fs
  obtain ⟨sector, total, bytes, hsector, htotal, hread, rfl⟩ := fat16LoadFatDirectory_live hrun
  generalize fat16GetFirstCluster item = cluster at *
  have hstart := fat16ReadInternal_start hcluster hB hread
  obtain ⟨hpos, _⟩ := fat16ClusterToSector_some hcluster hsector
  rw [hpos] at h hstart ⊢
  have hle := @Nat.count_le (InUse disk (u32 sector * 512)) _ t
  rw [fat16GetTotalItemsForDirectory_eq h hstart (by omega)] at htotal
  split at htotal
  · cases htotal
    generalize Nat.count (InUse disk (u32 sector * 512)) t = total at hread hle ⊢
    have hsize : s32 (u32 ((total : Int) * (sizeofFatDirectoryItem : Int))) = ((total * 32 : Nat) : Int) := by
      unfold sizeofFatDirectoryItem
      rw [← Int.natCast_mul, u32_of_lt (by omega), s32_natCast_of_lt (by omega)]
    have hlast := @fat16ReadLoop_last disk fs 0 (total * 32) cluster cluster (total * 32) hcluster
      (fat16GetClusterForOffset_first hB) hB (by omega)
    have hloop : fat16ReadInternal disk fs cluster 0 ((total * 32 : Nat) : Int)
        = fat16ReadLoop disk fs cluster (total * 32 + 1) ((0 : Nat) : Int) ((total * 32 : Nat) : Int) := rfl
    rw [hsize, hloop, hlast, Nat.zero_mod, hpos] at hread
    refine ⟨rfl, fun i hi => ?_⟩
    split at hread
    · cases hread
      exact directoryItems_get hi (by omega)
    · cases hread
  · cases htotal

/-- **A loaded directory**: its size counts the slots in use, its items are the first slots. -/
theorem LoadedFrom.items {directory : FatDirectory} (hload : LoadedFrom disk fs start t directory)
    (h : Terminated disk start t) : directory.total = (Nat.count (InUse disk start) t : Nat) ∧
      ∀ i, i < Nat.count (InUse disk start) t → directory.item[i]? = some (slotItem disk start i) := by
  cases hload with
  | root hstart ht hrun =>
      subst hstart
      obtain ⟨htotal, hitems⟩ := rootDirectory_items h ht hrun
      exact ⟨htotal, fun i hi => hitems i (Nat.lt_of_lt_of_le hi (Nat.count_le _))⟩
  | subdirectory hcluster hstart ht hrun =>
      subst hstart
      exact subdirectory_items hcluster h ht hrun

end Load

/-! ## Searching -/

/-- Slot `m` is the last one among the first `n` slots that has the name. -/
structure LastMatch (disk : Disk) (start n : Nat) (name : List (BitVec 8)) (m : Nat) : Prop where
  lt : m < n
  hasName : HasName (slotItem disk start m) name
  last : ∀ i, m < i → i < n → ¬ HasName (slotItem disk start i) name

/-- The heap after a directory has been loaded, or its blocks have been given back. -/
def directoryHeap (disk : Disk) (fs : FatPrivate) (entry : FatDirectoryItem) (heap : Heap) : Heap :=
  let directory := heapMalloc heap sizeofFatDirectory
  if directory.1 = 0 then directory.2
  else
    (subdirectoryTotal disk fs entry).elim directory.2 fun total =>
      let items := heapMalloc directory.2 (u32 (directorySize total))
      if items.1 = 0 then heapFree items.2 directory.1
      else if (subdirectory disk fs entry).isSome then items.2
      else heapFree (heapFree items.2 items.1) directory.1

/-- The heap after an item has been made of a directory entry. -/
def itemHeap (disk : Disk) (fs : FatPrivate) (entry : FatDirectoryItem) (heap : Heap) : Heap :=
  let fItem := heapMalloc heap sizeofFatItem
  if fItem.1 = 0 then fItem.2
  else if entry.isSubdirectory then directoryHeap disk fs entry fItem.2
  else (heapMalloc fItem.2 sizeofFatDirectoryItem).2

/-- The heap when a search comes to slot `m`: every slot before it that has the name has had its item. -/
def slotHeap (disk : Disk) (fs : FatPrivate) (start : Nat) (name : List (BitVec 8)) (heap : Heap) (m : Nat) :
    Heap :=
  (List.range m).foldl (fun heap i =>
    if sameName (slotItem disk start i) name then itemHeap disk fs (slotItem disk start i) heap else heap) heap

/-- A heap answers the requests for a directory, and the directory can be read. -/
def DirectoryFits (disk : Disk) (fs : FatPrivate) (entry : FatDirectoryItem) (heap : Heap) : Prop :=
  (heapMalloc heap sizeofFatDirectory).1 ≠ 0 ∧ (subdirectory disk fs entry).isSome = true ∧
    ∀ total, subdirectoryTotal disk fs entry = some total →
      (heapMalloc (heapMalloc heap sizeofFatDirectory).2 (u32 (directorySize total))).1 ≠ 0

/-- A heap answers every request for the item of an entry: for the item itself, and for the copy of the
    entry or the directory it leads to. -/
def ItemFits (disk : Disk) (fs : FatPrivate) (entry : FatDirectoryItem) (heap : Heap) : Prop :=
  (heapMalloc heap sizeofFatItem).1 ≠ 0 ∧
    if entry.isSubdirectory then DirectoryFits disk fs entry (heapMalloc heap sizeofFatItem).2
    else (heapMalloc (heapMalloc heap sizeofFatItem).2 sizeofFatDirectoryItem).1 ≠ 0

/-- The condition for a search in the first `n` slots: the last one with the name is in use, and the heap
    answers the requests for its item; or there is no such slot, or the heap refuses its item, and no slot
    in use has the name. -/
def FindOk (disk : Disk) (fs : FatPrivate) (start t n : Nat) (name : List (BitVec 8)) (heap : Heap) : Prop :=
  (∃ m, LastMatch disk start n name m ∧ InUse disk start m ∧
    ItemFits disk fs (slotItem disk start m) (slotHeap disk fs start name heap m)) ∨
  (∀ m, LastMatch disk start n name m → (heapMalloc (slotHeap disk fs start name heap m) sizeofFatItem).1 = 0) ∧
    ¬ Listed disk start t name

section Find

variable {disk : Disk} {fs : FatPrivate} {start t n : Nat} {directory : FatDirectory} {name : List (BitVec 8)}
  {k k' : Kernel} {r : Option FatItem}

theorem fat16FreeDirectory_heap {dir items : Nat} {content : FatDirectory} {u : Unit}
    (hrun : fat16FreeDirectory (.live dir items content) k = .ok (u, k')) :
    k'.heap = if items = 0 then heapFree k.heap dir else heapFree (heapFree k.heap items) dir := by
  change (if items ≠ 0 then kfree items >>= fun _ => kfree dir else kfree dir : KM Unit) k = _ at hrun
  by_cases hitems : items = 0
  · rw [if_neg (not_not_intro hitems)] at hrun
    cases hrun
    rw [if_pos hitems]
  · rw [if_pos hitems] at hrun
    cases hrun
    rw [if_neg hitems]

/-- Loading a directory: what it does to the heap, and when it succeeds. -/
theorem fat16LoadFatDirectory_heap {entry : FatDirectoryItem} {ptr : FatDirectoryPtr}
    (hsub : entry.isSubdirectory = true) (hrun : fat16LoadFatDirectory disk fs entry k = .ok (ptr, k')) :
    k'.heap = directoryHeap disk fs entry k.heap ∧
      ((∃ dir items content, ptr = .live dir items content) ↔ DirectoryFits disk fs entry k.heap) ∧
      ∀ dir items content, ptr = .live dir items content →
        dir ≠ 0 ∧ subdirectory disk fs entry = some content := by
  have hgo : ¬ (!entry.isSubdirectory) = true := by
    rw [hsub]
    exact Bool.false_ne_true
  unfold fat16LoadFatDirectory at hrun
  rw [if_neg hgo] at hrun
  obtain ⟨directory, k₁, halloc, hrun⟩ := bind_eq_ok.mp hrun
  obtain ⟨hdirectory, memory, hk₁⟩ := kzalloc_run halloc
  have hheap₁ : k₁.heap = (heapMalloc k.heap sizeofFatDirectory).2 := by rw [hk₁]
  unfold directoryHeap DirectoryFits
  simp only [← hdirectory, ← hheap₁]
  by_cases hzero : directory = 0
  · rw [if_pos hzero] at hrun
    cases hrun
    rw [if_pos hzero]
    refine ⟨rfl, iff_of_false ?_ fun h => h.1 hzero, fun _ _ _ hptr => by cases hptr⟩
    rintro ⟨_, _, _, hptr⟩
    cases hptr
  rw [if_neg hzero] at hrun ⊢
  obtain ⟨sector, k₂, hsector, hrun₂⟩ := bind_eq_ok.mp hrun
  obtain ⟨total, k₃, hcount, hrun₃⟩ := bind_eq_ok.mp hrun₂
  obtain ⟨hfirst, rfl⟩ := defined_run hsector
  obtain ⟨hcounted, rfl⟩ := defined_run hcount
  have htotal : subdirectoryTotal disk fs entry = some total := by
    unfold subdirectoryTotal
    rw [hfirst, Option.bind_some]
    exact hcounted
  obtain ⟨items, k₄, harray, hrun₄⟩ := bind_eq_ok.mp hrun₃
  obtain ⟨hitems, memory', hk₄⟩ := kzalloc_run harray
  change items = (heapMalloc k₃.heap (u32 (directorySize total))).1 at hitems
  have hheap₄ : k₄.heap = (heapMalloc k₃.heap (u32 (directorySize total))).2 := by
    rw [hk₄]
    rfl
  simp only [htotal, Option.elim_some, Option.some.injEq, forall_eq', ← hitems, ← hheap₄]
  by_cases harr : items = 0
  · -- the array is refused: the structure is given back
    rw [if_pos harr] at hrun₄
    obtain ⟨_, _, hfree, hend⟩ := bind_eq_ok.mp hrun₄
    cases hend
    rw [if_pos harr, fat16FreeDirectory_heap hfree, if_pos rfl]
    refine ⟨rfl, iff_of_false ?_ fun h => h.2.2 harr, fun _ _ _ hptr => by cases hptr⟩
    rintro ⟨_, _, _, hptr⟩
    cases hptr
  rw [if_neg harr] at hrun₄ ⊢
  obtain ⟨⟨res, bytes⟩, k₅, hread, hrun₅⟩ := bind_eq_ok.mp hrun₄
  obtain ⟨hbytes, rfl⟩ := readInternal_run hread
  have hcontent : subdirectory disk fs entry = if res = bimbleosAllOk then
      some { item := directoryItems bytes total.toNat, total := total } else none := by
    unfold subdirectory readDirectory
    rw [if_pos hsub, htotal, Option.bind_some]
    change (Option.map _ (fat16ReadInternal disk fs (fat16GetFirstCluster entry) 0
      (s32 (u32 (total * sizeofFatDirectoryItem))))).bind _ = _
    rw [hbytes]
    rfl
  change (if res ≠ bimbleosAllOk then _ else _ : KM _) k₅ = _ at hrun₅
  by_cases hres : res = bimbleosAllOk
  · rw [if_neg (not_not_intro hres)] at hrun₅
    cases hrun₅
    rw [hcontent, if_pos hres]
    refine ⟨rfl, iff_of_true ⟨_, _, _, rfl⟩ ⟨hzero, rfl, harr⟩, fun _ _ _ hptr => ?_⟩
    cases hptr
    exact ⟨hzero, rfl⟩
  · -- the read has failed: both blocks are given back
    rw [if_pos hres] at hrun₅
    obtain ⟨_, _, hfree, hend⟩ := bind_eq_ok.mp hrun₅
    cases hend
    rw [hcontent, if_neg hres, fat16FreeDirectory_heap hfree, if_neg harr]
    refine ⟨rfl, iff_of_false ?_ fun h => Bool.false_ne_true h.2.1, fun _ _ _ hptr => by cases hptr⟩
    rintro ⟨_, _, _, hptr⟩
    cases hptr

/-- An item that points to something: a copy of its entry, or a directory. -/
def FatItem.Live (item : FatItem) : Prop :=
  (∃ copy entry, item.body = .file copy entry ∧ copy ≠ 0) ∨
    ∃ dir items content, item.body = .directory (.live dir items content)

theorem Describes.live {entry : FatDirectoryItem} {item : FatItem} (h : Describes disk fs entry item) :
    item.Live := by
  cases h with
  | file _ hcopy => exact Or.inl ⟨_, _, rfl, hcopy⟩
  | directory => exact Or.inr ⟨_, _, _, rfl⟩

/-- What making an item leaves: the heap, and an item that describes its entry when the heap answers. -/
structure ItemMade (disk : Disk) (fs : FatPrivate) (entry : FatDirectoryItem) (heap heap' : Heap)
    (r : Option FatItem) : Prop where
  heap_eq : heap' = itemHeap disk fs entry heap
  found : (∃ item, r = some item) ↔ (heapMalloc heap sizeofFatItem).1 ≠ 0
  made : ∀ item, r = some item → MadeOf disk fs entry item
  live : ∀ item, r = some item → item.Live → ItemFits disk fs entry heap
  describes : ∀ item, r = some item → ItemFits disk fs entry heap → Describes disk fs entry item

theorem fat16NewFatItemForDirectoryItem_run {entry : FatDirectoryItem}
    (hrun : fat16NewFatItemForDirectoryItem disk fs entry k = .ok (r, k')) :
    ItemMade disk fs entry k.heap k'.heap r := by
  unfold fat16NewFatItemForDirectoryItem at hrun
  obtain ⟨addr, k₁, halloc, hrun⟩ := bind_eq_ok.mp hrun
  obtain ⟨haddr, memory, hk₁⟩ := kzalloc_run halloc
  have hheap₁ : k₁.heap = (heapMalloc k.heap sizeofFatItem).2 := by rw [hk₁]
  by_cases hzero : addr = 0
  · rw [if_pos hzero] at hrun
    cases hrun
    rw [haddr] at hzero
    refine ⟨?_, iff_of_false ?_ (not_not_intro hzero), ?_, ?_, ?_⟩
    · unfold itemHeap
      rw [if_pos hzero, hheap₁]
    · rintro ⟨item, hitem⟩
      cases hitem
    all_goals
      intro item hitem
      cases hitem
  rw [if_neg hzero] at hrun
  rw [haddr] at hzero
  by_cases hsub : entry.isSubdirectory = true
  · rw [if_pos hsub] at hrun
    obtain ⟨ptr, k₂, hload, hrun⟩ := bind_eq_ok.mp hrun
    cases hrun
    obtain ⟨hheap, hlive, hread⟩ := fat16LoadFatDirectory_heap hsub hload
    have hfits : ItemFits disk fs entry k.heap ↔ DirectoryFits disk fs entry k₁.heap := by
      unfold ItemFits
      rw [if_pos hsub, ← hheap₁, and_iff_right hzero]
    refine ⟨?_, iff_of_true ⟨_, rfl⟩ hzero, fun item hitem => ?_, fun item hitem hits => ?_, fun item hitem hits => ?_⟩
    · unfold itemHeap
      rw [if_neg hzero, if_pos hsub, hheap, hheap₁]
    · cases hitem
      exact .directory hsub hload
    · cases hitem
      rcases hits with ⟨_, _, hbody, _⟩ | ⟨dir, items, content, hbody⟩
      · cases hbody
      · cases hbody
        exact hfits.mpr (hlive.mp ⟨dir, items, content, rfl⟩)
    · cases hitem
      obtain ⟨dir, items, content, rfl⟩ := hlive.mpr (hfits.mp hits)
      obtain ⟨hdir, hcontent⟩ := hread dir items content rfl
      exact .directory hdir hcontent
  · rw [if_neg hsub] at hrun
    obtain ⟨copy, k₂, hclone, hrun⟩ := bind_eq_ok.mp hrun
    cases hrun
    obtain ⟨hcopy, memory', hk₂⟩ := kzalloc_run hclone
    have hfile := Bool.eq_false_iff.mpr hsub
    have hfits : ItemFits disk fs entry k.heap ↔ copy ≠ 0 := by
      unfold ItemFits
      rw [if_neg hsub, ← hheap₁, ← hcopy, and_iff_right hzero]
    refine ⟨?_, iff_of_true ⟨_, rfl⟩ hzero, fun item hitem => ?_, fun item hitem hits => ?_, fun item hitem hits => ?_⟩
    · unfold itemHeap
      rw [if_neg hzero, if_neg hsub, ← hheap₁, hk₂]
    · cases hitem
      exact .file hfile
    · cases hitem
      rcases hits with ⟨_, _, hbody, hne⟩ | ⟨_, _, _, hbody⟩
      · cases hbody
        exact hfits.mpr hne
      · cases hbody
    · cases hitem
      exact .file hfile (hfits.mp hits)

/-- The loop of the search: its result is made of the last slot with the name, after the loop over the
    slots before it. The induction is on the slots left. -/
theorem fat16FindLoop_run {left i : Nat} {fItem : Option FatItem}
    (hitems : ∀ m, i ≤ m → m < i + left → directory.item[m]? = some (slotItem disk start m))
    (hrun : fat16FindLoop disk fs directory name left i fItem k = .ok (r, k')) :
    (r = fItem ∧ k' = k ∧ ∀ m, i ≤ m → m < i + left → ¬ HasName (slotItem disk start m) name) ∨
      ∃ m r₁ k₁, i ≤ m ∧ LastMatch disk start (i + left) name m ∧
        fat16FindLoop disk fs directory name (m - i) i fItem k = .ok (r₁, k₁) ∧
        fat16NewFatItemForDirectoryItem disk fs (slotItem disk start m) k₁ = .ok (r, k') := by
  induction left generalizing i fItem k with
  | zero =>
      cases hrun
      exact Or.inl ⟨rfl, rfl, fun m hlo hhi => by omega⟩
  | succ left ih =>
      have hrest : ∀ m, i + 1 ≤ m → m < i + 1 + left → directory.item[m]? = some (slotItem disk start m) :=
        fun m hlo hhi => hitems m (by omega) (by omega)
      have hstep : ∀ n f k₀, fat16FindLoop disk fs directory name (n + 1) i f k₀
          = (if sameName (slotItem disk start i) name then
              fat16NewFatItemForDirectoryItem disk fs (slotItem disk start i) >>= fun found =>
                fat16FindLoop disk fs directory name n (i + 1) found
            else fat16FindLoop disk fs directory name n (i + 1) f : KM _) k₀ := by
        intro n f k₀
        rw [fat16FindLoop, hitems i (Nat.le_refl i) (by omega)]
      have hsum : i + 1 + left = i + (left + 1) := by omega
      rw [hstep] at hrun
      by_cases hname : sameName (slotItem disk start i) name = true
      · rw [if_pos hname] at hrun
        obtain ⟨found, k₂, hnew, hrun⟩ := bind_eq_ok.mp hrun
        rcases ih hrest hrun with ⟨rfl, rfl, hnone⟩ | ⟨m, r₁, k₁, hlo, hlast, hbefore, hmade⟩
        · refine Or.inr ⟨i, fItem, k, Nat.le_refl i, ⟨by omega, sameName_iff.mp hname, ?_⟩, ?_, hnew⟩
          · exact fun m hlo hhi => hnone m hlo (by omega)
          · rw [Nat.sub_self]
            rfl
        · refine Or.inr ⟨m, r₁, k₁, by omega, hsum ▸ hlast, ?_, hmade⟩
          obtain ⟨d, hd⟩ : ∃ d, m - i = d + 1 := ⟨m - i - 1, by omega⟩
          have hd' : m - (i + 1) = d := by omega
          rw [hd'] at hbefore
          rw [hd, hstep, if_pos hname, bind_of_ok hnew]
          exact hbefore
      · rw [if_neg hname] at hrun
        rcases ih hrest hrun with ⟨rfl, rfl, hnone⟩ | ⟨m, r₁, k₁, hlo, hlast, hbefore, hmade⟩
        · refine Or.inl ⟨rfl, rfl, fun m hlo hhi => ?_⟩
          rcases Nat.eq_or_lt_of_le hlo with rfl | hlt
          · exact fun h => hname (sameName_iff.mpr h)
          · exact hnone m hlt (by omega)
        · refine Or.inr ⟨m, r₁, k₁, by omega, hsum ▸ hlast, ?_, hmade⟩
          obtain ⟨d, hd⟩ : ∃ d, m - i = d + 1 := ⟨m - i - 1, by omega⟩
          have hd' : m - (i + 1) = d := by omega
          rw [hd'] at hbefore
          rw [hd, hstep, if_neg hname]
          exact hbefore

/-- The loop returns when every slot with the name is a file: the heap is asked for small blocks only. -/
theorem fat16FindLoop_returns {left i : Nat} {fItem : Option FatItem} (hready : k.heap.Ready)
    (hitems : ∀ m, i ≤ m → m < i + left → directory.item[m]? = some (slotItem disk start m))
    (hfiles : ∀ m, i ≤ m → m < i + left → HasName (slotItem disk start m) name →
      (slotItem disk start m).isSubdirectory = false) :
    ∃ r k', fat16FindLoop disk fs directory name left i fItem k = .ok (r, k') := by
  have hkzalloc : ∀ (size : Nat) {k : Kernel}, 1 ≤ size → size ≤ 4096 → k.heap.Ready →
      ∃ ptr k', kzalloc size k = .ok (ptr, k') ∧ k'.heap.Ready := by
    intro size k h₁ h₂ hready
    rcases kzalloc_one size hready h₁ h₂ with ⟨hrun, _⟩ | ⟨ptr, k', hrun, _, hready', _⟩
    · exact ⟨0, k, hrun, hready⟩
    · exact ⟨ptr, k', hrun, hready'⟩
  induction left generalizing i fItem k with
  | zero => exact ⟨fItem, k, rfl⟩
  | succ left ih =>
      rw [fat16FindLoop, hitems i (Nat.le_refl i) (by omega)]
      have hrest : ∀ m, i + 1 ≤ m → m < i + 1 + left → directory.item[m]? = some (slotItem disk start m) :=
        fun m hlo hhi => hitems m (by omega) (by omega)
      have hfiles' : ∀ m, i + 1 ≤ m → m < i + 1 + left → HasName (slotItem disk start m) name →
          (slotItem disk start m).isSubdirectory = false :=
        fun m hlo hhi => hfiles m (by omega) (by omega)
      by_cases hname : sameName (slotItem disk start i) name = true
      · have hfile := hfiles i (Nat.le_refl i) (by omega) (sameName_iff.mp hname)
        obtain ⟨found, k₁, hnew, hready₁⟩ : ∃ found k₁, fat16NewFatItemForDirectoryItem disk fs
            (slotItem disk start i) k = .ok (found, k₁) ∧ k₁.heap.Ready := by
          obtain ⟨addr, k₁, halloc, hready₁⟩ := hkzalloc sizeofFatItem (by decide) (by decide) hready
          unfold fat16NewFatItemForDirectoryItem
          rw [bind_of_ok halloc]
          by_cases haddr : addr = 0
          · rw [if_pos haddr]
            exact ⟨none, k₁, rfl, hready₁⟩
          · obtain ⟨copy, k₂, hcopy, hready₂⟩ := hkzalloc sizeofFatDirectoryItem (by decide) (by decide) hready₁
            have hclone : fat16CloneDirectoryItem k₁ = .ok (copy, k₂) := hcopy
            rw [if_neg haddr, hfile, if_neg Bool.false_ne_true, bind_of_ok hclone]
            exact ⟨_, k₂, rfl, hready₂⟩
        simp only [hname, if_true]
        rw [bind_of_ok hnew]
        exact ih hready₁ hrest hfiles'
      · simp only [hname]
        exact ih hready hrest hfiles'

theorem LastMatch.unique {m m' : Nat} (h : LastMatch disk start n name m)
    (h' : LastMatch disk start n name m') : m = m' := by
  rcases Nat.lt_trichotomy m m' with hlt | heq | hgt
  · exact absurd h'.hasName (h.last m' hlt h'.lt)
  · exact heq
  · exact absurd h.hasName (h'.last m hgt h.lt)

end Find

/-- The heap after the loop: each slot with the name has had its item. The induction is on the slots left. -/
theorem fat16FindLoop_heap {disk : Disk} {fs : FatPrivate} {start : Nat} {directory : FatDirectory}
    {name : List (BitVec 8)} {left i : Nat} {fItem r : Option FatItem} {k k' : Kernel}
    (hitems : ∀ m, i ≤ m → m < i + left → directory.item[m]? = some (slotItem disk start m))
    (hrun : fat16FindLoop disk fs directory name left i fItem k = .ok (r, k')) :
    k'.heap = (List.range' i left).foldl (fun heap i =>
      if sameName (slotItem disk start i) name then itemHeap disk fs (slotItem disk start i) heap else heap)
      k.heap := by
  induction left generalizing i fItem k with
  | zero =>
      cases hrun
      rfl
  | succ left ih =>
      have hrest : ∀ m, i + 1 ≤ m → m < i + 1 + left → directory.item[m]? = some (slotItem disk start m) :=
        fun m hlo hhi => hitems m (by omega) (by omega)
      rw [fat16FindLoop, hitems i (Nat.le_refl i) (by omega)] at hrun
      rw [List.range'_succ, List.foldl_cons]
      by_cases hname : sameName (slotItem disk start i) name = true
      · simp only [hname, if_true] at hrun ⊢
        obtain ⟨found, k₁, hnew, hloop⟩ := bind_eq_ok.mp hrun
        rw [ih hrest hloop, (fat16NewFatItemForDirectoryItem_run hnew).heap_eq]
      · simp only [hname] at hrun ⊢
        exact ih hrest hrun

/-- The result of the loop over the first `n` slots. -/
theorem findsEntry_iff {disk : Disk} {fs : FatPrivate} {start t n : Nat} {directory : FatDirectory}
    {name : List (BitVec 8)} {k k' : Kernel} {r : Option FatItem} (hle : n ≤ t)
    (hitems : ∀ i, i < n → directory.item[i]? = some (slotItem disk start i))
    (hrun : fat16FindLoop disk fs directory name n 0 none k = .ok (r, k')) :
    FindsEntry disk fs start t name r ↔ FindOk disk fs start t n name k.heap := by
  rcases fat16FindLoop_run (fun m _ hm => hitems m (by omega)) hrun with
    ⟨rfl, rfl, hnone⟩ | ⟨m, r₁, k₁, _, hlast, hbefore, hmade⟩
  · -- no slot has the name
    have hno : ∀ m, ¬ LastMatch disk start n name m := fun m hm => hnone m (Nat.zero_le m) (by
      have := hm.lt
      omega) hm.hasName
    constructor
    · intro hfinds
      refine Or.inr ⟨fun m hm => absurd hm (hno m), fun hlisted => ?_⟩
      obtain ⟨item, hitem⟩ := hfinds.found.mpr hlisted
      cases hitem
    · rintro (⟨m, hm, _⟩ | ⟨_, hunlisted⟩)
      · exact absurd hm (hno m)
      · refine ⟨iff_of_false ?_ hunlisted, fun item hitem => by cases hitem⟩
        rintro ⟨item, hitem⟩
        cases hitem
  · rw [Nat.zero_add] at hlast
    rw [Nat.sub_zero] at hbefore
    have hitem := fat16NewFatItemForDirectoryItem_run hmade
    -- the heap when the search comes to the last slot with the name
    have hheap : k₁.heap = slotHeap disk fs start name k.heap m := by
      rw [fat16FindLoop_heap (fun i _ hi => hitems i (by have := hlast.lt; omega)) hbefore]
      unfold slotHeap
      rw [List.range_eq_range']
    rw [hheap] at hitem
    by_cases hne : (heapMalloc (slotHeap disk fs start name k.heap m) sizeofFatItem).1 ≠ 0
    · obtain ⟨item, rfl⟩ := hitem.found.mpr hne
      constructor
      · intro hfinds
        obtain ⟨i, _, huse, hname, hdescribes⟩ := hfinds.describes item rfl
        exact Or.inl ⟨m, hlast, hname.inUse hlast.hasName huse, hitem.live item rfl hdescribes.live⟩
      · rintro (⟨m', hlast', huse, hfits⟩ | ⟨hno, _⟩)
        · obtain rfl := hlast.unique hlast'
          have hlt := Nat.lt_of_lt_of_le hlast.lt hle
          refine ⟨iff_of_true ⟨item, rfl⟩ ⟨m, hlt, huse, hlast.hasName⟩, fun item' heq => ?_⟩
          exact ⟨m, hlt, huse, hlast.hasName, hitem.describes item' heq hfits⟩
        · exact absurd (hno m hlast) hne
    · have hnone : ¬ ∃ item, r = some item := fun h => hne (hitem.found.mp h)
      constructor
      · intro hfinds
        refine Or.inr ⟨fun m' hlast' => ?_, fun hlisted => hnone (hfinds.found.mpr hlisted)⟩
        obtain rfl := hlast.unique hlast'
        exact not_not.mp hne
      · rintro (⟨m', hlast', _, hfits⟩ | ⟨_, hunlisted⟩)
        · obtain rfl := hlast.unique hlast'
          exact absurd hfits.1 hne
        · exact ⟨iff_of_false hnone hunlisted, fun item heq => absurd ⟨item, heq⟩ hnone⟩

/-- **A search in a loaded directory** finds what is listed exactly when, among the first slots that the
    count covers, the last one with the name is in use and the heap answers for its item, or there is no
    such slot or no block for an item and the name is not listed. It returns, unless it has to load a subdirectory of
    that name. -/
theorem fat16FindItemInDirectory_iff {disk : Disk} {fs : FatPrivate} {start t : Nat} {directory : FatDirectory}
    (name : List (BitVec 8)) (k : Kernel) (hload : LoadedFrom disk fs start t directory)
    (hend : Terminated disk start t) :
    (∀ r k', fat16FindItemInDirectory disk fs directory name k = .ok (r, k') →
      (FindsEntry disk fs start t name r ↔
        FindOk disk fs start t (Nat.count (InUse disk start) t) name k.heap)) ∧
    (k.heap.Ready → (∀ m, m < t → HasName (slotItem disk start m) name →
        (slotItem disk start m).isSubdirectory = false) →
      ∃ r k', fat16FindItemInDirectory disk fs directory name k = .ok (r, k')) := by
  obtain ⟨htotal, hitems⟩ := hload.items hend
  have hle : Nat.count (InUse disk start) t ≤ t := Nat.count_le _
  unfold fat16FindItemInDirectory
  rw [htotal, Int.toNat_natCast]
  refine ⟨fun r k' hrun => ?_, fun hready hfiles => ?_⟩
  · exact findsEntry_iff hle hitems hrun
  · exact fat16FindLoop_returns hready (fun m _ hm => hitems m (by omega)) fun m _ hm => hfiles m (by omega)

/-! ## A deleted item in front -/

/-- A root directory in sector 1: a deleted item, then the file `A`. -/
def deletedDisk : Disk where
  sector := fun lba i => if lba = 1 then (if i = 0 then 0xE5 else if i = 32 then 0x41 else 0) else 0

def deletedFat : FatPrivate where
  header := { reservedSectors := 1, sectorsPerCluster := 1, rootDirEntries := 16 }
  endingSectorPos := 2

theorem deletedDisk_terminated : Terminated deletedDisk 512 2 := by
  refine ⟨by decide, fun i hi => ?_⟩
  rcases Nat.lt_succ_iff_lt_or_eq.mp hi with hi | rfl
  · obtain rfl := Nat.lt_one_iff.mp hi
    decide
  · decide

theorem deletedDisk_loaded : ∃ directory, LoadedFrom deletedDisk deletedFat 512 2 directory := by
  have hsector : deletedFat.header.rootDirSectorPos = 1 := rfl
  have hsize : deletedFat.header.rootDirSize = 512 := rfl
  have hcount := @fat16GetTotalItemsForDirectory_eq deletedDisk 2 1 deletedDisk_terminated (by decide) (by decide)
  rw [if_pos (by decide)] at hcount
  have hread := @diskstreamerRead_spec deletedDisk 512 512 (by decide)
  rw [if_pos (by decide)] at hread
  have hpos : checked ((1 * bimbleosSectorSize : Nat) : Int) = some ((512 : Nat) : Int) := by decide
  rcases kzalloc_one 512 bootKernel_ready (by decide) (by decide) with
    ⟨_, hzero⟩ | ⟨dir, k', halloc, hdir, _⟩
  · rw [bootKernel_freeBlocks] at hzero
    cases hzero
  · have hrun : ∃ root, fat16GetRootDirectory deletedDisk deletedFat.header bootKernel = .ok (.ok root, k') := by
      unfold fat16GetRootDirectory
      rw [hsector, hsize, hcount, bind_of_ok defined_some, bind_of_ok halloc, if_neg hdir, hpos,
        bind_of_ok defined_some, hread, bind_of_ok defined_some]
      exact ⟨_, rfl⟩
    obtain ⟨root, hrun⟩ := hrun
    exact ⟨root.directory, .root rfl (by decide) hrun⟩

/-- The search for `A` looks at the deleted item only. -/
theorem deletedDisk_search {directory : FatDirectory} (hload : LoadedFrom deletedDisk deletedFat 512 2 directory)
    (k : Kernel) : fat16FindItemInDirectory deletedDisk deletedFat directory [0x41] k = .ok (none, k) := by
  obtain ⟨htotal, hitems⟩ := hload.items deletedDisk_terminated
  have hcount : Nat.count (InUse deletedDisk 512) 2 = 1 := by decide
  rw [hcount] at htotal hitems
  have hother : sameName (slotItem deletedDisk 512 0) [0x41] = false := by decide
  unfold fat16FindItemInDirectory
  rw [htotal]
  show fat16FindLoop deletedDisk deletedFat directory [0x41] 1 0 none k = _
  rw [fat16FindLoop, hitems 0 Nat.one_pos]
  simp only [hother]
  rfl

theorem fat16FindItemInDirectory_iff_deleted : FindsEntry deletedDisk deletedFat 512 2 [0x41] none ↔
    FindOk deletedDisk deletedFat 512 2 (Nat.count (InUse deletedDisk 512) 2) [0x41] bootKernel.heap := by
  obtain ⟨directory, hload⟩ := deletedDisk_loaded
  exact (fat16FindItemInDirectory_iff [0x41] bootKernel hload deletedDisk_terminated).1 _ _
    (deletedDisk_search hload bootKernel)

/-- The file behind a deleted item is not found. -/
theorem fat16FindItemInDirectory_misses :
    ¬ ∀ (disk : Disk) (fs : FatPrivate) (start t : Nat) (directory : FatDirectory) (name : List (BitVec 8))
      (k k' : Kernel) (r : Option FatItem), LoadedFrom disk fs start t directory → Terminated disk start t →
      fat16FindItemInDirectory disk fs directory name k = .ok (r, k') →
      FindsEntry disk fs start t name r := by
  intro h
  obtain ⟨directory, hload⟩ := deletedDisk_loaded
  have hfinds := h _ _ _ _ _ _ _ _ _ hload deletedDisk_terminated (deletedDisk_search hload bootKernel)
  have hlisted : Listed deletedDisk 512 2 [0x41] := by
    refine ⟨1, by decide, by decide, ?_⟩
    unfold HasName
    decide
  obtain ⟨item, hitem⟩ := hfinds.found.mpr hlisted
  cases hitem

end BimbleOS
