import BimbleOS.Fs.File

/-!
# `Fs.Faults` — faults that a function of the file system cannot stop with

Each function of `fs/fat/fat16.c` can stop with a few faults only. The lemmas below take the fault as a parameter, and
ask that it is none of those.
-/

namespace BimbleOS

open CWord Exec

section Never

variable {e : Fault} {disk : Disk} {fs : FatPrivate} {data : FatFileDescriptor} {item : FatDirectoryItem}

theorem deref_never {ptr : Nat} (hnull : .nullPointer ≠ e) : Never e (deref ptr) :=
  Never.ite (Never.throw hnull) Never.pure

theorem defined_never {α : Type} {a : Option α} (hundefined : .undefined ≠ e) : Never e (defined a) := by
  cases a with
  | none => exact Never.throw hundefined
  | some a => exact Never.pure

theorem kzalloc_never {size : Nat} (hbounds : .outOfBounds ≠ e) : Never e (kzalloc size) := by
  intro k h
  rw [kzalloc_eq] at h
  split at h
  · cases h
  · split at h
    · cases h
      exact hbounds rfl
    · cases h

theorem storeOut_never {ptr : Nat} {bytes : List (BitVec 8)} (hnull : .nullPointer ≠ e) :
    Never e (storeOut ptr bytes) :=
  Never.ite (Never.throw hnull) Never.modify

theorem readInternal_never {cluster offset total : Int} (hdivision : .divisionByZero ≠ e)
    (hundefined : .undefined ≠ e) :
    Never e (readInternal disk fs cluster offset total) :=
  Never.ite (Never.throw hdivision) (defined_never hundefined)

theorem pathparserCopyPart_never {ptr i : Nat} {path : List (BitVec 8)} (hnull : .nullPointer ≠ e)
    (hbounds : .outOfBounds ≠ e) : Never e (pathparserCopyPart ptr i path) := by
  induction path generalizing i with
  | nil => exact Never.pure
  | cons c path ih =>
      rw [pathparserCopyPart]
      apply Never.ite Never.pure
      apply Never.bind (deref_never hnull)
      intro _
      apply Never.ite (Never.throw hbounds)
      exact Never.bind ih fun _ => Never.pure

theorem pathparserParsePathPart_never {path : List (BitVec 8)} (hnull : .nullPointer ≠ e) (hbounds : .outOfBounds ≠ e) :
    Never e (pathparserParsePathPart path) := by
  have hpart : Never e (pathparserGetPathPart path) := by
    apply Never.bind (kzalloc_never hbounds)
    intro ptr
    apply Never.bind (pathparserCopyPart_never hnull hbounds)
    intro q
    exact Never.ite (Never.bind Never.modify fun _ => Never.pure) Never.pure
  apply Never.bind hpart
  intro q
  rcases q with ⟨_ | str, rest⟩
  · exact Never.pure
  · exact Never.bind (kzalloc_never hbounds) fun _ => Never.bind (deref_never hnull) fun _ => Never.pure

theorem pathparserParseParts_never {fuel : Nat} {path : List (BitVec 8)} (hnull : .nullPointer ≠ e)
    (hbounds : .outOfBounds ≠ e) : Never e (pathparserParseParts fuel path) := by
  induction fuel generalizing path with
  | zero => exact Never.pure
  | succ fuel ih =>
      apply Never.bind (pathparserParsePathPart_never hnull hbounds)
      intro q
      rcases q with ⟨_ | part, rest⟩
      · exact Never.pure
      · exact Never.bind ih fun _ => Never.pure

/-- The parser follows null pointers, and writes to its buffers. -/
theorem pathparserParse_never {path : List (BitVec 8)} (hnull : .nullPointer ≠ e) (hbounds : .outOfBounds ≠ e) :
    Never e (pathparserParse path) := by
  apply Never.ite Never.pure
  apply Never.ite Never.pure
  have hroot : Never e (pathparserCreateRoot (pathparserGetDriveByPath path).1) :=
    Never.bind (kzalloc_never hbounds) fun _ => Never.bind (deref_never hnull) fun _ => Never.pure
  apply Never.bind hroot
  intro root
  exact Never.bind (pathparserParseParts_never hnull hbounds) fun _ => Never.pure

/-- A new descriptor is written to without a check. -/
theorem fileNewDescriptor_never (hnull : .nullPointer ≠ e) (hbounds : .outOfBounds ≠ e) :
    Never e fileNewDescriptor := by
  have hloop : ∀ left i, Never e (fileNewDescriptorLoop left i) := by
    intro left
    induction left with
    | zero => exact fun i => Never.pure
    | succ left ih =>
        intro i k
        rw [fileNewDescriptorLoop, get_bind]
        apply Never.ite (ih (i + 1))
        apply Never.bind (kzalloc_never hbounds)
        intro addr
        exact Never.bind (deref_never hnull) fun _ => Never.bind Never.modify fun _ => Never.pure
  exact hloop _ 0

/-- The loop stops with what a single read stops with. -/
theorem fat16ReadElements_never {size n : Nat} {offset : Int} {ptr : Nat} (hnull : .nullPointer ≠ e)
    (hread : ∀ cluster offset total, Never e (readInternal disk fs cluster offset total)) :
    Never e (fat16ReadElements disk fs item size n offset ptr) := by
  induction n generalizing offset ptr with
  | zero => exact Never.pure
  | succ n ih =>
      rw [fat16ReadElements]
      apply Never.bind (hread _ _ _)
      intro read
      apply Never.bind (storeOut_never hnull)
      intro _
      exact Never.ite Never.pure ih

/-- `fat16_stat` looks at the tag. -/
theorem fat16Stat_never (hnull : .nullPointer ≠ e) : Never e (fat16Stat data) := by
  unfold fat16Stat
  cases data.item.body with
  | directory => exact Never.pure
  | file copy item => exact Never.bind (deref_never hnull) fun _ => Never.pure

/-- So does `fat16_seek`. -/
theorem fat16Seek_never {offset : Nat} {mode : SeekMode} (hnull : .nullPointer ≠ e) :
    Never e (fat16Seek data offset mode) := by
  unfold fat16Seek
  cases data.item.body with
  | directory => exact Never.pure
  | file copy item =>
      apply Never.bind (deref_never hnull)
      intro _
      apply Never.ite Never.pure
      cases mode with
      | seekSet => exact Never.pure
      | seekCur => exact Never.pure
      | seekEnd => exact Never.pure
      | other => exact Never.pure

theorem fat16FreeDirectory_never {ptr : FatDirectoryPtr} (hfreed : .useAfterFree ≠ e) :
    Never e (fat16FreeDirectory ptr) := by
  cases ptr with
  | null => exact Never.pure
  | freed => exact Never.throw hfreed
  | live addr items content =>
      apply Never.ite
      · exact Never.bind Never.modify fun _ => Never.modify
      · exact Never.modify

/-- `fat16_fat_item_free` looks at the tag too. -/
theorem fat16FatItemFree_never {fatItem : FatItem} (hfreed : .useAfterFree ≠ e) :
    Never e (fat16FatItemFree fatItem) := by
  unfold fat16FatItemFree
  cases fatItem.body with
  | file => exact Never.bind Never.modify fun _ => Never.modify
  | directory ptr => exact Never.bind (fat16FreeDirectory_never hfreed) fun _ => Never.modify

theorem fat16Close_never (hfreed : .useAfterFree ≠ e) : Never e (fat16Close data) :=
  Never.bind (fat16FatItemFree_never hfreed) fun _ => Never.bind Never.modify fun _ => Never.pure

end Never

end BimbleOS
