import BimbleOS.Fs.Fat16Read
import BimbleOS.Lib.Bytes

/-!
# `Fs.Fat16Item` — FAT16 directory entries

`struct FAT_DirectoryItem` and the functions of `fs/fat/fat16.c` that read directories and compare file
names. A C string is the list of its bytes; what is behind the list reads as the terminating zero.
-/

namespace BimbleOS

open Bytes CWord

/-! ## `string.c` -/

def tolower (c : BitVec 8) : BitVec 8 := if 65 ≤ c.toNat ∧ c.toNat ≤ 90 then c + 32 else c

/-- `strlen`. -/
def strlen (s : List (BitVec 8)) : Nat := (s.takeWhile (· ≠ 0)).length

/-- `strnlen`. -/
def strnlen (s : List (BitVec 8)) (max : Nat) : Nat := min (strlen s) max

def isDigit (c : BitVec 8) : Bool := 48 ≤ c.toNat ∧ c.toNat ≤ 57

def toNumericDigit (c : BitVec 8) : Int := (c.toNat : Int) - 48

/-- `istrncmp`: zero for equal strings. -/
def istrncmp : Nat → List (BitVec 8) → List (BitVec 8) → Int
  | 0, _, _ => 0
  | n + 1, s1, s2 =>
      let u1 := s1.headD 0
      let u2 := s2.headD 0
      if u1 ≠ u2 ∧ tolower u1 ≠ tolower u2 then (u1.toNat : Int) - u2.toNat
      else if u1 = 0 then 0
      else istrncmp n s1.tail s2.tail

/-- `strncmp`. -/
def strncmp : Nat → List (BitVec 8) → List (BitVec 8) → Int
  | 0, _, _ => 0
  | n + 1, s1, s2 =>
      let u1 := s1.headD 0
      let u2 := s2.headD 0
      if u1 ≠ u2 then (u1.toNat : Int) - u2.toNat
      else if u1 = 0 then 0
      else strncmp n s1.tail s2.tail

/-! ## `struct FAT_DirectoryItem` -/

def fatFileReadOnly : BitVec 8 := 0x01
def fatFileSubdirectory : BitVec 8 := 0x10

/-- The fields that are used; `attr` is `attribute`. -/
structure FatDirectoryItem where
  filename : List (BitVec 8)
  ext : List (BitVec 8)
  attr : BitVec 8
  high16BitsFirstCluster : BitVec 16
  low16BitsFirstCluster : BitVec 16
  filesize : BitVec 32
  deriving DecidableEq, Repr

def sizeofFatDirectoryItem : Nat := 32

/-- The packed structure that starts at byte `i`. -/
def FatDirectoryItem.ofBytes (bytes : List (BitVec 8)) (i : Nat) : FatDirectoryItem :=
  let m : Mem := fun a => bytes.getD (i + a) 0
  { filename := Window.window m 0 8
    ext := Window.window m 8 3
    attr := m 11
    high16BitsFirstCluster := load16 m 20
    low16BitsFirstCluster := load16 m 26
    filesize := load32 m 28 }

/-- `item->attribute & FAT_FILE_SUBDIRECTORY`. -/
def FatDirectoryItem.isSubdirectory (item : FatDirectoryItem) : Bool :=
  item.attr &&& fatFileSubdirectory ≠ 0

/-- `fat16_to_proper_string`: what is appended to `out`, at most the whole field. -/
def fat16ToProperString (field : List (BitVec 8)) : List (BitVec 8) :=
  field.takeWhile fun c => c ≠ 0x00 ∧ c ≠ 0x20

/-- `fat16_get_full_relative_filename`. -/
def fat16GetFullRelativeFilename (item : FatDirectoryItem) : List (BitVec 8) :=
  let name := fat16ToProperString item.filename
  if item.ext.headD 0 ≠ 0x00 ∧ item.ext.headD 0 ≠ 0x20 then
    name ++ 0x2e :: fat16ToProperString item.ext
  else name

/-- `fat16_get_first_cluster`: the two halves are or-ed, without a shift. -/
def fat16GetFirstCluster (item : FatDirectoryItem) : Nat :=
  (item.high16BitsFirstCluster ||| item.low16BitsFirstCluster).toNat

/-! ## Directories -/

/-- `struct FAT_Directory`, its item array as a list. -/
structure FatDirectory where
  item : List FatDirectoryItem
  total : Int
  deriving DecidableEq, Repr

/-- `struct FAT_Private` of a mounted disk. -/
structure FatVolume where
  fs : FatPrivate
  rootDirectory : FatDirectory

/-- `struct Disk`: the sectors, and what `filesystem` and `fs_private` point to unless they are null. -/
structure Drive where
  disk : Disk
  filesystem : Option FatVolume

/-- The loop of `fat16_get_total_items_for_directory`, with the stream at `pos` and `i` items counted. It
    ends at the first item without a name. -/
def fat16TotalItemsLoop (disk : Disk) : Nat → Int → Nat → Option Int
  | 0, _, _ => none
  | fuel + 1, pos, i =>
      (diskstreamerRead disk pos sizeofFatDirectoryItem).bind fun r =>
        if r.res ≠ bimbleosAllOk then some (- EIO)
        else if r.out.headD 0 = 0x00 then some (i : Int)
        else if r.out.headD 0 = 0xE5 then fat16TotalItemsLoop disk fuel r.pos i
        else fat16TotalItemsLoop disk fuel r.pos (i + 1)

/-- `fat16_get_total_items_for_directory`. Positions stay below `2^31`, which bounds the rounds. -/
def fat16GetTotalItemsForDirectory (disk : Disk) (directoryStartSector : Nat) : Option Int :=
  fat16TotalItemsLoop disk 67108865
    (s32 (u32 (directoryStartSector * bimbleosSectorSize : Nat))) 0

end BimbleOS
