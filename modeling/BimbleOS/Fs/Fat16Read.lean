import BimbleOS.Disk.Streamer
import Mathlib.Tactic.Ring

/-!
# `Fs.Fat16Read` — reading cluster chains in `fs/fat/fat16.c`

The functions from `fat16_cluster_to_sector` to `fat16_read_internal`. A read is split at multiples of
the cluster size counted from its own start, so each piece but the last is a whole cluster long, wherever
in a cluster it starts. A piece that starts inside a cluster therefore runs over the cluster's end, and
gets whatever the disk holds there: the next cluster of the chain only if that one is stored next.

`fat16ReadInternal_iff` says when the bytes that arrive are the chain's.
-/

namespace BimbleOS

open CWord Window

/-- The fields of `struct FAT_Header` that are used. -/
structure FatHeader where
  reservedSectors : BitVec 16
  sectorsPerCluster : BitVec 8
  fatCopies : BitVec 8 := 0
  rootDirEntries : BitVec 16 := 0
  sectorsPerFat : BitVec 16 := 0
  deriving DecidableEq, Repr

/-- The part of `struct FAT_Private` that reading uses; `endingSectorPos` is
    `root_directory.ending_sector_pos`. -/
structure FatPrivate where
  header : FatHeader
  endingSectorPos : Nat
  deriving DecidableEq, Repr

def bimbleosFat16FatEntrySize : Int := 2

def bimbleosFat16BadSector : Int := 0xFF7

/-- `fat16_cluster_to_sector`. -/
def fat16ClusterToSector (fs : FatPrivate) (cluster : Int) : Option Int :=
  (checked (cluster - 2)).bind fun ahead =>
    (checked (ahead * fs.header.sectorsPerCluster.toNat)).bind fun sectors =>
      checked (fs.endingSectorPos + sectors)

/-- `fat16_get_fat_entry`: the position is computed in `uint32_t` and passed on as an `int`. -/
def fat16GetFatEntry (disk : Disk) (fs : FatPrivate) (cluster : Int) : Option Int :=
  let fatTablePosition := u32 (fs.header.reservedSectors.toNat * bimbleosSectorSize : Nat)
  (checked (cluster * bimbleosFat16FatEntrySize)).bind fun entry =>
    (diskstreamerRead disk (s32 (u32 (fatTablePosition * u32 entry : Nat))) 2).map fun r =>
      if r.res < 0 then r.res
      else (r.out.foldr (fun b n => b.toNat + 256 * n) 0 : Nat)

/-- The loop of `fat16_get_cluster_for_offset`. -/
def fat16ClusterLoop (disk : Disk) (fs : FatPrivate) : Nat → Int → Option Int
  | 0, cluster => some cluster
  | ahead + 1, cluster =>
      (fat16GetFatEntry disk fs cluster).bind fun entry =>
        if entry = 0xFF8 ∨ entry = 0xFFF then some (- EIO)
        else if entry = bimbleosFat16BadSector then some (- EIO)
        else if entry = 0xFF0 ∨ entry = 0xFF6 then some (- EIO)
        else if entry = 0x00 then some (- EIO)
        else fat16ClusterLoop disk fs ahead entry

/-- The cluster size in bytes. -/
def FatPrivate.clusterBytes (fs : FatPrivate) : Nat := fs.header.sectorsPerCluster.toNat * bimbleosSectorSize

/-- `fat16_get_cluster_for_offset`; a cluster size of zero is a division by zero. -/
def fat16GetClusterForOffset (disk : Disk) (fs : FatPrivate) (startingCluster offset : Int) :
    Option Int :=
  if fs.clusterBytes = 0 then none
  else fat16ClusterLoop disk fs (offset.tdiv fs.clusterBytes).toNat startingCluster

/-- `fat16_read_internal_from_stream`: the result and the bytes written to `out`. -/
def fat16ReadLoop (disk : Disk) (fs : FatPrivate) (cluster : Int) :
    Nat → Int → Int → Option (Int × List (BitVec 8))
  | 0, _, _ => none
  | fuel + 1, offset, total =>
      (fat16GetClusterForOffset disk fs cluster offset).bind fun clusterToUse =>
        if clusterToUse < 0 then some (clusterToUse, [])
        else
          let offsetFromCluster := offset.tmod fs.clusterBytes
          (fat16ClusterToSector fs clusterToUse).bind fun startingSector =>
            (checked (startingSector * bimbleosSectorSize)).bind fun sectorPos =>
              (checked (sectorPos + offsetFromCluster)).bind fun startingPos =>
                let totalToRead := if total > fs.clusterBytes then (fs.clusterBytes : Int) else total
                (diskstreamerRead disk startingPos totalToRead).bind fun r =>
                  if r.res ≠ bimbleosAllOk then some (r.res, r.out)
                  else if total - totalToRead > 0 then
                    (checked (offset + totalToRead)).bind fun offset' =>
                      (fat16ReadLoop disk fs cluster fuel offset' (total - totalToRead)).map fun q =>
                        (q.1, r.out ++ q.2)
                  else some (r.res, r.out)

/-- `fat16_read_internal`: every call of the recursion asks for fewer bytes. -/
def fat16ReadInternal (disk : Disk) (fs : FatPrivate) (startingCluster offset total : Int) :
    Option (Int × List (BitVec 8)) :=
  fat16ReadLoop disk fs startingCluster (total.toNat + 1) offset total

/-! ## Clusters on the disk -/

/-- The disk position of byte `i` of a data cluster. -/
def FatPrivate.clusterPos (fs : FatPrivate) (cluster i : Nat) : Nat :=
  (fs.endingSectorPos + (cluster - 2) * fs.header.sectorsPerCluster.toNat) * 512 + i

/-- The position of byte `o` of the chain `c`, by cluster and offset in it. -/
def FatPrivate.chainPos (fs : FatPrivate) (c : Nat → Nat) (o : Nat) : Nat :=
  fs.clusterPos (c (o / fs.clusterBytes)) (o % fs.clusterBytes)

/-- Byte `o` of the concatenation of the clusters of a chain. -/
def chainByte (disk : Disk) (fs : FatPrivate) (c : Nat → Nat) (o : Nat) : BitVec 8 :=
  disk.byte (fs.chainPos c o)

/-- The piece of a read that starts at offset `o` and is `n` bytes long runs within possible positions,
    and where it leaves its cluster the disk goes on with the chain's next cluster. -/
structure PieceOk (disk : Disk) (fs : FatPrivate) (c : Nat → Nat) (o n : Nat) : Prop where
  offset : o < 2147483648
  position : fs.chainPos c o + n < 2147483648
  across : ∀ j, j < n → fs.clusterBytes ≤ o % fs.clusterBytes + j →
    disk.byte (fs.chainPos c o + j)
      = disk.byte (fs.clusterPos (c (o / fs.clusterBytes + 1)) (o % fs.clusterBytes + j - fs.clusterBytes))

/-- The condition for a read: every piece of it is as `PieceOk` says. -/
def ReadOk (disk : Disk) (fs : FatPrivate) (c : Nat → Nat) (offset total : Nat) : Prop :=
  ∀ i, i * fs.clusterBytes < total →
    PieceOk disk fs c (offset + i * fs.clusterBytes) (min fs.clusterBytes (total - i * fs.clusterBytes))

section Read

variable {disk : Disk} {fs : FatPrivate} {c : Nat → Nat} {o n t : Nat}

theorem clusterBytes_le (fs : FatPrivate) : fs.clusterBytes ≤ 130560 := by
  have h := fs.header.sectorsPerCluster.isLt
  unfold FatPrivate.clusterBytes bimbleosSectorSize
  omega

/-- A piece that stays in its cluster reads the chain. -/
theorem chainPos_inside {j : Nat} (h : o % fs.clusterBytes + j < fs.clusterBytes) :
    fs.chainPos c (o + j) = fs.chainPos c o + j := by
  have hdiv : (o + j) / fs.clusterBytes = o / fs.clusterBytes := by
    rw [Nat.add_div (by omega), if_neg (by rw [Nat.mod_eq_of_lt (by omega : j < fs.clusterBytes)]; omega),
      Nat.div_eq_of_lt (by omega : j < fs.clusterBytes)]
    rfl
  have hmod : (o + j) % fs.clusterBytes = o % fs.clusterBytes + j := by
    rw [Nat.add_mod, Nat.mod_eq_of_lt (by omega : j < fs.clusterBytes), Nat.mod_eq_of_lt h]
  unfold FatPrivate.chainPos FatPrivate.clusterPos
  rw [hdiv, hmod, Nat.add_assoc]

/-- Past the end of the cluster the chain goes on in its next cluster. -/
theorem chainPos_across {j : Nat} (hj : j < fs.clusterBytes)
    (h : fs.clusterBytes ≤ o % fs.clusterBytes + j) :
    fs.chainPos c (o + j)
      = fs.clusterPos (c (o / fs.clusterBytes + 1)) (o % fs.clusterBytes + j - fs.clusterBytes) := by
  have hlt := Nat.mod_lt o (by omega : 0 < fs.clusterBytes)
  have hdiv : (o + j) / fs.clusterBytes = o / fs.clusterBytes + 1 := by
    rw [Nat.add_div (by omega), if_pos (by rw [Nat.mod_eq_of_lt hj]; exact h), Nat.div_eq_of_lt hj]
  have hmod : (o + j) % fs.clusterBytes = o % fs.clusterBytes + j - fs.clusterBytes := by
    rw [Nat.add_mod, Nat.mod_eq_of_lt hj, Nat.mod_eq_sub_mod h, Nat.mod_eq_of_lt (by omega)]
  unfold FatPrivate.chainPos
  rw [hdiv, hmod]

/-- A piece is fine exactly when the bytes at its position are the chain's. -/
theorem pieceOk_iff (ho : o < 2147483648) (hn : n ≤ fs.clusterBytes) : PieceOk disk fs c o n ↔
    fs.chainPos c o + n < 2147483648 ∧
      window disk.byte (fs.chainPos c o) n = window (chainByte disk fs c) o n := by
  rw [window_inj]
  constructor
  · intro h
    refine ⟨h.position, fun j hj => ?_⟩
    unfold chainByte
    by_cases hin : o % fs.clusterBytes + j < fs.clusterBytes
    · rw [chainPos_inside hin]
    · rw [chainPos_across (by omega) (by omega)]
      exact h.across j hj (by omega)
  · intro ⟨hpos, hbytes⟩
    refine ⟨ho, hpos, fun j hj hacross => ?_⟩
    rw [hbytes j hj]
    unfold chainByte
    rw [chainPos_across (by omega) hacross]

/-- A read of more than a cluster is its first piece and the rest. -/
theorem readOk_step (hB : 0 < fs.clusterBytes) (ht : fs.clusterBytes < t) : ReadOk disk fs c o t ↔
    PieceOk disk fs c o fs.clusterBytes ∧
      ReadOk disk fs c (o + fs.clusterBytes) (t - fs.clusterBytes) := by
  have hshift : ∀ i, o + (i + 1) * fs.clusterBytes = o + fs.clusterBytes + i * fs.clusterBytes := by
    intro i; ring
  have hrest : ∀ i, t - (i + 1) * fs.clusterBytes = t - fs.clusterBytes - i * fs.clusterBytes := by
    intro i; rw [Nat.add_mul, Nat.one_mul]; omega
  constructor
  · intro h
    refine ⟨?_, fun i hi => ?_⟩
    · have hfirst := h 0 (by omega)
      rwa [Nat.zero_mul, Nat.add_zero, Nat.sub_zero, Nat.min_eq_left (Nat.le_of_lt ht)] at hfirst
    · have hnext := h (i + 1) (by rw [Nat.add_mul, Nat.one_mul]; omega)
      rwa [hshift, hrest] at hnext
  · intro ⟨hfirst, h⟩ i hi
    cases i with
    | zero =>
        rw [Nat.zero_mul, Nat.add_zero, Nat.sub_zero, Nat.min_eq_left (Nat.le_of_lt ht)]
        exact hfirst
    | succ i =>
        rw [hshift, hrest]
        exact h i (by rw [Nat.add_mul, Nat.one_mul] at hi; omega)

/-- A read within one cluster size is one piece. -/
theorem readOk_last (h0 : 0 < t) (ht : t ≤ fs.clusterBytes) :
    ReadOk disk fs c o t ↔ PieceOk disk fs c o t := by
  constructor
  · intro h
    have hfirst := h 0 (by omega)
    rwa [Nat.zero_mul, Nat.add_zero, Nat.sub_zero, Nat.min_eq_right ht] at hfirst
  · intro h i hi
    cases i with
    | zero =>
        rw [Nat.zero_mul, Nat.add_zero, Nat.sub_zero, Nat.min_eq_right ht]
        exact h
    | succ i =>
        rw [Nat.add_mul, Nat.one_mul] at hi
        omega

/-- Locating and reading one piece: the computation of the position and the streamer together succeed
    exactly when the piece ends at a possible position. -/
theorem readPiece_eq {β : Type} {cluster i : Nat} (hcluster : 2 ≤ cluster) (hB : 0 < fs.clusterBytes)
    (hn : n ≤ fs.clusterBytes) (next : StreamRead → Option β) :
    ((fat16ClusterToSector fs cluster).bind fun startingSector =>
      (checked (startingSector * bimbleosSectorSize)).bind fun sectorPos =>
        (checked (sectorPos + (i : Nat))).bind fun startingPos =>
          (diskstreamerRead disk startingPos n).bind next)
      = if fs.clusterPos cluster i + n < 2147483648 then next (rangeRead disk (fs.clusterPos cluster i) n)
        else none := by
  have hspc : 0 < fs.header.sectorsPerCluster.toNat := Nat.pos_of_mul_pos_right hB
  have hlen := clusterBytes_le fs
  obtain ⟨a, rfl⟩ : ∃ a, cluster = a + 2 := ⟨cluster - 2, by omega⟩
  have hsectors : a ≤ a * fs.header.sectorsPerCluster.toNat := Nat.le_mul_of_pos_right a hspc
  have hpos : fs.clusterPos (a + 2) i
      = (fs.endingSectorPos + a * fs.header.sectorsPerCluster.toNat) * 512 + i := rfl
  unfold fat16ClusterToSector
  rw [hpos]
  generalize hb : a * fs.header.sectorsPerCluster.toNat = b at hsectors
  have hsize : (bimbleosSectorSize : Int) = 512 := rfl
  simp only [hsize, Option.bind_assoc]
  -- every intermediate value is at most the final position
  refine checked_bind (n := a) (by omega) (fun _ => if_neg (by omega)) fun _ => ?_
  refine checked_bind (n := b) (by rw [← hb, Int.natCast_mul]) (fun _ => if_neg (by omega)) fun _ => ?_
  refine checked_bind (n := fs.endingSectorPos + b) (by omega) (fun _ => if_neg (by omega)) fun _ => ?_
  refine checked_bind (n := (fs.endingSectorPos + b) * 512) (by omega) (fun _ => if_neg (by omega))
    fun _ => ?_
  refine checked_bind (n := (fs.endingSectorPos + b) * 512 + i) (by omega)
    (fun _ => if_neg (by omega)) fun _ => ?_
  rw [diskstreamerRead_spec (by omega)]
  by_cases hend : (fs.endingSectorPos + b) * 512 + i + n < 2147483648
  · rw [if_pos hend, if_pos hend, Option.bind_some]
  · rw [if_neg hend, if_neg hend, Option.bind_none]

/-- The last call of a read: at most one cluster size. -/
theorem fat16ReadLoop_last {start : Int} {cluster fuel : Nat} (hcluster : 2 ≤ cluster)
    (hlookup : fat16GetClusterForOffset disk fs start o = some (cluster : Int))
    (hB : 0 < fs.clusterBytes) (ht : t ≤ fs.clusterBytes) :
    fat16ReadLoop disk fs start (fuel + 1) o t
      = if fs.clusterPos cluster (o % fs.clusterBytes) + t < 2147483648 then
          some (0, window disk.byte (fs.clusterPos cluster (o % fs.clusterBytes)) t)
        else none := by
  have hmod : (o : Int).tmod fs.clusterBytes = (o % fs.clusterBytes : Nat) := rfl
  have hneg : ¬ ((cluster : Int) < 0) := by omega
  have hread : (if (t : Int) > fs.clusterBytes then (fs.clusterBytes : Int) else t) = (t : Nat) :=
    if_neg (by omega)
  have hmore : ¬ ((t : Int) - t > 0) := by omega
  rw [fat16ReadLoop]
  simp only [hlookup, Option.bind_some, hneg, if_false, hmod, hread, hmore]
  rw [readPiece_eq hcluster hB ht]
  rfl

/-- A call that reads a whole cluster size and goes on. -/
theorem fat16ReadLoop_more {start : Int} {cluster fuel : Nat} (hcluster : 2 ≤ cluster)
    (hlookup : fat16GetClusterForOffset disk fs start o = some (cluster : Int))
    (hB : 0 < fs.clusterBytes) (ht : fs.clusterBytes < t) :
    fat16ReadLoop disk fs start (fuel + 1) o t
      = if fs.clusterPos cluster (o % fs.clusterBytes) + fs.clusterBytes < 2147483648
          ∧ o + fs.clusterBytes < 2147483648 then
          (fat16ReadLoop disk fs start fuel (o + fs.clusterBytes : Nat) (t - fs.clusterBytes : Nat)).map
            fun q => (q.1, window disk.byte (fs.clusterPos cluster (o % fs.clusterBytes)) fs.clusterBytes
              ++ q.2)
        else none := by
  have hmod : (o : Int).tmod fs.clusterBytes = (o % fs.clusterBytes : Nat) := rfl
  have hneg : ¬ ((cluster : Int) < 0) := by omega
  have hread : (if (t : Int) > fs.clusterBytes then (fs.clusterBytes : Int) else t)
      = (fs.clusterBytes : Nat) := if_pos (by omega)
  have hmore : (t : Int) - fs.clusterBytes > 0 := by omega
  have hrest : (t : Int) - fs.clusterBytes = (t - fs.clusterBytes : Nat) := by omega
  rw [fat16ReadLoop]
  simp only [hlookup, Option.bind_some, hneg, if_false, hmod, hread, hmore, if_true]
  rw [readPiece_eq hcluster hB (Nat.le_refl _)]
  by_cases hpos : fs.clusterPos cluster (o % fs.clusterBytes) + fs.clusterBytes < 2147483648
  · have hres : ¬ ((rangeRead disk (fs.clusterPos cluster (o % fs.clusterBytes)) fs.clusterBytes).res
        ≠ bimbleosAllOk) := fun h => h rfl
    rw [if_pos hpos, if_neg hres, hrest]
    refine checked_bind (n := o + fs.clusterBytes) (by omega) (fun hbig => ?_) (fun hsmall => ?_)
    · rw [if_neg (by omega)]
    · rw [if_pos ⟨hpos, hsmall⟩]
      rfl
  · rw [if_neg hpos, if_neg (fun h => hpos h.1)]

/-- Two readings with first parts of one length agree exactly when both parts do. -/
theorem map_append_eq_some {x : Option (Int × List (BitVec 8))} {p u v : List (BitVec 8)}
    (hlen : p.length = u.length) :
    x.map (fun q => (q.1, p ++ q.2)) = some ((0 : Int), u ++ v) ↔ p = u ∧ x = some (0, v) := by
  constructor
  · intro h
    obtain ⟨q, hq, heq⟩ := Option.map_eq_some_iff.mp h
    obtain ⟨hres, happ⟩ := Prod.mk.inj heq
    obtain ⟨hp, hv⟩ := List.append_inj happ hlen
    refine ⟨hp, ?_⟩
    rw [hq, ← hres, ← hv]
  · rintro ⟨rfl, rfl⟩
    rfl

/-- **A read delivers the chain's bytes exactly when every piece of it is fine.** The induction follows
    the recursion; `m` is the index of the last cluster of the chain. -/
theorem fat16ReadLoop_iff {m fuel : Nat} (hchain : ∀ k, k ≤ m → 2 ≤ c k)
    (hlookup : ∀ o, o < (m + 1) * fs.clusterBytes →
      fat16GetClusterForOffset disk fs (c 0) o = some (c (o / fs.clusterBytes) : Int))
    (hB : 0 < fs.clusterBytes) (h0 : 0 < t) (hfuel : t < fuel) (ho : o < 2147483648)
    (hend : o + t ≤ (m + 1) * fs.clusterBytes) :
    fat16ReadLoop disk fs (c 0) fuel o t = some (0, window (chainByte disk fs c) o t) ↔
      ReadOk disk fs c o t := by
  induction fuel generalizing o t with
  | zero => exact absurd hfuel (Nat.not_lt_zero _)
  | succ fuel ih =>
      have hindex : o / fs.clusterBytes ≤ m :=
        Nat.le_of_lt_succ ((Nat.div_lt_iff_lt_mul hB).mpr (show o < (m + 1) * fs.clusterBytes by omega))
      have hcluster := hchain _ hindex
      have hfound := hlookup o (by omega)
      have hP : fs.clusterPos (c (o / fs.clusterBytes)) (o % fs.clusterBytes) = fs.chainPos c o := rfl
      by_cases ht : t ≤ fs.clusterBytes
      · -- the last piece
        rw [fat16ReadLoop_last hcluster hfound hB ht, readOk_last h0 ht, pieceOk_iff ho ht, hP]
        by_cases hpos : fs.chainPos c o + t < 2147483648
        · rw [if_pos hpos]
          exact ⟨fun h => ⟨hpos, (Prod.mk.inj (Option.some.inj h)).2⟩, fun h => by rw [h.2]⟩
        · rw [if_neg hpos]
          exact ⟨fun h => (by cases h), fun h => absurd h.1 hpos⟩
      · -- a whole cluster size, then the recursive call
        rw [fat16ReadLoop_more hcluster hfound hB (by omega), readOk_step hB (by omega),
          pieceOk_iff ho (Nat.le_refl _), hP]
        by_cases hpos : fs.chainPos c o + fs.clusterBytes < 2147483648 ∧ o + fs.clusterBytes < 2147483648
        · have hsplit : window (chainByte disk fs c) o t
              = window (chainByte disk fs c) o fs.clusterBytes
                ++ window (chainByte disk fs c) (o + fs.clusterBytes) (t - fs.clusterBytes) := by
            rw [← window_add, Nat.add_sub_cancel' (by omega)]
          rw [if_pos hpos, hsplit, map_append_eq_some (by rw [length_window, length_window]),
            ih (by omega) (by omega) hpos.2 (by omega)]
          exact ⟨fun h => ⟨⟨hpos.1, h.1⟩, h.2⟩, fun h => ⟨h.1.2, h.2⟩⟩
        · rw [if_neg hpos]
          refine ⟨fun h => (by cases h), fun h => absurd ⟨h.1.1, ?_⟩ hpos⟩
          -- the rest of the read starts at a possible offset
          have hrest := (h.2 0 (by omega)).offset
          omega

/-- In the first cluster no table entry is followed. -/
theorem fat16GetClusterForOffset_first {start : Int} (h : o < fs.clusterBytes) :
    fat16GetClusterForOffset disk fs start o = some start := by
  have hdiv : ((o : Int).tdiv fs.clusterBytes).toNat = 0 := Nat.div_eq_of_lt h
  unfold fat16GetClusterForOffset
  rw [if_neg (by omega), hdiv]
  rfl

end Read

/-- **`fat16_read_internal` reads the chain exactly when every piece of the read is fine**: it runs
    within possible positions, and where it crosses the end of its cluster the disk happens to hold the
    next cluster of the chain there. -/
theorem fat16ReadInternal_iff {disk : Disk} {fs : FatPrivate} {c : Nat → Nat} {m offset total : Nat}
    (hchain : ∀ k, k ≤ m → 2 ≤ c k)
    (hlookup : ∀ o, o < (m + 1) * fs.clusterBytes →
      fat16GetClusterForOffset disk fs (c 0) o = some (c (o / fs.clusterBytes) : Int))
    (htotal : 1 ≤ total) (hoffset : offset < 2147483648)
    (hend : offset + total ≤ (m + 1) * fs.clusterBytes) :
    fat16ReadInternal disk fs (c 0) offset total
        = some (0, window (chainByte disk fs c) offset total) ↔
      ReadOk disk fs c offset total := by
  have hB : 0 < fs.clusterBytes := by
    rcases Nat.eq_zero_or_pos fs.clusterBytes with h | h
    · rw [h, Nat.mul_zero] at hend
      omega
    · exact h
  exact fat16ReadLoop_iff hchain hlookup hB htotal (Nat.lt_succ_self _) hoffset hend

/-- One sector a cluster, data from sector 10 on, the table in sectors 4 and up as the code looks it
    up. -/
def smallFat : FatPrivate where
  header := { reservedSectors := 1, sectorsPerCluster := 1 }
  endingSectorPos := 10

/-- A disk whose table sends cluster 2 to cluster 5, in sector 13; that cluster starts with a 1. -/
def splitDisk : Disk where
  sector := fun lba i => if lba = 4 ∧ i = 0 then 5 else if lba = 13 ∧ i = 0 then 1 else 0

/-- The chain of `splitDisk`: cluster 2, then cluster 5. -/
def splitChain (k : Nat) : Nat := if k = 0 then 2 else 5

/-- The chain of a table that sends cluster 2 to cluster 5. -/
theorem smallFat_lookup {disk : Disk} (hentry : fat16GetFatEntry disk smallFat 2 = some 5) (o : Nat)
    (h : o < (1 + 1) * smallFat.clusterBytes) : fat16GetClusterForOffset disk smallFat (splitChain 0) o
      = some (splitChain (o / smallFat.clusterBytes) : Int) := by
  by_cases hfirst : o < smallFat.clusterBytes
  · rw [fat16GetClusterForOffset_first hfirst, Nat.div_eq_of_lt hfirst]
  · have hdiv : o / smallFat.clusterBytes = 1 := by
      have hge : ¬ o < 512 := hfirst
      have hlt : o < 1024 := h
      show o / 512 = 1
      omega
    have htdiv : ((o : Int).tdiv smallFat.clusterBytes).toNat = 1 := hdiv
    unfold fat16GetClusterForOffset
    rw [if_neg (by decide), htdiv, hdiv]
    show (fat16GetFatEntry disk smallFat 2).bind _ = _
    rw [hentry]
    rfl

theorem splitDisk_lookup (o : Nat) (h : o < (1 + 1) * smallFat.clusterBytes) :
    fat16GetClusterForOffset splitDisk smallFat (splitChain 0) o
      = some (splitChain (o / smallFat.clusterBytes) : Int) :=
  smallFat_lookup (by decide +kernel) o h

/-- 800 bytes at offset 100 of that chain, which end in its second cluster. -/
theorem fat16ReadInternal_iff_small :
    fat16ReadInternal splitDisk smallFat (splitChain 0) (100 : Nat) (800 : Nat)
        = some (0, window (chainByte splitDisk smallFat splitChain) 100 800) ↔
      ReadOk splitDisk smallFat splitChain 100 800 :=
  fat16ReadInternal_iff (m := 1) (by decide) splitDisk_lookup (by decide) (by decide) (by decide)

/-- 512 bytes at offset 1 of that chain: the last one is read from sector 11, which belongs to
    cluster 3. -/
theorem fat16ReadInternal_crosses_cluster :
    ¬ ∀ (disk : Disk) (fs : FatPrivate) (c : Nat → Nat) (m offset total : Nat), (∀ k, k ≤ m → 2 ≤ c k) →
      (∀ o, o < (m + 1) * fs.clusterBytes →
        fat16GetClusterForOffset disk fs (c 0) o = some (c (o / fs.clusterBytes) : Int)) →
      1 ≤ total → offset < 2147483648 → offset + total ≤ (m + 1) * fs.clusterBytes →
      fat16ReadInternal disk fs (c 0) offset total
        = some (0, window (chainByte disk fs c) offset total) := by
  intro h
  have hread := h splitDisk smallFat splitChain 1 1 512 (by decide) splitDisk_lookup (by decide)
    (by decide) (by decide)
  have hok := (fat16ReadLoop_iff (by decide) splitDisk_lookup (by decide) (by decide)
    (Nat.lt_succ_self 512) (by decide) (by decide)).mp hread
  have hpiece := (hok 0 (by decide)).across 511 (by decide) (by decide)
  exact absurd hpiece (by decide +kernel)

end BimbleOS
