import BimbleOS.Fs.FileUse

/-!
# `Fs.FilePlaces` — where the bytes of a read come from

A read of a file is made of pieces: each is one cluster size long or what is left, and starts at the place of its
offset in the cluster that the table gives. A piece that starts inside a cluster runs over its end into the cluster
that is stored next. Which bytes are delivered is said by the pieces alone (`fat16ReadInternal_places`), and whether
they are bytes of the file by the clusters that a piece lies in (`forall_filePlace_iff`).
-/

namespace BimbleOS

open CWord Window

/-! ## The streamer -/

/-- The byte at a disk position, which may be one in front of the disk. -/
def Disk.byteAt (disk : Disk) (p : Int) : BitVec 8 := disk.sector (p / 512) (p % 512).toNat

/-- The `n` disk positions from `p` on. -/
def placesFrom (p : Int) (n : Nat) : List Int := window (fun j => p + j) 0 n

theorem mem_placesFrom {p x : Int} {n : Nat} : x ∈ placesFrom p n ↔ ∃ j : Nat, j < n ∧ x = p + j := by
  unfold placesFrom window
  rw [List.mem_map]
  constructor
  · rintro ⟨j, hj, rfl⟩
    exact ⟨j, List.mem_range.mp hj, by rw [Nat.zero_add]⟩
  · rintro ⟨j, hj, rfl⟩
    exact ⟨j, List.mem_range.mpr hj, by rw [Nat.zero_add]⟩

theorem placesFrom_add (p : Int) (m n : Nat) : placesFrom p (m + n) = placesFrom p m ++ placesFrom (p + m) n := by
  have hshift : window (fun j => p + (j : Int)) (0 + m) n = placesFrom (p + m) n := by
    refine window_inj.mpr fun j _ => ?_
    push_cast
    ring
  rw [← hshift]
  exact window_add ..

theorem map_placesFrom {α : Type} (f : Int → α) (p : Int) (n : Nat) :
    (placesFrom p n).map f = window (fun j => f (p + j)) 0 n := by
  unfold placesFrom window
  rw [List.map_map]
  rfl

section Streamer

variable {disk : Disk} {fuel : Nat} {pos total : Int} {r : StreamRead}

/-- **A read of the streamer** delivers the bytes from its position on. The induction follows the recursion. -/
theorem diskstreamerReadLoop_places (h : diskstreamerReadLoop disk fuel pos total = some r) :
    r.out = (placesFrom pos total.toNat).map disk.byteAt := by
  induction fuel generalizing pos total r with
  | zero => cases h
  | succ fuel ih =>
      have hsize : (bimbleosSectorSize : Int) = 512 := rfl
      have hok : ¬ (diskReadBlock disk (pos.tdiv bimbleosSectorSize)).1 < 0 := Int.lt_irrefl 0
      unfold diskstreamerReadLoop at h
      obtain ⟨last, hlast, h⟩ := Option.bind_eq_some_iff.mp h
      simp only [hok, if_false] at h
      have hsum : last = pos.tmod bimbleosSectorSize + total := by
        unfold checked at hlast
        split at hlast
        · exact (Option.some.inj hlast).symm
        · cases hlast
      have hdivided := Int.mul_tdiv_add_tmod pos 512
      have hbelow := Int.tmod_lt_of_pos pos (show (0 : Int) < 512 by decide)
      -- what lies in one sector
      have hinside : ∀ n : Nat, 0 ≤ pos.tmod 512 → pos.tmod 512 + n ≤ 512 →
          window (disk.sector (pos.tdiv 512)) (pos.tmod 512).toNat n = (placesFrom pos n).map disk.byteAt := by
        intro n hoffset hn
        rw [map_placesFrom]
        refine window_inj.mpr fun j hj => ?_
        have hdiv : (pos + ((0 + j : Nat) : Int)) / 512 = pos.tdiv 512 := by omega
        have hmod : ((pos + ((0 + j : Nat) : Int)) % 512).toNat = (pos.tmod 512).toNat + j := by omega
        unfold Disk.byteAt
        rw [hdiv, hmod]
      rw [hsize] at h hsum
      by_cases hover : (512 : Int) ≤ last
      · simp only [hover, decide_true, if_true] at h
        split at h
        · cases h
        rename_i hstart
        obtain ⟨pos', hpos', h⟩ := Option.bind_eq_some_iff.mp h
        obtain ⟨q, hq, rfl⟩ := Option.map_eq_some_iff.mp h
        have hnext : pos' = pos + (total - (last - 512)) := by
          unfold checked at hpos'
          split at hpos'
          · exact (Option.some.inj hpos').symm
          · cases hpos'
        obtain ⟨n, hn⟩ : ∃ n : Nat, total - (last - 512) = n := ⟨(total - (last - 512)).toNat, by omega⟩
        have hsplit : total.toNat = n + (total - (total - (last - 512))).toNat := by omega
        have hrest := ih hq
        rw [hnext, hn] at hrest
        simp only [hrest]
        rw [hn, Int.toNat_natCast, hsplit, placesFrom_add, List.map_append, hn, ← hinside n (by omega) (by omega)]
        rfl
      · simp only [hover, decide_false, Bool.false_eq_true, if_false] at h
        split at h
        · cases h
        rename_i hstart
        obtain ⟨pos', _, h⟩ := Option.bind_eq_some_iff.mp h
        cases h
        rcases Nat.eq_zero_or_pos total.toNat with hzero | hpos
        · rw [hzero]
          rfl
        · exact hinside total.toNat (by omega) (by omega)

end Streamer

/-! ## The pieces of a read -/

/-- A piece of a read: the cluster it starts in, where in it, and its length. -/
structure ReadPiece where
  cluster : Int
  within : Int
  length : Nat
  deriving DecidableEq, Repr

/-- The disk position of a cluster. -/
def FatPrivate.clusterStart (fs : FatPrivate) (cluster : Int) : Int :=
  (fs.endingSectorPos + (cluster - 2) * fs.header.sectorsPerCluster.toNat) * 512

/-- Where the bytes of a piece come from. -/
def ReadPiece.places (fs : FatPrivate) (piece : ReadPiece) : List Int :=
  placesFrom (fs.clusterStart piece.cluster + piece.within) piece.length

/-- The pieces of a read of `total` bytes at `offset`, up to the first one whose cluster is not found. -/
def readPieces (disk : Disk) (fs : FatPrivate) (cluster : Int) : Nat → Int → Int → List ReadPiece
  | 0, _, _ => []
  | fuel + 1, offset, total =>
      (fat16GetClusterForOffset disk fs cluster offset).elim [] fun clusterToUse =>
        if clusterToUse < 0 then []
        else
          let length := if total > fs.clusterBytes then (fs.clusterBytes : Int) else total
          { cluster := clusterToUse, within := offset.tmod fs.clusterBytes, length := length.toNat } ::
            if total - length > 0 then readPieces disk fs cluster fuel (offset + length) (total - length) else []

/-- Where the bytes of a read come from. -/
def readPlaces (disk : Disk) (fs : FatPrivate) (cluster offset total : Int) : List Int :=
  (readPieces disk fs cluster (total.toNat + 1) offset total).flatMap fun piece => piece.places fs

section Pieces

variable {disk : Disk} {fs : FatPrivate} {cluster offset total : Int} {fuel : Nat} {piece : ReadPiece}

theorem checked_some {x y : Int} (h : checked x = some y) : y = x := by
  unfold checked at h
  split at h
  · exact (Option.some.inj h).symm
  · cases h

theorem fat16ClusterToSector_place {sector : Int} (h : fat16ClusterToSector fs cluster = some sector) :
    sector * 512 = fs.clusterStart cluster := by
  unfold fat16ClusterToSector at h
  obtain ⟨ahead, hahead, h⟩ := Option.bind_eq_some_iff.mp h
  obtain ⟨sectors, hsectors, h⟩ := Option.bind_eq_some_iff.mp h
  rw [checked_some h, checked_some hsectors, checked_some hahead]
  rfl

/-- **What a read delivers** comes from the places of its pieces. The induction follows the loop. -/
theorem fat16ReadLoop_places {r : Int} {bytes : List (BitVec 8)}
    (h : fat16ReadLoop disk fs cluster fuel offset total = some (r, bytes)) :
    bytes = ((readPieces disk fs cluster fuel offset total).flatMap fun piece => piece.places fs).map disk.byteAt := by
  induction fuel generalizing offset total r bytes with
  | zero => cases h
  | succ fuel ih =>
      unfold fat16ReadLoop at h
      obtain ⟨clusterToUse, hcluster, h⟩ := Option.bind_eq_some_iff.mp h
      rw [readPieces, hcluster, Option.elim_some]
      by_cases hneg : clusterToUse < 0
      · rw [if_pos hneg] at h
        cases h
        rw [if_pos hneg]
        rfl
      rw [if_neg hneg] at h ⊢
      obtain ⟨sector, hsector, h⟩ := Option.bind_eq_some_iff.mp h
      obtain ⟨sectorPos, hsectorPos, h⟩ := Option.bind_eq_some_iff.mp h
      obtain ⟨startingPos, hstart, h⟩ := Option.bind_eq_some_iff.mp h
      obtain ⟨q, hq, h⟩ := Option.bind_eq_some_iff.mp h
      rw [if_neg (not_not_intro (diskstreamerReadLoop_res hq))] at h
      have hplace : startingPos = fs.clusterStart clusterToUse + offset.tmod fs.clusterBytes := by
        rw [checked_some hstart, checked_some hsectorPos, ← fat16ClusterToSector_place hsector]
        rfl
      have hout := diskstreamerReadLoop_places hq
      rw [hplace] at hout
      rw [List.flatMap_cons, List.map_append]
      -- the bytes of this piece, and those of the pieces behind it
      by_cases hmore : total - (if total > fs.clusterBytes then (fs.clusterBytes : Int) else total) > 0
      · rw [if_pos hmore] at h ⊢
        obtain ⟨offset', hoffset, h⟩ := Option.bind_eq_some_iff.mp h
        obtain ⟨⟨r', bytes'⟩, hrest, heq⟩ := Option.map_eq_some_iff.mp h
        cases heq
        rw [checked_some hoffset] at hrest
        rw [hout, ← ih hrest]
        rfl
      · rw [if_neg hmore] at h ⊢
        cases h
        rw [hout, List.flatMap_nil, List.map_nil, List.append_nil]
        rfl

theorem fat16ReadInternal_places {r : Int} {bytes : List (BitVec 8)}
    (h : fat16ReadInternal disk fs cluster offset total = some (r, bytes)) :
    bytes = (readPlaces disk fs cluster offset total).map disk.byteAt :=
  fat16ReadLoop_places h

/-- A piece starts in its cluster or, at an offset that has become negative, in the one before it, and is no longer
    than a cluster. -/
theorem readPieces_bounds (h : piece ∈ readPieces disk fs cluster fuel offset total) :
    - (fs.clusterBytes : Int) < piece.within ∧ piece.within < fs.clusterBytes ∧ piece.length ≤ fs.clusterBytes := by
  induction fuel generalizing offset total with
  | zero => exact absurd h List.not_mem_nil
  | succ fuel ih =>
      rw [readPieces] at h
      rcases hcluster : fat16GetClusterForOffset disk fs cluster offset with _ | clusterToUse
      · rw [hcluster] at h
        exact absurd h List.not_mem_nil
      have hB : 0 < (fs.clusterBytes : Int) := by
        refine Int.natCast_pos.mpr (Nat.pos_of_ne_zero fun hzero => ?_)
        unfold fat16GetClusterForOffset at hcluster
        rw [if_pos hzero] at hcluster
        cases hcluster
      rw [hcluster, Option.elim_some] at h
      by_cases hneg : clusterToUse < 0
      · rw [if_pos hneg] at h
        exact absurd h List.not_mem_nil
      rw [if_neg hneg] at h
      rcases List.mem_cons.mp h with rfl | h
      · refine ⟨Int.lt_tmod_of_pos offset hB, Int.tmod_lt_of_pos offset hB, ?_⟩
        show (if total > fs.clusterBytes then (fs.clusterBytes : Int) else total).toNat ≤ fs.clusterBytes
        split
        · omega
        · omega
      · by_cases hmore : total - (if total > fs.clusterBytes then (fs.clusterBytes : Int) else total) > 0
        · rw [if_pos hmore] at h
          exact ih h
        · rw [if_neg hmore] at h
          exact absurd h List.not_mem_nil

end Pieces

/-! ## The places of a file -/

/-- The clusters of a file, by the table. -/
def fileChain (disk : Disk) (fs : FatPrivate) (item : FatDirectoryItem) : List Nat :=
  clusterChain disk fs.header 65536 item.low16BitsFirstCluster.toNat

/-- A disk position that holds a byte of the file: an offset below its size, in the cluster of its chain that the
    offset falls into. -/
def FilePlace (disk : Disk) (fs : FatPrivate) (item : FatDirectoryItem) (p : Int) : Prop :=
  ∃ o, o < item.filesize.toNat ∧ ∃ c, (fileChain disk fs item)[o / fs.clusterBytes]? = some c ∧
    p = fs.clusterPos c (o % fs.clusterBytes)

/-- The first `n` bytes of a cluster belong to the file. -/
def FileHolds (disk : Disk) (fs : FatPrivate) (item : FatDirectoryItem) (cluster n : Int) : Prop :=
  ∃ (k : Nat) (c : Nat), (fileChain disk fs item)[k]? = some c ∧ (c : Int) = cluster ∧
    k * (fs.clusterBytes : Int) + n ≤ item.filesize.toNat

/-- A piece lies in the file: what it has in its cluster, what runs over the end of it into the cluster that is stored
    next, and what comes before it when the offset is negative. -/
def PieceInFile (disk : Disk) (fs : FatPrivate) (item : FatDirectoryItem) (piece : ReadPiece) : Prop :=
  piece.length = 0 ∨
    (piece.within < 0 → FileHolds disk fs item (piece.cluster - 1)
      (min fs.clusterBytes (fs.clusterBytes + piece.within + piece.length))) ∧
    (0 < piece.within + piece.length → FileHolds disk fs item piece.cluster
      (min fs.clusterBytes (piece.within + piece.length))) ∧
    ((fs.clusterBytes : Int) < piece.within + piece.length → FileHolds disk fs item (piece.cluster + 1)
      (piece.within + piece.length - fs.clusterBytes))

section Places

variable {disk : Disk} {fs : FatPrivate} {item : FatDirectoryItem} {cluster x n : Int}

theorem mem_clusterChain {header : FatHeader} {left c c' : Nat} (h : c' ∈ clusterChain disk header left c) :
    2 ≤ c' := by
  induction left generalizing c with
  | zero => exact absurd h List.not_mem_nil
  | succ left ih =>
      rw [clusterChain] at h
      split at h
      · rename_i husable
        rcases List.mem_cons.mp h with rfl | h
        · exact husable.1
        · exact ih h
      · exact absurd h List.not_mem_nil

theorem FileHolds.mono {m : Int} (h : FileHolds disk fs item cluster n) (hm : m ≤ n) :
    FileHolds disk fs item cluster m := by
  obtain ⟨k, c, hget, hc, hle⟩ := h
  exact ⟨k, c, hget, hc, by omega⟩

/-- The places of two clusters, in bytes. -/
theorem clusterStart_eq (fs : FatPrivate) (cluster : Int) :
    fs.clusterStart cluster = fs.endingSectorPos * 512 + (cluster - 2) * fs.clusterBytes := by
  unfold FatPrivate.clusterStart FatPrivate.clusterBytes bimbleosSectorSize
  push_cast
  ring

theorem clusterStart_succ (fs : FatPrivate) (cluster : Int) :
    fs.clusterStart (cluster + 1) = fs.clusterStart cluster + fs.clusterBytes := by
  rw [clusterStart_eq, clusterStart_eq]
  ring

theorem clusterPos_eq {c : Nat} (hc : 2 ≤ c) (i : Nat) :
    ((fs.clusterPos c i : Nat) : Int) = fs.clusterStart c + i := by
  obtain ⟨a, rfl⟩ : ∃ a, c = a + 2 := ⟨c - 2, by omega⟩
  unfold FatPrivate.clusterPos FatPrivate.clusterStart
  rw [Nat.add_sub_cancel]
  push_cast
  ring

/-- **A byte of a cluster** is one of the file when the cluster's bytes up to it are. -/
theorem inFile_iff (hlo : 0 ≤ x) (hhi : x < fs.clusterBytes) :
    FilePlace disk fs item (fs.clusterStart cluster + x) ↔ FileHolds disk fs item cluster (x + 1) := by
  obtain ⟨i, rfl⟩ := Int.eq_ofNat_of_zero_le hlo
  have hi : i < fs.clusterBytes := by omega
  constructor
  · rintro ⟨o, ho, c, hget, hplace⟩
    have hc := mem_clusterChain (List.mem_of_getElem? hget)
    have hmod := Nat.mod_lt o (show 0 < fs.clusterBytes by omega)
    rw [clusterPos_eq hc, clusterStart_eq, clusterStart_eq] at hplace
    -- the same cluster, and the same byte of it
    have hsame : cluster - 2 = (c : Int) - 2 ∧ i = o % fs.clusterBytes := by
      have hdivide : ∀ (q : Int) (r : Nat), r < fs.clusterBytes →
          (q * fs.clusterBytes + r) / (fs.clusterBytes : Int) = q := by
        intro q r hr
        rw [Int.add_comm, Int.add_mul_ediv_right _ _ (by omega), Int.ediv_eq_zero_of_lt (by omega) (by omega),
          Int.zero_add]
      have hleft := hdivide (cluster - 2) i hi
      have hright := hdivide ((c : Int) - 2) (o % fs.clusterBytes) hmod
      have hsum : (cluster - 2) * (fs.clusterBytes : Int) + i
          = ((c : Int) - 2) * fs.clusterBytes + (o % fs.clusterBytes : Nat) := by omega
      rw [hsum, hright] at hleft
      rw [← hleft] at hsum
      exact ⟨hleft.symm, by omega⟩
    obtain ⟨hcluster, rfl⟩ := hsame
    refine ⟨o / fs.clusterBytes, c, hget, by omega, ?_⟩
    have hsplit := Nat.div_add_mod' o fs.clusterBytes
    rw [← Int.natCast_mul]
    omega
  · rintro ⟨k, c, hget, rfl, hle⟩
    have hc := mem_clusterChain (List.mem_of_getElem? hget)
    have hdiv : (k * fs.clusterBytes + i) / fs.clusterBytes = k := by
      rw [Nat.add_comm, Nat.add_mul_div_right _ _ (by omega), Nat.div_eq_of_lt hi, Nat.zero_add]
    have hmod : (k * fs.clusterBytes + i) % fs.clusterBytes = i := by
      rw [Nat.add_comm, Nat.add_mul_mod_self_right, Nat.mod_eq_of_lt hi]
    rw [← Int.natCast_mul] at hle
    refine ⟨k * fs.clusterBytes + i, by omega, c, by rwa [hdiv], ?_⟩
    rw [hmod, clusterPos_eq hc]

/-- **The places of a piece** are places of the file when the clusters that it lies in belong to the file as far as
    it reaches. -/
theorem forall_filePlace_iff {piece : ReadPiece} (hlow : - (fs.clusterBytes : Int) < piece.within)
    (hhigh : piece.within < fs.clusterBytes) (hlen : piece.length ≤ fs.clusterBytes) :
    (∀ p ∈ piece.places fs, FilePlace disk fs item p) ↔ PieceInFile disk fs item piece := by
  obtain ⟨q, w, n⟩ := piece
  have hnext := clusterStart_succ fs q
  have hprev := clusterStart_succ fs (q - 1)
  rw [Int.sub_add_cancel] at hprev
  unfold ReadPiece.places PieceInFile
  simp only at hlow hhigh hlen ⊢
  -- a byte by its position from the start of the cluster
  have hbyte : (∀ p ∈ placesFrom (fs.clusterStart q + w) n, FilePlace disk fs item p) ↔
      ∀ x, w ≤ x → x < w + n → FilePlace disk fs item (fs.clusterStart q + x) := by
    constructor
    · intro h x hlo hhi
      refine h _ (mem_placesFrom.mpr ⟨(x - w).toNat, by omega, by omega⟩)
    · intro h p hp
      obtain ⟨j, hj, rfl⟩ := mem_placesFrom.mp hp
      have hin := h (w + j) (by omega) (by omega)
      rwa [← Int.add_assoc] at hin
  rw [hbyte]
  rcases Nat.eq_zero_or_pos n with rfl | hpos
  · exact iff_of_true (fun x hlo hhi => by omega) (Or.inl rfl)
  rw [or_iff_right (by omega)]
  constructor
  · intro h
    refine ⟨fun hneg => ?_, fun hover => ?_, fun hover => ?_⟩
    · have hin := h (min (fs.clusterBytes : Int) (fs.clusterBytes + w + n) - 1 - fs.clusterBytes) (by omega) (by omega)
      have hshift : fs.clusterStart q + (min (fs.clusterBytes : Int) (fs.clusterBytes + w + n) - 1 - fs.clusterBytes)
          = fs.clusterStart (q - 1) + (min (fs.clusterBytes : Int) (fs.clusterBytes + w + n) - 1) := by
        rw [hprev]
        ring
      rw [hshift, inFile_iff (by omega) (by omega), Int.sub_add_cancel] at hin
      exact hin
    · have hin := h (min (fs.clusterBytes : Int) (w + n) - 1) (by omega) (by omega)
      rw [inFile_iff (by omega) (by omega), Int.sub_add_cancel] at hin
      exact hin
    · have hin := h (w + n - 1) (by omega) (by omega)
      have hshift : fs.clusterStart q + (w + n - 1) = fs.clusterStart (q + 1) + (w + n - fs.clusterBytes - 1) := by
        rw [hnext]
        ring
      rw [hshift, inFile_iff (by omega) (by omega), Int.sub_add_cancel] at hin
      exact hin
  · rintro ⟨hbefore, hinside, hbehind⟩ x hlo hhi
    by_cases hneg : x < 0
    · have hshift : fs.clusterStart q + x = fs.clusterStart (q - 1) + (x + fs.clusterBytes) := by
        rw [hprev]
        ring
      rw [hshift, inFile_iff (by omega) (by omega)]
      exact (hbefore (by omega)).mono (by omega)
    · by_cases hover : x < fs.clusterBytes
      · rw [inFile_iff (by omega) hover]
        exact (hinside (by omega)).mono (by omega)
      · have hshift : fs.clusterStart q + x = fs.clusterStart (q + 1) + (x - fs.clusterBytes) := by
          rw [hnext]
          ring
        rw [hshift, inFile_iff (by omega) (by omega)]
        exact (hbehind (by omega)).mono (by omega)

end Places

end BimbleOS
