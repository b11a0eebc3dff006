import BimbleOS.Task.ElfMapping

/-!
# `Task.ElfImage` — the memory image an ELF process sees

After `process_map_memory` every page of a loadable segment is mapped to the file buffer, at the
segment's own offset (`segment_covers`). Two things may still be wrong with the image: nothing clears the
part of a segment behind its file bytes, and the program headers that are not loadable segments are
mapped as well, over whatever lies at their addresses. `processMapMemory_image_iff` says exactly when
neither matters.
-/

namespace BimbleOS

open Bytes CWord Window

/-! ## Which header a page is mapped by -/

/-- The header maps the page at `page`. -/
def PhdrCovers (m : Mem) (file phdr page : Nat) : Prop :=
  pageOffset (phdrVirt m phdr) page < phdrPages m file phdr

instance (m : Mem) (file phdr page : Nat) : Decidable (PhdrCovers m file phdr page) := Nat.decLt _ _

/-- Where the header puts the byte at `v`. -/
def phdrPhys (m : Mem) (file phdr v : Nat) : Nat :=
  phdrFirst m file phdr + 4096 * pageOffset (phdrVirt m phdr) (pagingAlignToLowerPage v) + v % 4096

/-- Among the headers from `i` to `n`, the last one that maps the page at `page` is number `k`. -/
def LastCover (m : Mem) (file phdrs i n page k : Nat) : Prop :=
  i ≤ k ∧ k < n ∧ PhdrCovers m file (phdrAt phdrs k) page ∧
    ∀ k', k < k' → k' < n → ¬ PhdrCovers m file (phdrAt phdrs k') page

section Cover

variable {m : Mem} {file phdrs i n page : Nat}

/-- If some header maps the page, one is the last to do so. -/
theorem exists_lastCover {j : Nat} (hi : i ≤ j) (hj : j < n) (hcover : PhdrCovers m file (phdrAt phdrs j) page) :
    ∃ k, j ≤ k ∧ LastCover m file phdrs i n page k := by
  induction hd : n - j using Nat.strong_induction_on generalizing j with
  | _ d ih =>
      by_cases hlater : ∃ k', j < k' ∧ k' < n ∧ PhdrCovers m file (phdrAt phdrs k') page
      · obtain ⟨k', hlt, hk', hc⟩ := hlater
        obtain ⟨k, hle, hlast⟩ := ih (n - k') (by omega) (by omega) hk' hc rfl
        exact ⟨k, by omega, hlast⟩
      · exact ⟨j, Nat.le_refl j, hi, hj, hcover, fun k' hlt hk' hc => hlater ⟨k', hlt, hk', hc⟩⟩

theorem LastCover.unique {k k' : Nat} (h : LastCover m file phdrs i n page k)
    (h' : LastCover m file phdrs i n page k') : k = k' := by
  rcases Nat.lt_trichotomy k k' with hlt | heq | hlt
  · exact absurd h'.2.2.1 (h.2.2.2 k' hlt h'.2.1)
  · exact heq
  · exact absurd h.2.2.1 (h'.2.2.2 k hlt h.2.1)

end Cover

/-! ## The mapping loop -/

section Loop

variable {m : Mem} {file phdrs d : Nat} {ds : Nat → Prop}

/-- Mapping one header, entry by entry. -/
theorem DirsOk.setPhdr {s : PageStore} (h : DirsOk s ds) (hd : ds d) (phdr : Nat) :
    DirsOk (s.setPhdr m file phdr d) ds ∧
    (∀ d', ds d' → (s.setPhdr m file phdr d).directory d' = s.directory d') ∧
    ∀ page, page % 4096 = 0 → page < 4294967296 →
      (s.setPhdr m file phdr d).pageEntry (s.directory d) page
        = if PhdrCovers m file phdr page then
            (rangePage (phdrVirt m phdr) (phdrFirst m file phdr) (phdrFlags m phdr)
              (pageOffset (phdrVirt m phdr) page)).2
          else s.pageEntry (s.directory d) page := by
  obtain ⟨hok, hdirs, hpages⟩ := @DirsOk.setRange s ds d (phdrVirt m phdr) (phdrFirst m file phdr)
    (phdrPages m file phdr) (phdrFlags m phdr) h hd phdrVirt_aligned.1 phdrFirst_aligned.1
    phdrVirt_aligned.2 phdrFirst_aligned.2 phdrPages_le
  refine ⟨hok, hdirs, fun page halign hlt => ?_⟩
  have hpage := hpages d page hd halign hlt
  simp only [true_and] at hpage
  exact hpage

/-- **After the loop** every page a header maps holds the entry of the last header that maps it. -/
theorem processMapElfLoop_entry (left i : Nat) (s : PageStore) (h : DirsOk s ds) (hd : ds d)
    (hres : 0 ≤ (processMapElfLoop m d file phdrs left i s).1) :
    (∀ k, i ≤ k → k < i + left → PhdrMaps m file (phdrAt phdrs k)) ∧
    DirsOk (processMapElfLoop m d file phdrs left i s).2 ds ∧
    (∀ d', ds d' → (processMapElfLoop m d file phdrs left i s).2.directory d' = s.directory d') ∧
    ∀ page, page % 4096 = 0 → page < 4294967296 →
      (∀ k, LastCover m file phdrs i (i + left) page k →
        (processMapElfLoop m d file phdrs left i s).2.pageEntry (s.directory d) page
          = (rangePage (phdrVirt m (phdrAt phdrs k)) (phdrFirst m file (phdrAt phdrs k))
              (phdrFlags m (phdrAt phdrs k)) (pageOffset (phdrVirt m (phdrAt phdrs k)) page)).2) ∧
      ((∀ k, i ≤ k → k < i + left → ¬ PhdrCovers m file (phdrAt phdrs k) page) →
        (processMapElfLoop m d file phdrs left i s).2.pageEntry (s.directory d) page
          = s.pageEntry (s.directory d) page) := by
  induction left generalizing i s with
  | zero =>
      refine ⟨fun k hk hlt => absurd hlt (by omega), h, fun _ _ => rfl, fun page _ _ => ⟨?_, fun _ => rfl⟩⟩
      intro k hk
      exact absurd hk.2.1 (by have := hk.1; omega)
  | succ left ih =>
      rw [processMapElfLoop_succ] at hres ⊢
      by_cases hmaps : PhdrMaps m file (phdrAt phdrs i)
      · rw [if_pos hmaps] at hres ⊢
        obtain ⟨hok, hdirs, hpages⟩ := @DirsOk.setPhdr m file d ds s h hd (phdrAt phdrs i)
        obtain ⟨hrest, hok', hdirs', hpages'⟩ := ih (i + 1) _ hok hres
        refine ⟨fun k hk hlt => ?_, hok', fun d' hd' => (hdirs' d' hd').trans (hdirs d' hd'), ?_⟩
        · rcases Nat.eq_or_lt_of_le hk with rfl | hgt
          · exact hmaps
          · exact hrest k hgt (by omega)
        · intro page halign hlt
          obtain ⟨hcov, hnone⟩ := hpages' page halign hlt
          rw [hdirs d hd] at hcov hnone
          rw [Nat.add_right_comm] at hcov hnone
          constructor
          · intro k hk
            rcases Nat.eq_or_lt_of_le hk.1 with heq | hgt
            · -- the header of this round is the last one for the page
              subst heq
              rw [hnone fun k' hk' hlt' => hk.2.2.2 k' hk' (by omega), hpages page halign hlt,
                if_pos hk.2.2.1]
            · exact hcov k ⟨hgt, by have := hk.2.1; omega, hk.2.2.1, fun k' h₁ h₂ => hk.2.2.2 k' h₁ (by omega)⟩
          · intro hno
            rw [hnone fun k' hk' hlt' => hno k' (by omega) (by omega), hpages page halign hlt,
              if_neg (hno i (Nat.le_refl i) (by omega))]
      · rw [if_neg hmaps] at hres
        exact absurd hres (show ¬ (0 : Int) ≤ -EINVARG by decide)

end Loop

/-! ## The stack -/

/-- The virtual page belongs to the stack. -/
def InStack (v : Nat) : Prop :=
  bimbleosProgramVirtualStackAddressEnd ≤ v ∧ v < bimbleosProgramVirtualStackAddressStart

/-- Mapping the stack leaves all other pages alone. -/
theorem stackMap_entry {s : PageStore} {ds : Nat → Prop} {d stack : Nat} (h : DirsOk s ds) (hd : ds d)
    (flags : BitVec 32) (hstack : stack < 4294967296) :
    (pagingMapTo s d bimbleosProgramVirtualStackAddressEnd stack
        (pagingAlignAddress (u32 (stack + bimbleosUserProgramStackSize : Nat))) flags).2.directory d
      = s.directory d ∧
    ∀ page, page % 4096 = 0 → page < 4294967296 → ¬ InStack page →
      (pagingMapTo s d bimbleosProgramVirtualStackAddressEnd stack
          (pagingAlignAddress (u32 (stack + bimbleosUserProgramStackSize : Nat))) flags).2.pageEntry
          (s.directory d) page
        = s.pageEntry (s.directory d) page := by
  rw [pagingMapTo_eq]
  split
  · next hok =>
      obtain ⟨_, halign, _, hle⟩ := hok
      have hpages : (pagingAlignAddress (u32 (stack + bimbleosUserProgramStackSize : Nat)) - stack) / 4096
          ≤ 4 := by
        unfold pagingAlignAddress pagingPageSize bimbleosUserProgramStackSize u32
        split <;> omega
      generalize hn : (pagingAlignAddress (u32 (stack + bimbleosUserProgramStackSize : Nat)) - stack) / 4096
        = n at hpages
      obtain ⟨_, hdirs, hentry⟩ := @DirsOk.setRange s ds d bimbleosProgramVirtualStackAddressEnd stack n flags
        h hd (by decide) halign (by decide) hstack (by omega)
      refine ⟨hdirs d hd, fun page hpage hlt hout => ?_⟩
      have hpageEntry := hentry d page hd hpage hlt
      rw [if_neg ?_] at hpageEntry
      · exact hpageEntry
      · intro hc
        have hoff := hc.2
        apply hout
        unfold InStack
        unfold pageOffset u32 at hoff
        unfold bimbleosProgramVirtualStackAddressEnd bimbleosProgramVirtualStackAddressStart
          bimbleosUserProgramStackSize at hoff ⊢
        omega
  · exact ⟨rfl, fun _ _ _ _ => rfl⟩

/-! ## Loadable segments -/

/-- Header `j` of the file is a loadable segment. -/
def IsSegment (m : Mem) (base j : Nat) : Prop :=
  j < ePhnum m base ∧ pType m (phdrAt (elfPheader m base) j) = ptLoad

/-- The virtual address of byte `k` of a segment. -/
def segmentAddr (m : Mem) (phdr k : Nat) : Nat := u32 (pVaddr m phdr + k : Nat)

/-- An ELF file whose segments can be mapped where they want to be: each lies inside the file, congruent
    to its offset modulo the page size, and away from the stack, and no two share a virtual page. -/
structure SegmentsOk (m : Mem) (base filesize : Nat) : Prop where
  inFile : ∀ j, IsSegment m base j → 0 ≤ pOffset m (phdrAt (elfPheader m base) j) ∧
    pOffset m (phdrAt (elfPheader m base) j) + pFilesz m (phdrAt (elfPheader m base) j) ≤ filesize
  congruent : ∀ j, IsSegment m base j →
    (pVaddr m (phdrAt (elfPheader m base) j) : Int) % 4096 = pOffset m (phdrAt (elfPheader m base) j) % 4096
  offStack : ∀ j, IsSegment m base j → ∀ k, k < pMemsz m (phdrAt (elfPheader m base) j) →
    ¬ InStack (segmentAddr m (phdrAt (elfPheader m base) j) k)
  disjoint : ∀ j j', IsSegment m base j → IsSegment m base j' → j ≠ j' →
    ∀ k k', k < pMemsz m (phdrAt (elfPheader m base) j) →
      k' < pMemsz m (phdrAt (elfPheader m base) j') →
      segmentAddr m (phdrAt (elfPheader m base) j) k / 4096
        ≠ segmentAddr m (phdrAt (elfPheader m base) j') k' / 4096

section Segment

variable {m : Mem} {file base filesize phdr : Nat}

/-- A mapped segment that leaves the stack alone does not wrap around physical memory: it would have to
    be almost as large as the address space. -/
theorem segment_noWrap (hmaps : PhdrMaps m file phdr)
    (hstack : ∀ k, k < pMemsz m phdr → ¬ InStack (segmentAddr m phdr k)) :
    pMemsz m phdr = 0 ∨ elfPhdrPhysAddress m file phdr + pMemsz m phdr < 4294967296 := by
  have hx : elfPhdrPhysAddress m file phdr < 4294967296 := u32_lt _
  have hv : pVaddr m phdr < 4294967296 := (load32 m (phdr + 8)).isLt
  have hsz : pMemsz m phdr < 4294967296 := (load32 m (phdr + 20)).isLt
  unfold PhdrMaps phdrFirst phdrLast at hmaps
  rw [pagingAlignToLowerPage_eq] at hmaps
  generalize elfPhdrPhysAddress m file phdr = x at hmaps hx
  -- the distances of the first and of the last byte of the stack from the segment's start
  have hfirst := hstack (u32 ((0x3FB000 : Int) - pVaddr m phdr))
  have hlast := hstack (u32 ((0x3FEFFF : Int) - pVaddr m phdr))
  unfold InStack segmentAddr bimbleosProgramVirtualStackAddressEnd
    bimbleosProgramVirtualStackAddressStart bimbleosUserProgramStackSize at hfirst hlast
  generalize pVaddr m phdr = v at hv hfirst hlast
  generalize pMemsz m phdr = n at hmaps hsz hfirst hlast
  have hsmall : n ≤ 4294967296 - 0x3FFF := by
    by_contra hbig
    unfold u32 at hfirst hlast
    omega
  by_contra hwrap
  unfold pagingAlignAddress pagingPageSize u32 at hmaps
  split at hmaps <;> omega

/-- **A mapped segment covers each of its bytes**, and puts it where the file has it. -/
theorem segment_covers (hbase : base % 4096 = 0) (hheap : bimbleosHeapAddress ≤ base) (hmem : elfMemory m file = base)
    (hend : base + filesize < 4294967296) (hoff : 0 ≤ pOffset m phdr)
    (hfile : pOffset m phdr + pFilesz m phdr ≤ filesize)
    (hcong : (pVaddr m phdr : Int) % 4096 = pOffset m phdr % 4096) (hmaps : PhdrMaps m file phdr)
    (hstack : ∀ k, k < pMemsz m phdr → ¬ InStack (segmentAddr m phdr k)) {k : Nat}
    (hk : k < pMemsz m phdr) :
    PhdrCovers m file phdr (pagingAlignToLowerPage (segmentAddr m phdr k)) ∧
      phdrPhys m file phdr (segmentAddr m phdr k) = base + (pOffset m phdr).toNat + k := by
  have hnowrap := (segment_noWrap hmaps hstack).resolve_left (by omega)
  have hpages := phdrPages_eq hmaps
  have hv : pVaddr m phdr < 4294967296 := (load32 m (phdr + 8)).isLt
  have hsz : pMemsz m phdr < 4294967296 := (load32 m (phdr + 20)).isLt
  have hx : elfPhdrPhysAddress m file phdr = base + (pOffset m phdr).toNat := by
    unfold elfPhdrPhysAddress u32
    rw [hmem]
    omega
  have hfirst : phdrFirst m file phdr = elfPhdrPhysAddress m file phdr / 4096 * 4096 :=
    pagingAlignToLowerPage_eq _
  have hvirt : phdrVirt m phdr = pVaddr m phdr / 4096 * 4096 := pagingAlignToLowerPage_eq _
  have hlast : elfPhdrPhysAddress m file phdr + pMemsz m phdr ≤ phdrLast m file phdr := by
    have hpos : 0 < phdrLast m file phdr := by
      unfold PhdrMaps at hmaps
      unfold bimbleosHeapAddress at hheap
      omega
    unfold phdrLast at hpos ⊢
    rw [u32_of_lt hnowrap] at hpos ⊢
    exact le_pagingAlignAddress hnowrap hpos
  rw [hx] at hfirst hlast
  have halign := (@phdrLast_aligned m file phdr).1
  -- the byte's page lies `d` bytes behind the first page, virtually as well as physically
  have hoffset : pageOffset (phdrVirt m phdr) (pagingAlignToLowerPage (segmentAddr m phdr k))
      = (pVaddr m phdr % 4096 + k) / 4096 := by
    rw [pagingAlignToLowerPage_eq, hvirt]
    unfold pageOffset segmentAddr u32
    omega
  constructor
  · unfold PhdrCovers
    rw [hoffset]
    omega
  · unfold phdrPhys
    rw [hoffset, hfirst]
    unfold segmentAddr u32
    omega

end Segment

/-! ## The whole mapping -/

section Image

variable {m : Mem} {s s' : PageStore} {d file base : Nat} {bytes : List (BitVec 8)} {process : Process}
  {res : Int}

/-- When `process_map_memory` succeeds for an ELF process, the directory maps each page of a header the
    way the last header with that page asks, unless it belongs to the stack. -/
theorem processMapMemory_entry (hmem : elfMemory m file = base) (hdirs : DirsOk s (· = d))
    (hfile : process.filetype = processFiletypeElf) (himage : process.image = file)
    (hstack : process.stack < 4294967296) (hmap : processMapMemory m s d process = some (res, s'))
    (hok : 0 ≤ res) :
    (∀ k, k < ePhnum m base → PhdrMaps m file (phdrAt (elfPheader m base) k)) ∧
    ∀ page k, page % 4096 = 0 → page < 4294967296 → ¬ InStack page →
      LastCover m file (elfPheader m base) 0 (ePhnum m base) page k →
      s'.pageEntry (s'.directory d) page
        = (rangePage (phdrVirt m (phdrAt (elfPheader m base) k))
            (phdrFirst m file (phdrAt (elfPheader m base) k))
            (phdrFlags m (phdrAt (elfPheader m base) k))
            (pageOffset (phdrVirt m (phdrAt (elfPheader m base) k)) page)).2 := by
  unfold processMapMemory processMapElf at hmap
  rw [if_pos hfile, himage, hmem] at hmap
  generalize hloop : processMapElfLoop m d file (elfPheader m base) (ePhnum m base) 0 s = r at hmap
  obtain ⟨r, s₁⟩ := r
  simp only [Option.map_some, Option.some.injEq] at hmap
  by_cases hneg : r < 0
  · rw [if_pos hneg] at hmap
    obtain ⟨rfl, _⟩ := Prod.mk.inj hmap
    exact absurd hneg (by omega)
  · rw [if_neg hneg] at hmap
    obtain ⟨_, rfl⟩ := Prod.mk.inj hmap
    have hres : 0 ≤ (processMapElfLoop m d file (elfPheader m base) (ePhnum m base) 0 s).1 := by
      rw [hloop]; exact Int.not_lt.mp hneg
    obtain ⟨hmaps, hok₁, hdir₁, hentry⟩ := processMapElfLoop_entry (ePhnum m base) 0 s hdirs rfl hres
    rw [hloop] at hok₁ hdir₁ hentry
    obtain ⟨hdir₂, hkeep⟩ := stackMap_entry hok₁ rfl
      (pagingIsPresent ||| pagingAccessFromAll ||| pagingIsWriteable) hstack
    refine ⟨fun k hk => hmaps k (Nat.zero_le k) (by omega), fun page k halign hlt hout hlast => ?_⟩
    rw [hdir₂, hkeep page halign hlt hout, hdir₁ d rfl]
    rw [Nat.zero_add] at hentry
    exact (hentry page halign hlt).1 k hlast

/-- Translation of an address in a page that some header maps. -/
theorem translate_entry {directory phdr v : Nat} (hmaps : PhdrMaps m file phdr)
    (hcover : PhdrCovers m file phdr (pagingAlignToLowerPage v))
    (hentry : s'.pageEntry directory (pagingAlignToLowerPage v)
      = (rangePage (phdrVirt m phdr) (phdrFirst m file phdr) (phdrFlags m phdr)
          (pageOffset (phdrVirt m phdr) (pagingAlignToLowerPage v))).2) :
    pagingGetPhysicalAddress s' directory v = phdrPhys m file phdr v := by
  have hpages := phdrPages_eq hmaps
  have hfirst := (@phdrFirst_aligned m file phdr).1
  have hlast := (@phdrLast_aligned m file phdr).2
  have halign : pagingAlignToLowerPage v % 4096 = 0 := by rw [pagingAlignToLowerPage_eq]; omega
  unfold PhdrCovers at hcover
  unfold pagingGetPhysicalAddress phdrPhys
  simp only
  rw [pagingGet_aligned halign, hentry]
  unfold rangePage
  generalize pageOffset (phdrVirt m phdr) (pagingAlignToLowerPage v) = o at hcover
  rw [u32_of_lt (show phdrFirst m file phdr + 4096 * o < 4294967296 by omega),
    frameOf_or (by omega) (by omega) phdrFlags_lt, pagingAlignToLowerPage_eq,
    u32_of_lt (show phdrFirst m file phdr + 4096 * o + (v - v / 4096 * 4096) < 4294967296 by omega)]
  omega

/-- Byte `k` of a segment as the file describes it: the file's byte, and zero behind `p_filesz`. -/
def segmentByte (m : Mem) (phdr : Nat) (bytes : List (BitVec 8)) (k : Nat) : BitVec 8 :=
  if k < pFilesz m phdr then bytes.getD ((pOffset m phdr).toNat + k) 0 else 0

/-- The process sees every byte of every segment as the file describes it. -/
def SeesImage (m : Mem) (s : PageStore) (d base : Nat) (bytes : List (BitVec 8)) : Prop :=
  ∀ j, IsSegment m base j → ∀ k, k < pMemsz m (phdrAt (elfPheader m base) j) →
    m (pagingGetPhysicalAddress s (s.directory d) (segmentAddr m (phdrAt (elfPheader m base) j) k))
      = segmentByte m (phdrAt (elfPheader m base) j) bytes k

/-- The condition: a byte of a segment whose page no later header maps is in the file, or the memory
    behind the file bytes is zero there; where a later header maps the page, the last one to do so
    happens to show the byte that the segment wants. -/
def ImageOk (m : Mem) (file base : Nat) (bytes : List (BitVec 8)) : Prop :=
  ∀ j, IsSegment m base j → ∀ k, k < pMemsz m (phdrAt (elfPheader m base) j) →
    ∀ i, LastCover m file (elfPheader m base) 0 (ePhnum m base)
        (pagingAlignToLowerPage (segmentAddr m (phdrAt (elfPheader m base) j) k)) i →
      if i = j then
        pFilesz m (phdrAt (elfPheader m base) j) ≤ k →
          m (base + (pOffset m (phdrAt (elfPheader m base) j)).toNat + k) = 0
      else
        m (phdrPhys m file (phdrAt (elfPheader m base) i)
            (segmentAddr m (phdrAt (elfPheader m base) j) k))
          = segmentByte m (phdrAt (elfPheader m base) j) bytes k

/-- **After `process_map_memory` has succeeded the process sees the ELF image exactly when no later
    header hides a part of a segment and the memory behind the file bytes is zero.** -/
theorem processMapMemory_image_iff (hload : ElfLoaded m file base bytes) (hbase : base % 4096 = 0)
    (hheap : bimbleosHeapAddress ≤ base)
    (hend : base + bytes.length ≤ bimbleosHeapAddress + bimbleosHeapSizeBytes)
    (hsegs : SegmentsOk m base bytes.length) (hdirs : DirsOk s (· = d))
    (hfile : process.filetype = processFiletypeElf) (himage : process.image = file)
    (hstack : process.stack < 4294967296) (hmap : processMapMemory m s d process = some (res, s'))
    (hok : 0 ≤ res) : SeesImage m s' d base bytes ↔ ImageOk m file base bytes := by
  obtain ⟨hmaps, hentry⟩ := processMapMemory_entry hload.memory hdirs hfile himage hstack hmap hok
  have hbyte : ∀ j, IsSegment m base j → ∀ k, k < pMemsz m (phdrAt (elfPheader m base) j) →
      ∀ i, LastCover m file (elfPheader m base) 0 (ePhnum m base)
        (pagingAlignToLowerPage (segmentAddr m (phdrAt (elfPheader m base) j) k)) i →
      pagingGetPhysicalAddress s' (s'.directory d) (segmentAddr m (phdrAt (elfPheader m base) j) k)
        = phdrPhys m file (phdrAt (elfPheader m base) i)
            (segmentAddr m (phdrAt (elfPheader m base) j) k) := by
    intro j hj k hk i hi
    have hlt : segmentAddr m (phdrAt (elfPheader m base) j) k < 4294967296 := u32_lt _
    refine translate_entry (hmaps i hi.2.1) hi.2.2.1 (hentry _ i ?_ ?_ ?_ hi)
    · rw [pagingAlignToLowerPage_eq]; omega
    · rw [pagingAlignToLowerPage_eq]; omega
    · have hout := hsegs.offStack j hj k hk
      unfold InStack bimbleosProgramVirtualStackAddressEnd bimbleosProgramVirtualStackAddressStart
        bimbleosUserProgramStackSize at hout ⊢
      rw [pagingAlignToLowerPage_eq]
      omega
  have hown : ∀ j, IsSegment m base j → ∀ k, k < pMemsz m (phdrAt (elfPheader m base) j) → _ :=
    fun j hj k hk => segment_covers (k := k) hbase hheap hload.memory
      (by unfold bimbleosHeapAddress bimbleosHeapSizeBytes at hend; omega) (hsegs.inFile j hj).1
      (hsegs.inFile j hj).2 (hsegs.congruent j hj) (hmaps j hj.1) (hsegs.offStack j hj) hk
  -- a byte that its own header shows is the file's, or what follows the file bytes in the buffer
  have hself : ∀ j, IsSegment m base j → ∀ k, k < pMemsz m (phdrAt (elfPheader m base) j) →
      (m (base + (pOffset m (phdrAt (elfPheader m base) j)).toNat + k)
          = segmentByte m (phdrAt (elfPheader m base) j) bytes k ↔
        (pFilesz m (phdrAt (elfPheader m base) j) ≤ k →
          m (base + (pOffset m (phdrAt (elfPheader m base) j)).toNat + k) = 0)) := by
    intro j hj k hk
    obtain ⟨hoff, hin⟩ := hsegs.inFile j hj
    unfold segmentByte
    by_cases hpart : k < pFilesz m (phdrAt (elfPheader m base) j)
    · have hlen : (pOffset m (phdrAt (elfPheader m base) j)).toNat + k < bytes.length := by omega
      have hget := hload.image _ hlen
      rw [if_pos hpart]
      refine ⟨fun _ hge => absurd hge (by omega), fun _ => ?_⟩
      rw [Nat.add_assoc, hget, List.getD_eq_getElem _ _ hlen]
    · rw [if_neg hpart]
      exact ⟨fun h _ => h, fun h => h (by omega)⟩
  constructor
  · intro h j hj k hk i hi
    have hsee := h j hj k hk
    rw [hbyte j hj k hk i hi] at hsee
    split
    · next heq =>
        rw [heq, (hown j hj k hk).2] at hsee
        exact (hself j hj k hk).mp hsee
    · exact hsee
  · intro h j hj k hk
    obtain ⟨i, _, hi⟩ := exists_lastCover (Nat.zero_le j) hj.1 (hown j hj k hk).1
    have hcond := h j hj k hk i hi
    rw [hbyte j hj k hk i hi]
    by_cases heq : i = j
    · rw [if_pos heq] at hcond
      rw [heq, (hown j hj k hk).2]
      exact (hself j hj k hk).mpr hcond
    · rw [if_neg heq] at hcond
      exact hcond

end Image

/-! A concrete process: one segment of 84 file bytes and 96 bytes of memory. -/

/-- The file. -/
def bssElf : List (BitVec 8) := smallElf 0

/-- A page directory at `0x1301000`, its tables from `0x1400000` on, empty. -/
def freshPages : PageStore where
  word := fun a =>
    if a = 0x1300000 then 0x1301000
    else if 0x1301000 ≤ a ∧ a < 0x1302000 then BitVec.ofNat 32 (0x1400000 + 1024 * (a - 0x1301000))
    else 0

def bssProcess : Process where
  image := 0x1100000
  stack := 0x1900000

theorem freshPages_ok : DirsOk freshPages (· = 0x1300000) := by
  have hdir : freshPages.directory 0x1300000 = 0x1301000 := rfl
  have htable : ∀ i, i < 1024 → freshPages.table 0x1301000 i = 0x1400000 + 4096 * i := by
    intro i hi
    unfold PageStore.table
    rw [frameOf_eq]
    unfold freshPages
    simp only
    rw [if_neg (by omega), if_pos (by omega), BitVec.toNat_ofNat]
    omega
  refine ⟨fun d hd => ?_, fun d d' i i' hd hd' hi hi' heq => ?_, fun d d' i hd hd' hi => ?_⟩
  · rw [hd, hdir]
  · subst hd hd'
    rw [hdir, htable i hi, htable i' hi'] at heq
    exact ⟨rfl, by omega⟩
  · subst hd hd'
    rw [hdir, htable i hi]
    omega

theorem bssElf_loaded_zero : ElfLoaded (elfMem bssElf 0) 0x1100000 0x1200000 bssElf where
  memory := by decide +kernel
  image := by decide +kernel
  accepted := by decide +kernel

theorem bssElf_loaded_dirty : ElfLoaded (elfMem bssElf 0xaa) 0x1100000 0x1200000 bssElf where
  memory := by decide +kernel
  image := by decide +kernel
  accepted := by decide +kernel

/-- The facts about the one header that `SegmentsOk` asks for. -/
theorem segmentsOk_one {m : Mem} {base filesize : Nat} (hnum : ePhnum m base = 1)
    (hoff : pOffset m (phdrAt (elfPheader m base) 0) = 0)
    (hfilesz : pFilesz m (phdrAt (elfPheader m base) 0) ≤ filesize)
    (hvirt : pVaddr m (phdrAt (elfPheader m base) 0) = 0x400000)
    (hmemsz : pMemsz m (phdrAt (elfPheader m base) 0) = 0x60) : SegmentsOk m base filesize := by
  have hzero : ∀ j, IsSegment m base j → j = 0 := fun j hj => by
    have := hj.1
    omega
  refine ⟨fun j hj => ?_, fun j hj => ?_, fun j hj k hk => ?_, fun j j' hj hj' hne => ?_⟩
  · rw [hzero j hj, hoff]
    omega
  · rw [hzero j hj, hoff, hvirt]
    rfl
  · rw [hzero j hj] at hk ⊢
    unfold InStack segmentAddr bimbleosProgramVirtualStackAddressEnd
      bimbleosProgramVirtualStackAddressStart bimbleosUserProgramStackSize
    rw [hvirt, u32_of_lt (by omega)]
    omega
  · exact absurd ((hzero j hj).trans (hzero j' hj').symm) hne

theorem bssElf_segments_zero : SegmentsOk (elfMem bssElf 0) 0x1200000 bssElf.length :=
  segmentsOk_one (by decide +kernel) (by decide +kernel) (by decide +kernel) (by decide +kernel)
    (by decide +kernel)

theorem bssElf_segments_dirty : SegmentsOk (elfMem bssElf 0xaa) 0x1200000 bssElf.length :=
  segmentsOk_one (by decide +kernel) (by decide +kernel) (by decide +kernel) (by decide +kernel)
    (by decide +kernel)

/-- The page store that mapping the process leaves. -/
def bssPages (behind : BitVec 8) : PageStore :=
  ((processMapMemory (elfMem bssElf behind) freshPages 0x1300000 bssProcess).getD (0, noPages)).2

theorem bssProcess_mapped {behind : BitVec 8}
    (hres : (processMapMemory (elfMem bssElf behind) freshPages 0x1300000 bssProcess).map Prod.fst
      = some 0) :
    processMapMemory (elfMem bssElf behind) freshPages 0x1300000 bssProcess
      = some (0, bssPages behind) := by
  obtain ⟨⟨res, s'⟩, hrun, hfst⟩ := Option.map_eq_some_iff.mp hres
  unfold bssPages
  rw [hrun, ← hfst]
  rfl

/-- With zeros behind the file buffer the process sees the image. -/
theorem processMapMemory_image_iff_bss :
    SeesImage (elfMem bssElf 0) (bssPages 0) 0x1300000 0x1200000 bssElf ↔
      ImageOk (elfMem bssElf 0) 0x1100000 0x1200000 bssElf :=
  processMapMemory_image_iff bssElf_loaded_zero (by decide) (by decide) (by decide)
    bssElf_segments_zero freshPages_ok rfl rfl (by decide) (bssProcess_mapped (by decide +kernel))
    (Int.le_refl 0)

/-- With anything else there the process finds it where its `.bss` should be zero. -/
theorem processMapMemory_bss_dirty :
    ¬ ∀ (m : Mem) (s s' : PageStore) (d file base : Nat) (bytes : List (BitVec 8)) (process : Process)
        (res : Int), ElfLoaded m file base bytes → base % 4096 = 0 → bimbleosHeapAddress ≤ base →
      base + bytes.length ≤ bimbleosHeapAddress + bimbleosHeapSizeBytes →
      SegmentsOk m base bytes.length → DirsOk s (· = d) → process.filetype = processFiletypeElf →
      process.image = file → process.stack < 4294967296 →
      processMapMemory m s d process = some (res, s') → 0 ≤ res → SeesImage m s' d base bytes := by
  intro h
  have hsees := h (elfMem bssElf 0xaa) freshPages (bssPages 0xaa) 0x1300000 0x1100000 0x1200000 bssElf
    bssProcess 0 bssElf_loaded_dirty (by decide) (by decide) (by decide) bssElf_segments_dirty
    freshPages_ok rfl rfl (by decide) (bssProcess_mapped (by decide +kernel)) (Int.le_refl 0)
  have hbyte := hsees 0 ⟨by decide +kernel, by decide +kernel⟩ 84 (by decide +kernel)
  exact absurd hbyte (by decide +kernel)

end BimbleOS
