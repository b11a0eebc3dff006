import BimbleOS.Task.Process
import BimbleOS.Memory.PagingSpec

/-!
# `Task.ElfMapping` — the mappings an ELF file gets

`process_map_elf` maps the pages of every program header, whatever its type, from the addresses the
header names. Nothing compares these with the file or with the address range of programs, so a mapping
stays inside the file's memory exactly when the header itself asks for that:
`processMapElf_inside_iff`.
-/

namespace BimbleOS

open Bytes CWord Window

/-- What `elf_load` leaves when it accepts a file: the record names the memory at `base`, which holds
    the file's bytes, and its header is valid. -/
structure ElfLoaded (m : Mem) (file base : Nat) (bytes : List (BitVec 8)) : Prop where
  memory : elfMemory m file = base
  image : ∀ i, (h : i < bytes.length) → m (base + i) = bytes[i]
  accepted : elfValidateLoaded m base = bimbleosAllOk

/-! ## The pages of one program header -/

section Header

variable (m : Mem) (file phdr : Nat)

/-- The first virtual page of the header. -/
def phdrVirt : Nat := pagingAlignToLowerPage (pVaddr m phdr)

/-- The first physical page of the header. -/
def phdrFirst : Nat := pagingAlignToLowerPage (elfPhdrPhysAddress m file phdr)

/-- The end of its physical pages; it is below the first one when `p_memsz` wraps around. -/
def phdrLast : Nat := pagingAlignAddress (u32 (elfPhdrPhysAddress m file phdr + pMemsz m phdr : Nat))

/-- The number of pages. -/
def phdrPages : Nat := (phdrLast m file phdr - phdrFirst m file phdr) / 4096

/-- The header is mapped, rather than refused by `paging_map_to`. -/
def PhdrMaps : Prop := phdrFirst m file phdr ≤ phdrLast m file phdr

instance : Decidable (PhdrMaps m file phdr) := Nat.decLe _ _

end Header

theorem pagingAlignToLowerPage_eq (a : Nat) : pagingAlignToLowerPage a = a / 4096 * 4096 := by
  unfold pagingAlignToLowerPage pagingPageSize
  omega

theorem pagingAlignAddress_aligned (a : Nat) : pagingAlignAddress a % 4096 = 0 := by
  unfold pagingAlignAddress pagingPageSize
  split
  · unfold u32; omega
  · omega

theorem pagingAlignAddress_lt {a : Nat} (h : a < 4294967296) : pagingAlignAddress a < 4294967296 := by
  unfold pagingAlignAddress pagingPageSize
  split
  · exact u32_lt _
  · exact h

/-- Rounding up goes up, unless it wraps around to 0. -/
theorem le_pagingAlignAddress {a : Nat} (h : a < 4294967296) (hpos : 0 < pagingAlignAddress a) :
    a ≤ pagingAlignAddress a := by
  unfold pagingAlignAddress pagingPageSize at *
  split at hpos
  · next hne =>
      rw [if_pos hne]
      unfold u32 at *
      omega
  · next heq =>
      rw [if_neg heq]

section Header

variable {m : Mem} {file phdr : Nat}

theorem phdrVirt_aligned : phdrVirt m phdr % 4096 = 0 ∧ phdrVirt m phdr < 4294967296 := by
  have hlt : pVaddr m phdr < 4294967296 := (load32 m (phdr + 8)).isLt
  unfold phdrVirt
  rw [pagingAlignToLowerPage_eq]
  omega

theorem phdrFirst_aligned : phdrFirst m file phdr % 4096 = 0 ∧ phdrFirst m file phdr < 4294967296 := by
  have hlt : elfPhdrPhysAddress m file phdr < 4294967296 := u32_lt _
  unfold phdrFirst
  rw [pagingAlignToLowerPage_eq]
  omega

theorem phdrLast_aligned : phdrLast m file phdr % 4096 = 0 ∧ phdrLast m file phdr < 4294967296 :=
  ⟨pagingAlignAddress_aligned _, pagingAlignAddress_lt (u32_lt _)⟩

theorem phdrPages_eq (h : PhdrMaps m file phdr) :
    phdrFirst m file phdr + 4096 * phdrPages m file phdr = phdrLast m file phdr := by
  obtain ⟨hf, _⟩ := @phdrFirst_aligned m file phdr
  obtain ⟨hl, _⟩ := @phdrLast_aligned m file phdr
  unfold PhdrMaps at h
  unfold phdrPages
  omega

theorem phdrPages_le : phdrPages m file phdr ≤ 1048576 := by
  obtain ⟨_, hl⟩ := @phdrLast_aligned m file phdr
  unfold phdrPages
  omega

theorem phdrFlags_lt : (phdrFlags m phdr).toNat < 4096 := by
  unfold phdrFlags
  split <;> decide

/-- Mapping one header. -/
theorem mapPhdr_eq (s : PageStore) (pageDirectory : Nat) :
    pagingMapTo s pageDirectory (phdrVirt m phdr) (phdrFirst m file phdr) (phdrLast m file phdr)
        (phdrFlags m phdr)
      = if PhdrMaps m file phdr then
          pagingMapRange s pageDirectory (phdrVirt m phdr) (phdrFirst m file phdr) (phdrFlags m phdr)
            (phdrPages m file phdr)
        else (-EINVARG, s) := by
  rw [pagingMapTo_eq]
  by_cases h : PhdrMaps m file phdr
  · rw [if_pos h, if_pos ⟨phdrVirt_aligned.1, phdrFirst_aligned.1, phdrLast_aligned.1, h⟩]
    rfl
  · rw [if_neg h, if_neg (fun hc => h hc.2.2.2)]

variable (m file phdr)

/-- The store after the pages of a header are mapped. -/
def PageStore.setPhdr (s : PageStore) (pageDirectory : Nat) : PageStore :=
  s.setRange pageDirectory (phdrVirt m phdr) (phdrFirst m file phdr) (phdrFlags m phdr)
    (phdrPages m file phdr)

/-- The pages of a header with their entries. -/
def phdrRange : List (Nat × BitVec 32) :=
  window (rangePage (phdrVirt m phdr) (phdrFirst m file phdr) (phdrFlags m phdr)) 0
    (phdrPages m file phdr)

/-- `process_map_elf` on one header: its pages are mapped, or it is refused. -/
theorem mapPhdr_cases (s : PageStore) (pageDirectory : Nat) :
    pagingMapTo s pageDirectory (phdrVirt m phdr) (phdrFirst m file phdr) (phdrLast m file phdr)
        (phdrFlags m phdr)
      = if PhdrMaps m file phdr then (0, s.setPhdr m file phdr pageDirectory) else (-EINVARG, s) := by
  have hres : (pagingMapRange s pageDirectory (phdrVirt m phdr) (phdrFirst m file phdr)
      (phdrFlags m phdr) (phdrPages m file phdr)).1 = 0 :=
    (pagingMapRange_pages phdrVirt_aligned.1 phdrFirst_aligned.1 phdrVirt_aligned.2
      phdrFirst_aligned.2).1
  rw [mapPhdr_eq]
  by_cases h : PhdrMaps m file phdr
  · rw [if_pos h, if_pos h, ← hres]
    rfl
  · rw [if_neg h, if_neg h]

theorem pages_setPhdr (s : PageStore) (pageDirectory : Nat) :
    (s.setPhdr m file phdr pageDirectory).pages = s.pages ++ phdrRange m file phdr :=
  (pagingMapRange_pages phdrVirt_aligned.1 phdrFirst_aligned.1 phdrVirt_aligned.2
    phdrFirst_aligned.2).2

end Header

/-! ## Where the pages lie -/

/-- A mapped page whose frame lies inside the block run of a file of `filesize` bytes at `base`, at a
    virtual address for programs. -/
def PageInside (base filesize : Nat) (page : Nat × BitVec 32) : Prop :=
  base ≤ frameOf page.2 ∧ frameOf page.2 + 4096 ≤ base + (filesize + 4095) / 4096 * 4096 ∧
    bimbleosProgramVirtualAddress ≤ page.1

/-- The condition on a header: if it maps any page, its physical pages lie in the block run of the file,
    and its virtual pages start at the program address or later and do not wrap around. -/
def PhdrInside (m : Mem) (file base filesize phdr : Nat) : Prop :=
  PhdrMaps m file phdr → phdrPages m file phdr = 0 ∨
    base ≤ phdrFirst m file phdr ∧ phdrLast m file phdr ≤ base + (filesize + 4095) / 4096 * 4096 ∧
      bimbleosProgramVirtualAddress ≤ phdrVirt m phdr ∧
      phdrVirt m phdr + 4096 * phdrPages m file phdr ≤ 4294967296

theorem rangeInside_iff {base filesize virt phys n : Nat} {flags : BitVec 32} (hphys : phys % 4096 = 0)
    (hvirt : virt % 4096 = 0) (hv : virt < 4294967296) (hend : phys + 4096 * n < 4294967296)
    (hflags : flags.toNat < 4096) :
    (∀ page ∈ window (rangePage virt phys flags) 0 n, PageInside base filesize page) ↔
      n = 0 ∨ base ≤ phys ∧ phys + 4096 * n ≤ base + (filesize + 4095) / 4096 * 4096 ∧
        bimbleosProgramVirtualAddress ≤ virt ∧ virt + 4096 * n ≤ 4294967296 := by
  have hframe : ∀ i, i < n → frameOf (rangePage virt phys flags i).2 = phys + 4096 * i := by
    intro i hi
    unfold rangePage
    rw [u32_of_lt (show phys + 4096 * i < 4294967296 by omega)]
    exact frameOf_or (by omega) (by omega) hflags
  have hpage : ∀ i, (rangePage virt phys flags i).1 = (virt + 4096 * i) % 4294967296 :=
    fun i => u32_natCast _
  rw [forall_mem_window]
  constructor
  · intro h
    rcases Nat.eq_zero_or_pos n with hn | hn
    · exact Or.inl hn
    · refine Or.inr ?_
      obtain ⟨hfirst, _, hvirt₀⟩ := h 0 hn
      obtain ⟨_, hlast, _⟩ := h (n - 1) (by omega)
      rw [Nat.zero_add] at hfirst hvirt₀ hlast
      rw [hframe 0 hn] at hfirst
      rw [hframe (n - 1) (by omega)] at hlast
      rw [hpage, Nat.mul_zero, Nat.add_zero, Nat.mod_eq_of_lt hv] at hvirt₀
      refine ⟨by omega, by omega, hvirt₀, ?_⟩
      -- a range that wraps around has a page at virtual address 0
      by_contra hwrap
      obtain ⟨_, _, hzero⟩ := h ((4294967296 - virt) / 4096) (by omega)
      rw [Nat.zero_add, hpage] at hzero
      unfold bimbleosProgramVirtualAddress at hzero
      omega
  · intro h i hi
    obtain ⟨hfirst, hlast, hlow, hhigh⟩ := h.resolve_left (by omega)
    rw [Nat.zero_add]
    refine ⟨?_, ?_, ?_⟩
    · rw [hframe i hi]; omega
    · rw [hframe i hi]; omega
    · rw [hpage, Nat.mod_eq_of_lt (by omega)]; omega

/-! ## All headers -/

section Loop

variable {m : Mem} {pageDirectory file phdrs base filesize : Nat}

/-- One round of the loop: a refused header ends it. -/
theorem processMapElfLoop_succ (left i : Nat) (s : PageStore) :
    processMapElfLoop m pageDirectory file phdrs (left + 1) i s
      = if PhdrMaps m file (phdrAt phdrs i) then
          processMapElfLoop m pageDirectory file phdrs left (i + 1)
            (s.setPhdr m file (phdrAt phdrs i) pageDirectory)
        else (-EINVARG, s) := by
  have hstep : processMapElfLoop m pageDirectory file phdrs (left + 1) i s
      = (let r := pagingMapTo s pageDirectory (phdrVirt m (phdrAt phdrs i))
            (phdrFirst m file (phdrAt phdrs i)) (phdrLast m file (phdrAt phdrs i))
            (phdrFlags m (phdrAt phdrs i))
         if r.1 < 0 then r else processMapElfLoop m pageDirectory file phdrs left (i + 1) r.2) := rfl
  rw [hstep, mapPhdr_cases]
  by_cases hmaps : PhdrMaps m file (phdrAt phdrs i)
  · rw [if_pos hmaps, if_pos hmaps]
    rfl
  · rw [if_neg hmaps, if_neg hmaps]
    rfl

/-- A header's pages lie inside exactly when it asks for that. -/
theorem phdrInside_iff {phdr : Nat} (hmaps : PhdrMaps m file phdr) :
    (∀ page ∈ phdrRange m file phdr, PageInside base filesize page) ↔
      PhdrInside m file base filesize phdr := by
  have hend := phdrPages_eq hmaps
  have hlast := (@phdrLast_aligned m file phdr).2
  unfold phdrRange
  rw [rangeInside_iff phdrFirst_aligned.1 phdrVirt_aligned.1 phdrVirt_aligned.2 (by omega) phdrFlags_lt,
    hend]
  exact ⟨fun h _ => h, fun h => h hmaps⟩

/-- **The pages that the loop maps lie inside exactly when every header it reaches asks for that.** The
    induction is on the headers left; a header is reached when none before it was refused. -/
theorem processMapElfLoop_inside (left i : Nat) (s : PageStore) :
    ∃ new, (processMapElfLoop m pageDirectory file phdrs left i s).2.pages = s.pages ++ new ∧
      ((∀ page ∈ new, PageInside base filesize page) ↔
        ∀ j, i ≤ j → j < i + left → (∀ k, i ≤ k → k < j → PhdrMaps m file (phdrAt phdrs k)) →
          PhdrInside m file base filesize (phdrAt phdrs j)) := by
  induction left generalizing i s with
  | zero =>
      refine ⟨[], (List.append_nil _).symm, fun _ j hij hj => ?_, fun _ page hpage => ?_⟩
      · omega
      · exact absurd hpage List.not_mem_nil
  | succ left ih =>
      rw [processMapElfLoop_succ]
      by_cases hmaps : PhdrMaps m file (phdrAt phdrs i)
      · rw [if_pos hmaps]
        obtain ⟨new, hpages, hiff⟩ := ih (i + 1) (s.setPhdr m file (phdrAt phdrs i) pageDirectory)
        rw [pages_setPhdr] at hpages
        refine ⟨phdrRange m file (phdrAt phdrs i) ++ new, by rw [hpages, List.append_assoc], ?_⟩
        rw [List.forall_mem_append, phdrInside_iff hmaps, hiff]
        constructor
        · intro ⟨hfirst, hrest⟩ j hij hj hreached
          rcases Nat.eq_or_lt_of_le hij with rfl | hlt
          · exact hfirst
          · exact hrest j hlt (by omega) fun k hk => hreached k (by omega)
        · intro h
          refine ⟨h i (Nat.le_refl i) (by omega) fun k hk hki => absurd hki (by omega), ?_⟩
          intro j hij hj hreached
          refine h j (by omega) (by omega) fun k hk hkj => ?_
          rcases Nat.eq_or_lt_of_le hk with rfl | hlt
          · exact hmaps
          · exact hreached k hlt hkj
      · -- a refused header is fine, and the later ones are not reached
        rw [if_neg hmaps]
        refine ⟨[], (List.append_nil _).symm, fun _ j hij _ hreached hj => ?_, fun _ page hpage => ?_⟩
        · rcases Nat.eq_or_lt_of_le hij with rfl | hlt
          · exact absurd hj hmaps
          · exact absurd (hreached i (Nat.le_refl i) hlt) hmaps
        · exact absurd hpage List.not_mem_nil

end Loop

/-- **The pages `process_map_elf` maps for an accepted file lie inside the file's block run, at program
    addresses, exactly when every program header that is reached asks for such pages.** -/
theorem processMapElf_inside_iff {m : Mem} {file base : Nat} {bytes : List (BitVec 8)}
    (hload : ElfLoaded m file base bytes) (s : PageStore) (pageDirectory : Nat) :
    ∃ new, (processMapElf m s pageDirectory file).2.pages = s.pages ++ new ∧
      ((∀ page ∈ new, PageInside base bytes.length page) ↔
        ∀ i, i < ePhnum m base →
          (∀ j, j < i → PhdrMaps m file (phdrAt (elfPheader m base) j)) →
          PhdrInside m file base bytes.length (phdrAt (elfPheader m base) i)) := by
  obtain ⟨new, hpages, hiff⟩ := @processMapElfLoop_inside m pageDirectory file (elfPheader m base) base
    bytes.length (ePhnum m base) 0 s
  unfold processMapElf
  rw [hload.memory]
  refine ⟨new, hpages, hiff.trans ?_⟩
  simp only [Nat.zero_le, true_implies, Nat.zero_add]

/-- An ELF file with one loadable segment: 84 bytes from `p_offset` 0 on, to be mapped at `0x400000`; the
    argument is the second byte of `p_memsz`. -/
def smallElf (memsz : BitVec 8) : List (BitVec 8) := [
  0x7f, 0x45, 0x4c, 0x46, 1, 1, 0, 0, 0, 0, 0, 0, 0, 0, 0, 0,
  2, 0, 3, 0, 1, 0, 0, 0, 0x54, 0, 0x40, 0, 52, 0, 0, 0, 0, 0, 0, 0,
  0, 0, 0, 0, 52, 0, 32, 0, 1, 0, 0, 0, 0, 0, 0, 0,
  1, 0, 0, 0, 0, 0, 0, 0, 0, 0, 0x40, 0, 0, 0, 0, 0,
  84, 0, 0, 0, 0x60, memsz, 0, 0, 7, 0, 0, 0, 0, 0x10, 0, 0]

/-- The file claims 0x2060 bytes of memory. -/
def greedyElf : List (BitVec 8) := smallElf 0x20

/-- Memory with the file at `0x1200000`, `behind` in all bytes behind it, and its record at
    `0x1100000`. -/
def elfMem (bytes : List (BitVec 8)) (behind : BitVec 8) : Mem :=
  store32 (fun a => bytes.getD (a - 0x1200000) behind) (0x1100000 + 112) 0x1200000

theorem greedyElf_loaded : ElfLoaded (elfMem greedyElf 0) 0x1100000 0x1200000 greedyElf where
  memory := by decide +kernel
  image := by decide +kernel
  accepted := by decide +kernel

/-- Page tables with nothing in them. -/
def noPages : PageStore := { word := fun _ => 0 }

theorem processMapElf_inside_iff_greedy :
    ∃ new, (processMapElf (elfMem greedyElf 0) noPages 0x1300000 0x1100000).2.pages
        = noPages.pages ++ new ∧
      ((∀ page ∈ new, PageInside 0x1200000 greedyElf.length page) ↔
        ∀ i, i < ePhnum (elfMem greedyElf 0) 0x1200000 →
          (∀ j, j < i → PhdrMaps (elfMem greedyElf 0) 0x1100000
            (phdrAt (elfPheader (elfMem greedyElf 0) 0x1200000) j)) →
          PhdrInside (elfMem greedyElf 0) 0x1100000 0x1200000 greedyElf.length
            (phdrAt (elfPheader (elfMem greedyElf 0) 0x1200000) i)) :=
  processMapElf_inside_iff greedyElf_loaded noPages 0x1300000

/-- That file is accepted, and its second page is mapped from behind its block. -/
theorem processMapElf_outside_greedy :
    ¬ ∀ (m : Mem) (file base : Nat) (bytes : List (BitVec 8)) (s : PageStore) (pageDirectory : Nat)
        (new : List (Nat × BitVec 32)), ElfLoaded m file base bytes →
      (processMapElf m s pageDirectory file).2.pages = s.pages ++ new →
      ∀ page ∈ new, PageInside base bytes.length page := by
  intro h
  obtain ⟨new, hpages, hiff⟩ := @processMapElfLoop_inside (elfMem greedyElf 0) 0x1300000 0x1100000
    (elfPheader (elfMem greedyElf 0) 0x1200000) 0x1200000 greedyElf.length
    (ePhnum (elfMem greedyElf 0) 0x1200000) 0 noPages
  have hrun : processMapElf (elfMem greedyElf 0) noPages 0x1300000 0x1100000
      = processMapElfLoop (elfMem greedyElf 0) 0x1300000 0x1100000
          (elfPheader (elfMem greedyElf 0) 0x1200000) (ePhnum (elfMem greedyElf 0) 0x1200000) 0 noPages := by
    unfold processMapElf
    rw [greedyElf_loaded.memory]
  have hinside := hiff.mp (h _ _ _ _ noPages 0x1300000 new greedyElf_loaded (hrun ▸ hpages))
  have hfirst := hinside 0 (by decide) (by decide +kernel) (fun k _ hk => absurd hk (by omega))
    (by decide +kernel)
  exact absurd hfirst (by decide +kernel)

end BimbleOS
