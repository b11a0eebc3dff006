import BimbleOS.Lib.Bytes
import Mathlib.Logic.Function.Basic

/-!
# `Kernel.Gdt` — the segment descriptors of `gdt/gdt.c`

`encodeGdtEntry` packs a segment into the eight bytes of a descriptor, and `gdt_structured_to_gdt` does this for the
whole table. A limit up to 65536 is stored in bytes, a larger one in pages of 4096 bytes, which is exact because such
a limit must end in twelve ones. The processor's way to read a descriptor (`descriptorAt`) gives back every segment of
a table that the kernel accepts (`gdtStructuredToGdt_decodes`).
-/

namespace BimbleOS

open Bytes

/-- `struct GdtStructured`. -/
structure GdtStructured where
  base : BitVec 32
  limit : BitVec 32
  type : BitVec 8
  deriving DecidableEq, Repr

/-- `sizeof(struct Gdt)`. -/
def sizeofGdt : Nat := 8

/-- `(v >> k) & 0xFF`, stored in a byte. -/
def byteOf (v : BitVec 32) (k : Nat) : BitVec 8 := ((v >>> k) &&& 0xFF).setWidth 8

/-- `target[i] = v`. -/
def setByte (target i : Nat) (v : BitVec 8) (m : Mem) : Mem := Function.update m (target + i) v

/-- `(limit >> 16) & 0x0F`, stored in a byte: the four bits of the limit that share byte 6 with the flags. -/
def limitNibble (limit : BitVec 32) : BitVec 8 := ((limit >>> 16) &&& 0x0F).setWidth 8

/-- What `encodeGdtEntry` does once it has chosen the granularity. -/
def encodeGdtFields (target : Nat) (limit : BitVec 32) (source : GdtStructured) (m : Mem) : Mem :=
  let m := setByte target 0 (byteOf limit 0) m
  let m := setByte target 1 (byteOf limit 8) m
  let m := setByte target 6 (m (target + 6) ||| limitNibble limit) m
  let m := setByte target 2 (byteOf source.base 0) m
  let m := setByte target 3 (byteOf source.base 8) m
  let m := setByte target 4 (byteOf source.base 16) m
  let m := setByte target 7 (byteOf source.base 24) m
  setByte target 5 source.type m

/-- `encodeGdtEntry`; `none` is the panic. -/
def encodeGdtEntry (target : Nat) (source : GdtStructured) (m : Mem) : Option Mem :=
  if 65536 < source.limit ∧ source.limit &&& 0xFFF ≠ 0xFFF then none
  else
    let m := setByte target 6 0x40 m
    if 65536 < source.limit then
      some (encodeGdtFields target (source.limit >>> 12) source (setByte target 6 0xC0 m))
    else some (encodeGdtFields target source.limit source m)

/-- The loop of `gdt_structured_to_gdt`. -/
def gdtStructuredToGdtLoop (gdt : Nat) : Nat → List GdtStructured → Mem → Option Mem
  | _, [], m => some m
  | i, source :: structured, m =>
      (encodeGdtEntry (gdt + sizeofGdt * i) source m).bind (gdtStructuredToGdtLoop gdt (i + 1) structured)

/-- `gdt_structured_to_gdt`. -/
def gdtStructuredToGdt (gdt : Nat) (structured : List GdtStructured) (m : Mem) : Option Mem :=
  gdtStructuredToGdtLoop gdt 0 structured m

/-! ## How the processor reads a descriptor -/

/-- The 20 bits of the limit: two bytes, and the low half of byte 6. -/
def descriptorLimitField (m : Mem) (a : Nat) : BitVec 20 := (m (a + 6)).extractLsb' 0 4 ++ m (a + 1) ++ m a

/-- The limit in bytes: with the granularity bit, bit 7 of byte 6, the field counts pages. -/
def descriptorLimit (m : Mem) (a : Nat) : BitVec 32 :=
  let field := (descriptorLimitField m a).setWidth 32
  if (m (a + 6)).getLsbD 7 then (field <<< 12) ||| 0xFFF else field

/-- The segment of the descriptor at `a`. -/
def descriptorAt (m : Mem) (a : Nat) : GdtStructured where
  base := m (a + 7) ++ m (a + 4) ++ m (a + 3) ++ m (a + 2)
  limit := descriptorLimit m a
  type := m (a + 5)

/-- `encodeGdtEntry` accepts the segment. -/
def GdtStructured.Accepted (source : GdtStructured) : Prop := source.limit ≤ 65536 ∨ source.limit &&& 0xFFF = 0xFFF

instance (source : GdtStructured) : Decidable source.Accepted := inferInstanceAs (Decidable (_ ∨ _))

section Bits

variable {v limit : BitVec 32} {flags : BitVec 8} {k i : Nat}

theorem byteOf_eq : byteOf v k = v.extractLsb' k 8 := by
  have hmask : (v >>> k).toNat &&& 255 = (v >>> k).toNat % 256 := Nat.and_two_pow_sub_one_eq_mod _ 8
  apply BitVec.eq_of_toNat_eq
  unfold byteOf
  rw [BitVec.toNat_setWidth, BitVec.toNat_and, BitVec.extractLsb'_toNat, ← BitVec.toNat_ushiftRight]
  show ((v >>> k).toNat &&& 255) % 256 = _
  rw [hmask, Nat.mod_mod]

/-- The four bytes of a dword. -/
theorem append_byteOf : byteOf v 24 ++ byteOf v 16 ++ byteOf v 8 ++ byteOf v 0 = v := by
  simp only [byteOf_eq]
  rw [BitVec.extractLsb'_append_extractLsb'_eq_extractLsb' (show 24 = 16 + 8 from rfl),
    BitVec.extractLsb'_append_extractLsb'_eq_extractLsb' (show 16 = 8 + 8 from rfl),
    BitVec.extractLsb'_append_extractLsb'_eq_extractLsb' (show 8 = 0 + 8 from rfl)]
  exact BitVec.extractLsb'_eq_self

theorem limitNibble_toNat : (limitNibble limit).toNat = limit.toNat / 65536 % 16 := by
  have hmask : (limit >>> 16).toNat &&& 15 = (limit >>> 16).toNat % 16 := Nat.and_two_pow_sub_one_eq_mod _ 4
  unfold limitNibble
  rw [BitVec.toNat_setWidth, BitVec.toNat_and]
  show ((limit >>> 16).toNat &&& 15) % 256 = _
  rw [hmask, BitVec.toNat_ushiftRight, Nat.shiftRight_eq_div_pow]
  omega

/-- Its bits are four bits of the limit. -/
theorem limitNibble_getLsbD : (limitNibble limit).getLsbD i = (decide (i < 4) && limit.getLsbD (16 + i)) := by
  have hnibble : limitNibble limit = (limit.extractLsb' 16 4).setWidth 8 := by
    apply BitVec.eq_of_toNat_eq
    rw [limitNibble_toNat, BitVec.toNat_setWidth, BitVec.extractLsb'_toNat, Nat.shiftRight_eq_div_pow]
    omega
  rw [hnibble, BitVec.getLsbD_setWidth, BitVec.getLsbD_extractLsb']
  by_cases hi : i < 4
  · simp [hi, Nat.lt_trans hi (show 4 < 8 by decide)]
  · simp [hi]

/-- The limit field, when the flags are in the high half of their byte. -/
theorem limitField_eq (hflags : flags.extractLsb' 0 4 = 0) :
    (flags ||| limitNibble limit).extractLsb' 0 4 ++ byteOf limit 8 ++ byteOf limit 0 = limit.extractLsb' 0 20 := by
  have hlow : (flags ||| limitNibble limit).extractLsb' 0 4 = limit.extractLsb' 16 4 := by
    ext i hi
    have hbit := congrArg (fun b => b.getLsbD i) hflags
    simp only [BitVec.getLsbD_extractLsb', hi, decide_true, Bool.true_and, Nat.zero_add] at hbit
    simp [limitNibble_getLsbD, hbit, hi]
  rw [hlow, byteOf_eq, byteOf_eq, BitVec.extractLsb'_append_extractLsb'_eq_extractLsb' (show 16 = 8 + 8 from rfl),
    BitVec.extractLsb'_append_extractLsb'_eq_extractLsb' (show 8 = 0 + 8 from rfl)]

/-- The granularity bit is one of the flags. -/
theorem granularity_eq : (flags ||| limitNibble limit).getLsbD 7 = flags.getLsbD 7 := by
  rw [BitVec.getLsbD_or, limitNibble_getLsbD]
  simp

/-- A limit in bytes fits the field. -/
theorem limit_of_le (h : limit ≤ 65536) : (limit.extractLsb' 0 20).setWidth 32 = limit := by
  have hle : limit.toNat ≤ 65536 := h
  apply BitVec.eq_of_toNat_eq
  simp only [BitVec.toNat_setWidth, BitVec.extractLsb'_toNat, Nat.shiftRight_zero]
  omega

/-- A limit in pages loses twelve ones. -/
theorem limit_of_ones (h : limit &&& 0xFFF = 0xFFF) :
    (((limit >>> 12).extractLsb' 0 20).setWidth 32 <<< 12) ||| 0xFFF = limit := by
  have hlt := limit.isLt
  have hones : limit.toNat &&& 4095 = 4095 := congrArg BitVec.toNat h
  have hmod : limit.toNat &&& 4095 = limit.toNat % 4096 := Nat.and_two_pow_sub_one_eq_mod _ 12
  have hpages : (((limit >>> 12).extractLsb' 0 20).setWidth 32 <<< 12).toNat = 2 ^ 12 * (limit.toNat / 4096) := by
    simp only [BitVec.toNat_shiftLeft, BitVec.toNat_setWidth, BitVec.extractLsb'_toNat, BitVec.toNat_ushiftRight,
      Nat.shiftRight_eq_div_pow, Nat.shiftLeft_eq]
    omega
  apply BitVec.eq_of_toNat_eq
  rw [BitVec.toNat_or, hpages]
  show 2 ^ 12 * (limit.toNat / 4096) ||| 4095 = _
  rw [← Nat.two_pow_add_eq_or_of_lt (by decide)]
  omega

end Bits

section Encode

variable {m m' : Mem} {target gdt a i : Nat} {limit : BitVec 32} {flags : BitVec 8} {source : GdtStructured}
  {structured : List GdtStructured}

theorem setByte_of_ne {v : BitVec 8} (h : a ≠ target + i) : setByte target i v m a = m a := Function.update_of_ne h ..

theorem setByte_at (j : Nat) {v : BitVec 8} :
    setByte target i v m (target + j) = if j = i then v else m (target + j) := by
  unfold setByte
  rw [Function.update_apply]
  simp only [Nat.add_left_cancel_iff]

/-- The bytes of a descriptor. -/
theorem encodeGdtFields_at (j : Nat) : encodeGdtFields target limit source m (target + j)
    = if j = 5 then source.type else if j = 7 then byteOf source.base 24 else if j = 4 then byteOf source.base 16
      else if j = 3 then byteOf source.base 8 else if j = 2 then byteOf source.base 0
      else if j = 6 then m (target + 6) ||| limitNibble limit else if j = 1 then byteOf limit 8
      else if j = 0 then byteOf limit 0 else m (target + j) := by
  unfold encodeGdtFields
  simp only [setByte_at]
  rfl

theorem encodeGdtFields_outside (h : a < target ∨ target + sizeofGdt ≤ a) :
    encodeGdtFields target limit source m a = m a := by
  unfold sizeofGdt at h
  unfold encodeGdtFields
  simp only [setByte_of_ne (show a ≠ target + 0 by omega), setByte_of_ne (show a ≠ target + 1 by omega),
    setByte_of_ne (show a ≠ target + 2 by omega), setByte_of_ne (show a ≠ target + 3 by omega),
    setByte_of_ne (show a ≠ target + 4 by omega), setByte_of_ne (show a ≠ target + 5 by omega),
    setByte_of_ne (show a ≠ target + 6 by omega), setByte_of_ne (show a ≠ target + 7 by omega)]

/-- What the processor reads in them. -/
theorem descriptorAt_fields (hm : m (target + 6) = flags) (hflags : flags.extractLsb' 0 4 = 0) :
    descriptorAt (encodeGdtFields target limit source m) target = { source with
      limit := if flags.getLsbD 7 then ((limit.extractLsb' 0 20).setWidth 32 <<< 12) ||| 0xFFF
        else (limit.extractLsb' 0 20).setWidth 32 } := by
  have hfield : descriptorLimitField (encodeGdtFields target limit source m) target = limit.extractLsb' 0 20 := by
    have hzero := @encodeGdtFields_at m target limit source 0
    rw [Nat.add_zero] at hzero
    unfold descriptorLimitField
    rw [hzero, encodeGdtFields_at, encodeGdtFields_at, hm]
    exact limitField_eq hflags
  unfold descriptorAt descriptorLimit
  simp only [hfield, encodeGdtFields_at, hm]
  congr 1
  · exact append_byteOf
  · show (if (flags ||| limitNibble limit).getLsbD 7 then _ else _) = _
    rw [granularity_eq]

theorem descriptorAt_congr (h : ∀ i, i < sizeofGdt → m' (a + i) = m (a + i)) :
    descriptorAt m' a = descriptorAt m a := by
  unfold sizeofGdt at h
  have h₀ := h 0 (by decide)
  rw [Nat.add_zero] at h₀
  unfold descriptorAt descriptorLimit descriptorLimitField
  rw [h₀, h 1 (by decide), h 2 (by decide), h 3 (by decide), h 4 (by decide), h 5 (by decide), h 6 (by decide),
    h 7 (by decide)]

/-- **One entry**: the kernel panics, or the processor reads in the eight bytes what was put in. -/
theorem encodeGdtEntry_decodes (h : source.Accepted) : ∃ m', encodeGdtEntry target source m = some m' ∧
    descriptorAt m' target = source ∧ ∀ a, a < target ∨ target + sizeofGdt ≤ a → m' a = m a := by
  have hout : ∀ {v : BitVec 8} {a : Nat}, a < target ∨ target + sizeofGdt ≤ a → setByte target 6 v m a = m a := by
    intro v a ha
    unfold sizeofGdt at ha
    exact setByte_of_ne (by omega)
  unfold encodeGdtEntry
  by_cases hbig : 65536 < source.limit
  · -- in pages
    have hones : source.limit &&& 0xFFF = 0xFFF := h.resolve_left (BitVec.not_le.mpr hbig)
    have hflags : setByte target 6 0xC0 (setByte target 6 0x40 m) (target + 6) = 0xC0 := by
      rw [setByte_at, if_pos rfl]
    have hread := @descriptorAt_fields _ target (source.limit >>> 12) _ source hflags (by decide)
    rw [if_pos (by decide), limit_of_ones hones] at hread
    rw [if_neg (fun hpanic => hpanic.2 hones), if_pos hbig]
    refine ⟨_, rfl, hread, fun a ha => ?_⟩
    rw [encodeGdtFields_outside ha, setByte_of_ne (by unfold sizeofGdt at ha; omega), hout ha]
  · -- in bytes
    have hsmall : source.limit ≤ 65536 := BitVec.not_lt.mp hbig
    have hflags : setByte target 6 0x40 m (target + 6) = 0x40 := by rw [setByte_at, if_pos rfl]
    have hread := @descriptorAt_fields _ target source.limit _ source hflags (by decide)
    rw [if_neg (by decide), limit_of_le hsmall] at hread
    rw [if_neg (fun hpanic => hbig hpanic.1), if_neg hbig]
    refine ⟨_, rfl, hread, fun a ha => ?_⟩
    rw [encodeGdtFields_outside ha, hout ha]

/-- The loop: the induction is on the segments to go, and the descriptors before them stay as they are. -/
theorem gdtStructuredToGdtLoop_decodes (h : ∀ source ∈ structured, source.Accepted) :
    ∃ m', gdtStructuredToGdtLoop gdt i structured m = some m' ∧
      (∀ j source, structured[j]? = some source → descriptorAt m' (gdt + sizeofGdt * (i + j)) = source) ∧
      ∀ a, a < gdt + sizeofGdt * i ∨ gdt + sizeofGdt * (i + structured.length) ≤ a → m' a = m a := by
  induction structured generalizing i m with
  | nil =>
      refine ⟨m, rfl, fun j source hj => ?_, fun a _ => rfl⟩
      cases hj
  | cons source structured ih =>
      obtain ⟨m₁, hentry, hread, hframe⟩ :=
        @encodeGdtEntry_decodes m (gdt + sizeofGdt * i) source (h source List.mem_cons_self)
      obtain ⟨m', hrest, hall, hframe'⟩ := @ih m₁ (i + 1) fun other hmem => h other (List.mem_cons_of_mem _ hmem)
      unfold sizeofGdt at hframe hframe' ⊢
      refine ⟨m', ?_, ?_, ?_⟩
      · unfold gdtStructuredToGdtLoop
        rw [hentry, Option.bind_some, hrest]
      · intro j other hj
        cases j with
        | zero =>
            cases hj
            rw [Nat.add_zero, ← hread]
            refine descriptorAt_congr fun b hb => hframe' _ (Or.inl ?_)
            unfold sizeofGdt at hb
            omega
        | succ j =>
            rw [show i + (j + 1) = i + 1 + j by omega]
            exact hall j other hj
      · intro a ha
        rw [List.length_cons] at ha
        rw [hframe' a (by omega), hframe a (by omega)]

end Encode

/-- **A table that the kernel accepts** is written in full, and the processor reads every segment back as it was. -/
theorem gdtStructuredToGdt_decodes (gdt : Nat) (structured : List GdtStructured) (m : Mem)
    (h : ∀ source ∈ structured, source.Accepted) : ∃ m', gdtStructuredToGdt gdt structured m = some m' ∧
      ∀ i, i < structured.length → structured[i]? = some (descriptorAt m' (gdt + sizeofGdt * i)) := by
  obtain ⟨m', hrun, hall, _⟩ := @gdtStructuredToGdtLoop_decodes m gdt 0 structured h
  refine ⟨m', hrun, fun i hi => ?_⟩
  have hread := hall i structured[i] (List.getElem?_eq_getElem hi)
  rw [Nat.zero_add] at hread
  rw [List.getElem?_eq_getElem hi, hread]

/-! ### The table of `kernel.c` -/

/-- `sizeof(tss)`: 25 dwords. -/
def sizeofTss : Nat := 100

/-- `gdt_structured`, with the task state segment at `tss`. -/
def kernelSegments (tss : BitVec 32) : List GdtStructured :=
  [ { base := 0x00, limit := 0x00, type := 0x00 },
    { base := 0x00, limit := 0xFFFFFFFF, type := 0x9A },
    { base := 0x00, limit := 0xFFFFFFFF, type := 0x92 },
    { base := 0x00, limit := 0xFFFFFFFF, type := 0xFA },
    { base := 0x00, limit := 0xFFFFFFFF, type := 0xF2 },
    { base := tss, limit := BitVec.ofNat 32 sizeofTss, type := 0x89 } ]

/-- All its segments are accepted, wherever the task state segment is. -/
theorem kernelSegments_accepted (tss : BitVec 32) : ∀ source ∈ kernelSegments tss, source.Accepted := by
  have hflat : (0xFFFFFFFF : BitVec 32) &&& 0xFFF = 0xFFF := by decide
  unfold kernelSegments
  simp only [List.forall_mem_cons]
  have htss : BitVec.ofNat 32 sizeofTss ≤ 65536 := by decide
  refine ⟨Or.inl (by decide), Or.inr hflat, Or.inr hflat, Or.inr hflat, Or.inr hflat, Or.inl htss, ?_⟩
  exact fun source hmem => absurd hmem List.not_mem_nil

theorem gdtStructuredToGdt_decodes_kernel : ∃ m',
    gdtStructuredToGdt 0x10000 (kernelSegments 0x20000) (fun _ => 0) = some m' ∧
    ∀ i, i < (kernelSegments 0x20000).length →
      (kernelSegments 0x20000)[i]? = some (descriptorAt m' (0x10000 + sizeofGdt * i)) :=
  gdtStructuredToGdt_decodes 0x10000 (kernelSegments 0x20000) (fun _ => 0) (kernelSegments_accepted 0x20000)

end BimbleOS
