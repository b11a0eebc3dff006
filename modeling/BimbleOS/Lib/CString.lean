import BimbleOS.Lib.Bytes
import BimbleOS.Lib.Window
import Mathlib.Logic.Function.Basic

/-!
# `Lib.CString` — strings in memory

A C string lies at an address and ends at its first zero. `HoldsString m a s` says that it is `s`;
`stringAt m a n` reads it, but no more than `n` characters of it. `strncpy` copies one string to another place,
byte by byte; where the two places are apart it leaves there what was read (`strncpy_apart`).
-/

namespace Bytes

open Window

/-- The memory at `a` holds the string `s`, and a zero behind it. -/
def HoldsString (m : Mem) : Nat → List (BitVec 8) → Prop
  | a, [] => m a = 0
  | a, c :: s => m a = c ∧ c ≠ 0 ∧ HoldsString m (a + 1) s

/-- The string at `a`, up to its first `n` characters. -/
def stringAt (m : Mem) (a n : Nat) : List (BitVec 8) := (window m a n).takeWhile fun c => c ≠ 0

/-- The bytes that `strncpy` writes: up to the first zero or `count - 1` of them, and a zero. -/
def strncpyBytes (src : List (BitVec 8)) (count : Nat) : List (BitVec 8) :=
  (src.take (count - 1)).takeWhile (fun c => c ≠ 0) ++ [0]

/-- The loop of `strncpy`, with `left` characters to go. It ends at the first zero, and writes one. -/
def strncpyLoop (dest src : Nat) : Nat → Nat → Mem → Mem
  | 0, i, m => Function.update m (dest + i) 0
  | left + 1, i, m =>
      if m (src + i) = 0 then Function.update m (dest + i) 0
      else strncpyLoop dest src left (i + 1) (Function.update m (dest + i) (m (src + i)))

/-- `strncpy`. -/
def strncpy (m : Mem) (dest src count : Nat) : Mem := strncpyLoop dest src (count - 1) 0 m

section Strings

variable {m m' : Mem} {a n : Nat} {s : List (BitVec 8)}

theorem HoldsString.congr (h : HoldsString m a s) (hm : ∀ b, a ≤ b → m' b = m b) : HoldsString m' a s := by
  induction s generalizing a with
  | nil => exact (hm a (Nat.le_refl a)).trans h
  | cons c s ih =>
      obtain ⟨hc, hne, hrest⟩ := h
      exact ⟨(hm a (Nat.le_refl a)).trans hc, hne, ih hrest fun b hb => hm b (by omega)⟩

/-- The bytes of the string and its end are all that counts. -/
theorem HoldsString.congr_within (h : HoldsString m a s) (hm : ∀ b, a ≤ b → b ≤ a + s.length → m' b = m b) :
    HoldsString m' a s := by
  induction s generalizing a with
  | nil => exact (hm a (Nat.le_refl a) (Nat.le_refl a)).trans h
  | cons c s ih =>
      obtain ⟨hc, hne, hrest⟩ := h
      rw [List.length_cons] at hm
      exact ⟨(hm a (Nat.le_refl a) (by omega)).trans hc, hne, ih hrest fun b hlo hhi => hm b (by omega) (by omega)⟩

/-- A dword beside the string is stored. -/
theorem HoldsString.store32 {b : Nat} {v : BitVec 32} (h : HoldsString m a s)
    (hapart : ∀ c, a ≤ c → c ≤ a + s.length → c < b ∨ b + 4 ≤ c) : HoldsString (store32 m b v) a s :=
  h.congr_within fun c hlo hhi => store32_of_outside (hapart c hlo hhi)

theorem stringAt_congr {b : Nat} (h : ∀ i, i < n → m' (a + i) = m (b + i)) : stringAt m' a n = stringAt m b n := by
  unfold stringAt
  rw [window_inj.mpr h]

theorem length_stringAt : (stringAt m a n).length ≤ n := by
  have hle := List.IsPrefix.length_le (List.takeWhile_prefix (l := window m a n) fun c : BitVec 8 => decide (c ≠ 0))
  rwa [length_window] at hle

theorem stringAt_nil (h : m a = 0) : stringAt m a n = [] := by
  cases n with
  | zero => rfl
  | succ n =>
      unfold stringAt
      rw [window_succ]
      simp [h]

theorem stringAt_cons (h : m a ≠ 0) : stringAt m a (n + 1) = m a :: stringAt m (a + 1) n := by
  unfold stringAt
  rw [window_succ, List.takeWhile_cons_of_pos (by simpa using h)]

/-- The characters of the string and its end are all that is read. -/
theorem stringAt_congr_within (h : ∀ j, j < n → j ≤ (stringAt m a n).length → m' (a + j) = m (a + j)) :
    stringAt m' a n = stringAt m a n := by
  induction n generalizing a with
  | zero => rfl
  | succ n ih =>
      have hfirst : m' a = m a := h 0 (Nat.succ_pos n) (Nat.zero_le _)
      by_cases hzero : m a = 0
      · rw [stringAt_nil hzero, stringAt_nil (hfirst.trans hzero)]
      · rw [stringAt_cons hzero] at h
        rw [stringAt_cons hzero, stringAt_cons (hfirst ▸ hzero), hfirst, ih]
        intro j hj hlen
        have hnext := h (j + 1) (by omega) (by rw [List.length_cons]; omega)
        rwa [Nat.add_assoc, Nat.add_comm 1 j]

/-- A string that ends within `n` characters is read as a whole. -/
theorem stringAt_of_short {n' : Nat} (h : (stringAt m a n).length < n) (hle : n ≤ n') :
    stringAt m a n' = stringAt m a n := by
  obtain ⟨d, rfl⟩ := Nat.exists_eq_add_of_le hle
  unfold stringAt at *
  rw [window_add, List.takeWhile_append, if_neg]
  rw [length_window]
  exact Nat.ne_of_lt h

/-- Fewer characters are a prefix of more. -/
theorem stringAt_start {k : Nat} (hle : k ≤ n) : stringAt m a k <+: stringAt m a n := by
  obtain ⟨d, rfl⟩ := Nat.exists_eq_add_of_le hle
  unfold stringAt
  rw [window_add, List.takeWhile_append]
  split
  · rename_i hall
    rw [(List.takeWhile_prefix _).eq_of_length hall]
    exact List.prefix_append _ _
  · exact List.prefix_rfl

/-- In front of a zero there is a string. -/
theorem exists_holdsString {b : Nat} (hle : a ≤ b) (hzero : m b = 0) : ∃ s, HoldsString m a s ∧ a + s.length ≤ b := by
  obtain ⟨d, rfl⟩ := Nat.exists_eq_add_of_le hle
  induction d generalizing a with
  | zero => exact ⟨[], hzero, hle⟩
  | succ d ih =>
      by_cases hfirst : m a = 0
      · exact ⟨[], hfirst, hle⟩
      · obtain ⟨s, hs, hlen⟩ := @ih (a + 1) (Nat.le_add_right _ _) (by rwa [Nat.add_right_comm])
        refine ⟨m a :: s, ⟨rfl, hfirst, hs⟩, ?_⟩
        rw [List.length_cons]
        omega

/-- There is one string at an address. -/
theorem HoldsString.unique {s' : List (BitVec 8)} (h : HoldsString m a s) (h' : HoldsString m a s') : s = s' := by
  induction s generalizing a s' with
  | nil =>
      cases s' with
      | nil => rfl
      | cons c s' => exact absurd (h'.1.symm.trans h) h'.2.1
  | cons c s ih =>
      obtain ⟨hc, hne, hrest⟩ := h
      cases s' with
      | nil => exact absurd (hc.symm.trans h') hne
      | cons c' s' =>
          rw [ih hrest h'.2.2, ← hc, ← h'.1]

/-- The bytes of a string, the last of which is its zero. -/
theorem holdsString_iff : HoldsString m a s ↔ (∀ c ∈ s, c ≠ 0) ∧ ∀ i, i ≤ s.length → m (a + i) = s.getD i 0 := by
  induction s generalizing a with
  | nil =>
      constructor
      · intro h
        refine ⟨fun c hc => absurd hc List.not_mem_nil, fun i hi => ?_⟩
        obtain rfl := Nat.le_zero.mp hi
        exact h
      · exact fun h => h.2 0 (Nat.le_refl 0)
  | cons c s ih =>
      constructor
      · rintro ⟨hc, hne, hrest⟩
        obtain ⟨hall, hbytes⟩ := ih.mp hrest
        refine ⟨List.forall_mem_cons.mpr ⟨hne, hall⟩, fun i hi => ?_⟩
        cases i with
        | zero => exact hc
        | succ i =>
            have hbyte := hbytes i (Nat.le_of_succ_le_succ hi)
            rwa [Nat.add_assoc, Nat.add_comm 1 i] at hbyte
      · rintro ⟨hall, hbytes⟩
        obtain ⟨hne, hall'⟩ := List.forall_mem_cons.mp hall
        refine ⟨hbytes 0 (Nat.zero_le _), hne, ih.mpr ⟨hall', fun i hi => ?_⟩⟩
        have hbyte := hbytes (i + 1) (Nat.succ_le_succ hi)
        rwa [← Nat.add_assoc, Nat.add_right_comm] at hbyte

/-- A string ends at the first zero. -/
theorem HoldsString.length_le (h : HoldsString m a s) (hzero : m (a + n) = 0) : s.length ≤ n := by
  induction s generalizing a n with
  | nil => exact Nat.zero_le n
  | cons c s ih =>
      obtain ⟨hc, hne, hrest⟩ := h
      cases n with
      | zero => exact absurd (hc.symm.trans hzero) hne
      | succ n => exact Nat.succ_le_succ (ih hrest (by rwa [Nat.add_assoc, Nat.add_comm 1 n]))

/-- The array at `argv` points to the strings. -/
def HoldsStrings (m : Mem) : Nat → List (List (BitVec 8)) → Prop
  | _, [] => True
  | argv, s :: ss => HoldsString m (load32 m argv).toNat s ∧ HoldsStrings m (argv + 4) ss

/-- An array points to one list of strings of a given length. -/
theorem HoldsStrings.unique {argv : Nat} {ss ss' : List (List (BitVec 8))} (h : HoldsStrings m argv ss)
    (h' : HoldsStrings m argv ss') (hlen : ss.length = ss'.length) : ss = ss' := by
  induction ss generalizing argv ss' with
  | nil => exact (List.length_eq_zero_iff.mp hlen.symm).symm
  | cons s ss ih =>
      cases ss' with
      | nil => cases hlen
      | cons s' ss' => rw [h.1.unique h'.1, ih h.2 h'.2 (Nat.succ.inj hlen)]

/-- The bytes of an array of strings: its pointers, and the strings with their zeros. -/
def StringsByte (m : Mem) : Nat → List (List (BitVec 8)) → Nat → Prop
  | _, [], _ => False
  | argv, s :: ss, a => (argv ≤ a ∧ a < argv + 4) ∨
      ((load32 m argv).toNat ≤ a ∧ a ≤ (load32 m argv).toNat + s.length) ∨ StringsByte m (argv + 4) ss a

theorem HoldsStrings.congr {argv : Nat} {ss : List (List (BitVec 8))} (h : HoldsStrings m argv ss)
    (hm : ∀ a, StringsByte m argv ss a → m' a = m a) : HoldsStrings m' argv ss := by
  induction ss generalizing argv with
  | nil => exact True.intro
  | cons s ss ih =>
      obtain ⟨hstring, hrest⟩ := h
      have hpointer : load32 m' argv = load32 m argv :=
        load32_congr fun i hi => hm _ (Or.inl ⟨by omega, by omega⟩)
      refine ⟨?_, ih hrest fun a ha => hm a (Or.inr (Or.inr ha))⟩
      rw [hpointer]
      exact hstring.congr_within fun a hlo hhi => hm a (Or.inr (Or.inl ⟨hlo, hhi⟩))

/-- Reading a string that is there. -/
theorem HoldsString.stringAt (h : HoldsString m a s) : stringAt m a n = s.take n := by
  induction n generalizing a s with
  | zero => rfl
  | succ n ih =>
      unfold Bytes.stringAt
      rw [window_succ]
      cases s with
      | nil =>
          have hzero : m a = 0 := h
          simp [hzero]
      | cons c s =>
          obtain ⟨hc, hne, hrest⟩ := h
          rw [hc, List.takeWhile_cons_of_pos (by simpa using hne), List.take_succ_cons]
          exact congrArg (c :: ·) (ih hrest)

/-- A string that was just written. -/
theorem HoldsString.store (hs : ∀ c ∈ s, c ≠ 0) : HoldsString (storeBytes m a (s ++ [0])) a s := by
  have hread : ∀ (t : List (BitVec 8)) (pre : List (BitVec 8)), pre ++ t = s →
      HoldsString (storeBytes m a (s ++ [0])) (a + pre.length) t := by
    intro t
    induction t with
    | nil =>
        intro pre hpre
        rw [List.append_nil] at hpre
        show storeBytes m a (s ++ [0]) (a + pre.length) = 0
        unfold storeBytes
        rw [if_pos (by rw [List.length_append, hpre]; simp), hpre, Nat.add_sub_cancel_left]
        simp
    | cons c t ih =>
        intro pre hpre
        have hmem : c ∈ s := hpre ▸ List.mem_append_right _ List.mem_cons_self
        have hnext := ih (pre ++ [c]) (by rw [List.append_assoc]; exact hpre)
        rw [List.length_append] at hnext
        refine ⟨?_, hs c hmem, hnext⟩
        unfold storeBytes
        have hinside : a ≤ a + pre.length ∧ a + pre.length < a + (s ++ [0]).length := by
          rw [← hpre]
          simp only [List.length_append, List.length_cons, List.length_nil]
          omega
        rw [if_pos hinside, Nat.add_sub_cancel_left, ← hpre]
        simp
  exact hread s [] rfl

/-- A string that fits is copied as it is. -/
theorem strncpyBytes_short {count : Nat} (hs : ∀ c ∈ s, c ≠ 0) (hlen : s.length < count) :
    strncpyBytes s count = s ++ [0] := by
  unfold strncpyBytes
  rw [List.take_of_length_le (by omega), ← List.append_nil s, List.takeWhile_append_of_pos]
  · simp
  · simpa using hs

/-! ## Copying -/

variable {dest src left i count : Nat}

/-- The loop copies what is left of the string. The induction is on the characters to go; what was written so far
    is beside the source. -/
theorem strncpyLoop_apart (h : ∀ j, i ≤ j → j < i + left → src + j < dest + i ∨ dest + i + left < src + j) :
    HoldsString (strncpyLoop dest src left i m) (dest + i) (stringAt m (src + i) left) ∧
      ∀ b, b < dest + i ∨ dest + i + left < b → strncpyLoop dest src left i m b = m b := by
  induction left generalizing i m with
  | zero => exact ⟨Function.update_self .., fun b hb => Function.update_of_ne (by omega) ..⟩
  | succ left ih =>
      unfold strncpyLoop stringAt
      rw [window_succ]
      by_cases hzero : m (src + i) = 0
      · rw [if_pos hzero, hzero]
        exact ⟨Function.update_self .., fun b hb => Function.update_of_ne (by omega) ..⟩
      rw [if_neg hzero, List.takeWhile_cons_of_pos (by simpa using hzero)]
      have hnext : ∀ j, i + 1 ≤ j → j < i + 1 + left → src + j < dest + (i + 1) ∨ dest + (i + 1) + left < src + j := by
        intro j hlo hhi
        have hj := h j (by omega) (by omega)
        omega
      obtain ⟨hstring, hframe⟩ := @ih (Function.update m (dest + i) (m (src + i))) (i + 1) hnext
      have hsource : stringAt (Function.update m (dest + i) (m (src + i))) (src + (i + 1)) left
          = stringAt m (src + (i + 1)) left := by
        refine stringAt_congr fun j hj => Function.update_of_ne ?_ ..
        have hapart := h (i + 1 + j) (by omega) (by omega)
        omega
      rw [hsource] at hstring
      refine ⟨⟨?_, hzero, hstring⟩, fun b hb => ?_⟩
      · rw [hframe (dest + i) (by omega)]
        exact Function.update_self ..
      · rw [hframe b (by omega)]
        exact Function.update_of_ne (by omega) ..

/-- **Copying a string** to a place apart from it. -/
theorem strncpy_apart (hcount : 0 < count) (h : dest + count ≤ src ∨ src + count ≤ dest) :
    HoldsString (strncpy m dest src count) dest (stringAt m src (count - 1)) ∧
      ∀ b, b < dest ∨ dest + count ≤ b → strncpy m dest src count b = m b := by
  obtain ⟨hstring, hframe⟩ := @strncpyLoop_apart m dest src (count - 1) 0 (fun j _ hj => by omega)
  exact ⟨hstring, fun b hb => hframe b (by omega)⟩

/-- The loop where only the string itself is known to be apart from the place it is copied to. -/
theorem strncpyLoop_string (h : HoldsString m (src + i) s)
    (hapart : dest + i + left < src + i ∨ src + i + s.length < dest + i) :
    HoldsString (strncpyLoop dest src left i m) (dest + i) (s.take left) ∧
      ∀ b, b < dest + i ∨ dest + i + left < b → strncpyLoop dest src left i m b = m b := by
  induction left generalizing i m s with
  | zero => exact ⟨Function.update_self .., fun b hb => Function.update_of_ne (by omega) ..⟩
  | succ left ih =>
      unfold strncpyLoop
      cases s with
      | nil =>
          have hzero : m (src + i) = 0 := h
          rw [if_pos hzero]
          exact ⟨Function.update_self .., fun b hb => Function.update_of_ne (by omega) ..⟩
      | cons c s =>
          obtain ⟨hc, hne, hrest⟩ := h
          rw [List.length_cons] at hapart
          have hnext : HoldsString (Function.update m (dest + i) (m (src + i))) (src + (i + 1)) s :=
            hrest.congr_within fun b hlo hhi => Function.update_of_ne (by omega) ..
          obtain ⟨hstring, hframe⟩ := ih hnext (by omega)
          rw [if_neg (hc ▸ hne), List.take_succ_cons]
          refine ⟨⟨?_, hne, hstring⟩, fun b hb => ?_⟩
          · rw [hframe (dest + i) (by omega), Function.update_self]
            exact hc
          · rw [hframe b (by omega)]
            exact Function.update_of_ne (by omega) ..

/-- **Copying a string** that ends in front of the place it is copied to, or lies behind it. -/
theorem strncpy_string (hcount : 0 < count) (h : HoldsString m src s)
    (hapart : dest + count ≤ src ∨ src + s.length < dest) :
    HoldsString (strncpy m dest src count) dest (s.take (count - 1)) ∧
      ∀ b, b < dest ∨ dest + count ≤ b → strncpy m dest src count b = m b := by
  obtain ⟨hstring, hframe⟩ := @strncpyLoop_string m s dest src (count - 1) 0 h (by omega)
  exact ⟨hstring, fun b hb => hframe b (by omega)⟩

end Strings

end Bytes
