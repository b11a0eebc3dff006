import BimbleOS.Stdlib.Strtok
import Mathlib.Data.List.GetD

/-!
# `Stdlib.StrtokRuns` — a string from the first call of `strtok` to the last

A program calls `strtok` with a string and then with null until it returns null. For every set of delimiters these
calls return the maximal pieces of the string without a delimiter, from left to right and each with a zero behind it,
and no access goes beyond the string's own zero (`strtokAll_tokens`). The invariant of the calls speaks of one position
in the string: from there on memory still holds it, and the pieces that start there are still to come.
-/

namespace BimbleOS.Stdlib

open Bytes

/-- A call for `str`, and calls for null until one returns null: each token with the memory it is returned in, and the
    memory and `sp` in the end. -/
def strtokAll (deliminators : List (BitVec 8)) : Nat → Nat → Access → Nat → Option (List (Nat × Mem) × Access × Nat)
  | 0, _, _, _ => none
  | calls + 1, str, w, sp =>
      (strtokOn str deliminators w sp).bind fun (token, w, sp) =>
        if token = 0 then some ([], w, sp)
        else (strtokAll deliminators calls 0 w sp).map fun (tokens, last) => ((token, w.memory) :: tokens, last)

/-! ## The pieces of a string -/

/-- The `n` characters from position `o` on are a maximal piece without a delimiter. -/
structure Piece (d s : List (BitVec 8)) (o n : Nat) : Prop where
  pos : 0 < n
  inside : o + n ≤ s.length
  free : ∀ i, o ≤ i → i < o + n → s.getD i 0 ∉ d
  left : o = 0 ∨ s.getD (o - 1) 0 ∈ d
  right : o + n = s.length ∨ s.getD (o + n) 0 ∈ d

/-- From position `k` on, the memory at `p` holds the string. -/
def HoldsFrom (m : Mem) (p : Nat) (s : List (BitVec 8)) (k : Nat) : Prop :=
  ∀ i, k ≤ i → i ≤ s.length → m (p + i) = s.getD i 0

/-- A position where a piece may start: the string's first one, or behind a delimiter, or at its end. -/
def Fresh (d s : List (BitVec 8)) (k : Nat) : Prop := k = 0 ∨ s.getD (k - 1) 0 ∈ d ∨ k = s.length

section Loops

variable {d s : List (BitVec 8)} {w : Access} {p k fuel : Nat}

theorem getD_of_length_le (h : s.length ≤ k) : s.getD k 0 = 0 := List.getD_eq_default _ _ h

/-- The first loop stops at the next character that is no delimiter, or at the zero. -/
theorem strtokSkipOn_spec (hd : (0 : BitVec 8) ∉ d) (hs : HoldsFrom w.memory p s k) (hk : k ≤ s.length)
    (hfuel : s.length - k < fuel) (hw : w.Within p (p + s.length)) :
    ∃ j w', strtokSkipOn d fuel (p + k) w = some (p + j, w') ∧ w'.memory = w.memory ∧ w'.Within p (p + s.length) ∧
      k ≤ j ∧ j ≤ s.length ∧ (∀ i, k ≤ i → i < j → s.getD i 0 ∈ d) ∧ s.getD j 0 ∉ d := by
  induction fuel generalizing k w with
  | zero => exact absurd hfuel (Nat.not_lt_zero _)
  | succ fuel ih =>
      have hbyte := hs k (Nat.le_refl k) hk
      have hw' := hw.touch (show p ≤ p + k by omega) (show p + k ≤ p + s.length by omega)
      unfold strtokSkipOn
      rw [hbyte]
      by_cases hmem : s.getD k 0 ∈ d
      · have hlt : k < s.length := by
          by_contra hge
          rw [getD_of_length_le (by omega)] at hmem
          exact hd hmem
        rw [if_pos hmem]
        obtain ⟨j, w', hrun, hmemory, hwithin, hle, hj, hall, hstop⟩ :=
          @ih (w.touch (p + k)) (k + 1) (fun i hi => hs i (by omega)) hlt (by omega) hw'
        refine ⟨j, w', hrun, hmemory, hwithin, by omega, hj, fun i hlo hhi => ?_, hstop⟩
        rcases Nat.eq_or_lt_of_le hlo with rfl | hlt
        · exact hmem
        · exact hall i hlt hhi
      · rw [if_neg hmem]
        exact ⟨k, _, rfl, rfl, hw', Nat.le_refl k, hk, fun i hlo hhi => by omega, hmem⟩

/-- The second loop stops at the next delimiter, which it overwrites, or at the zero. -/
theorem strtokEndOn_spec (hs : HoldsFrom w.memory p s k) (hne : ∀ c ∈ s, c ≠ 0) (hk : k ≤ s.length)
    (hfuel : s.length - k < fuel) (hw : w.Within p (p + s.length)) :
    ∃ e k' w', strtokEndOn d fuel (p + k) w = some (p + k', w') ∧ w'.Within p (p + s.length) ∧ k ≤ e ∧
      (∀ i, k ≤ i → i < e → s.getD i 0 ∉ d) ∧ (∀ a, a ≠ p + e → w'.memory a = w.memory a) ∧ w'.memory (p + e) = 0 ∧
      ((e = s.length ∧ k' = e) ∨ (e < s.length ∧ s.getD e 0 ∈ d ∧ k' = e + 1)) := by
  induction fuel generalizing k w with
  | zero => exact absurd hfuel (Nat.not_lt_zero _)
  | succ fuel ih =>
      have hbyte := hs k (Nat.le_refl k) hk
      have hw' := hw.touch (show p ≤ p + k by omega) (show p + k ≤ p + s.length by omega)
      unfold strtokEndOn
      rcases Nat.eq_or_lt_of_le hk with rfl | hlt
      · -- the end of the string
        rw [getD_of_length_le (Nat.le_refl _)] at hbyte
        rw [if_pos hbyte]
        exact ⟨s.length, s.length, _, rfl, hw', Nat.le_refl _, fun i hlo hhi => by omega, fun a _ => rfl, hbyte,
          Or.inl ⟨rfl, rfl⟩⟩
      have hchar : s.getD k 0 ≠ 0 := by
        rw [List.getD_eq_getElem _ _ hlt]
        exact hne _ (List.getElem_mem hlt)
      rw [hbyte, if_neg hchar]
      by_cases hmem : s.getD k 0 ∈ d
      · rw [if_pos hmem]
        refine ⟨k, k + 1, _, rfl, hw'.store (by omega) (by omega), Nat.le_refl k, fun i hlo hhi => by omega,
          fun a ha => ?_, ?_, Or.inr ⟨hlt, hmem, rfl⟩⟩
        · exact Function.update_of_ne ha ..
        · exact Function.update_self ..
      · rw [if_neg hmem]
        obtain ⟨e, k', w', hrun, hwithin, hle, hall, hframe, hzero, hstop⟩ :=
          @ih (w.touch (p + k)) (k + 1) (fun i hi => hs i (by omega)) hlt (by omega) hw'
        refine ⟨e, k', w', hrun, hwithin, by omega, fun i hlo hhi => ?_, hframe, hzero, hstop⟩
        rcases Nat.eq_or_lt_of_le hlo with rfl | hlt
        · exact hmem
        · exact hall i hlt hhi

end Loops

/-! ## The calls -/

/-- A call from position `k` on has returned the piece at `j`, and goes on from `k'`. -/
structure Returned (d s : List (BitVec 8)) (p k j n k' : Nat) (m m' : Mem) : Prop where
  piece : Piece d s j n
  start : k ≤ j
  next : j + n ≤ k' ∧ k' ≤ s.length
  cut : j + n < k' ∨ j + n = s.length
  fresh : Fresh d s k'
  first : ∀ o n', Piece d s o n' → k ≤ o → o = j ∨ k' ≤ o
  ended : m' (p + (j + n)) = 0
  frame : ∀ a, a ≠ p + (j + n) → m' a = m a
  behind : ∀ i, k' ≤ i → i ≤ s.length → m' (p + i) = m (p + i)

section Calls

variable {d s : List (BitVec 8)} {w w' : Access} {m m' : Mem} {p k j n k' str sp : Nat}

theorem Piece.unique {o n' : Nat} (h : Piece d s o n) (h' : Piece d s o n') : n = n' := by
  have hpos := h.pos
  have hpos' := h'.pos
  have hinside := h.inside
  have hinside' := h'.inside
  rcases Nat.lt_trichotomy n n' with hlt | heq | hgt
  · rcases h.right with hend | hdelim
    · omega
    · exact absurd hdelim (h'.free (o + n) (by omega) (by omega))
  · exact heq
  · rcases h'.right with hend | hdelim
    · omega
    · exact absurd hdelim (h.free (o + n') (by omega) (by omega))

/-- What is left of the string, once the delimiters in front of it are skipped. -/
theorem Piece.skip {o : Nat} (h : Piece d s o n) (hk : k ≤ o) (hall : ∀ i, k ≤ i → i < j → s.getD i 0 ∈ d) : j ≤ o := by
  by_contra hlt
  exact h.free o (Nat.le_refl o) (Nat.lt_add_of_pos_right h.pos) (hall o hk (by omega))

/-- **One call**: it returns the first piece from position `k` on, or null when there is none. -/
theorem strtokOn_spec (hd : (0 : BitVec 8) ∉ d) (hne : ∀ c ∈ s, c ≠ 0) (hp : p ≠ 0) (hend : p + s.length < addressSpace)
    (hplace : (str = p + k ∧ sp = 0) ∨ sp = p + k) (hs : HoldsFrom w.memory p s k) (hk : k ≤ s.length)
    (hfresh : Fresh d s k) (hw : w.Within p (p + s.length)) :
    (∃ w', strtokOn str d w sp = some (0, w', 0) ∧ w'.memory = w.memory ∧ w'.Within p (p + s.length) ∧
        ∀ o n, Piece d s o n → o < k) ∨
      ∃ j n k' w', strtokOn str d w sp = some (p + j, w', p + k') ∧ w'.Within p (p + s.length) ∧
        Returned d s p k j n k' w.memory w'.memory := by
  have hcall : ¬ (str = 0 ∧ sp = 0) := by omega
  have hstart : (if str ≠ 0 ∧ sp = 0 then str else sp) = p + k := by
    split
    · omega
    · omega
  have hfuel : ∀ i, s.length - i < addressSpace := fun i => by omega
  obtain ⟨j, w₁, hskip, hmem₁, hw₁, hle, hj, hdelims, hstop⟩ := strtokSkipOn_spec hd hs hk (hfuel k) hw
  have hs₁ : HoldsFrom (w₁.touch (p + j)).memory p s j := by
    intro i hlo hhi
    show w₁.memory (p + i) = _
    rw [hmem₁]
    exact hs i (by omega) hhi
  have hw₂ := hw₁.touch (show p ≤ p + j by omega) (show p + j ≤ p + s.length by omega)
  have hbyte : w₁.memory (p + j) = s.getD j 0 := hs₁ j (Nat.le_refl j) hj
  unfold strtokOn
  rw [if_neg hcall]
  simp only [hstart, hskip, Option.bind_some]
  rcases Nat.eq_or_lt_of_le hj with rfl | hlt
  · -- only delimiters were left
    rw [if_pos (hbyte.trans (getD_of_length_le (Nat.le_refl _)))]
    refine Or.inl ⟨_, rfl, hmem₁, hw₂, fun o n hpiece => ?_⟩
    by_contra hge
    have hpast := hpiece.skip (by omega) hdelims
    have hinside := hpiece.inside
    have hpos := hpiece.pos
    omega
  · have hchar : w₁.memory (p + j) ≠ 0 := by
      rw [hbyte, List.getD_eq_getElem _ _ hlt]
      exact hne _ (List.getElem_mem hlt)
    rw [if_neg hchar]
    obtain ⟨e, k', w', hrun, hw', hje, hfree, hframe, hzero, hcut⟩ := strtokEndOn_spec hs₁ hne hj (hfuel j) hw₂
    have hlong : j < e := by
      by_contra hge
      obtain rfl : e = j := by omega
      rcases hcut with ⟨hend', _⟩ | ⟨_, hdelim, _⟩
      · omega
      · exact hstop hdelim
    have hlast : j + (e - j) = e := by omega
    have hinside : e ≤ s.length := by omega
    have hpiece : Piece d s j (e - j) := by
      refine ⟨by omega, by omega, fun i hlo hhi => hfree i hlo (by omega), ?_, ?_⟩
      · rcases Nat.eq_or_lt_of_le hle with rfl | hskipped
        · rcases hfresh with hzero' | hdelim | hend'
          · exact Or.inl hzero'
          · exact Or.inr hdelim
          · omega
        · exact Or.inr (hdelims (j - 1) (by omega) (by omega))
      · rw [hlast]
        exact hcut.imp (fun h => h.1) fun h => h.2.1
    refine Or.inr ⟨j, e - j, k', w', ?_, hw', ?_⟩
    · rw [hrun]
      rfl
    have hkept : ∀ a, a ≠ p + e → w'.memory a = w.memory a := by
      intro a ha
      rw [hframe a ha]
      exact congrFun hmem₁ a
    refine ⟨hpiece, hle, by omega, by omega, ?_, fun o n' hother hko => ?_, by rwa [hlast], by rwa [hlast], ?_⟩
    · rcases hcut with ⟨hend', rfl⟩ | ⟨_, hdelim, rfl⟩
      · exact Or.inr (Or.inr hend')
      · exact Or.inr (Or.inl hdelim)
    · -- another piece starts behind a delimiter, and there is none before `e`
      have hpast := hother.skip hko hdelims
      have hpos := hother.pos
      have hinside' := hother.inside
      rcases Nat.eq_or_lt_of_le hpast with rfl | hbehind
      · exact Or.inl rfl
      · refine Or.inr ?_
        rcases hother.left with hzero' | hdelim
        · omega
        · have hout : ¬ o - 1 < e := fun hin => hfree (o - 1) (by omega) hin hdelim
          omega
    · intro i hlo hhi
      by_cases hi : i = e
      · -- the string's own zero
        obtain rfl : e = s.length := by omega
        rw [hi, hzero, hs s.length hk (Nat.le_refl _), getD_of_length_le (Nat.le_refl _)]
      · exact hkept _ (by omega)

/-- What a call leaves alone. -/
theorem Returned.outside (h : Returned d s p k j n k' m m') {a : Nat} (ha : a < p + k ∨ p + s.length ≤ a) :
    m' a = m a := by
  have hstart := h.start
  have hinside := h.piece.inside
  by_cases hlast : a = p + s.length
  · rw [hlast]
    exact h.behind s.length h.next.2 (Nat.le_refl _)
  · refine h.frame a ?_
    omega

/-- The piece that was returned is a string of its own. -/
theorem Returned.holds (h : Returned d s p k j n k' m m') (hs : HoldsFrom m p s k) (hne : ∀ c ∈ s, c ≠ 0) :
    HoldsString m' (p + j) ((s.drop j).take n) := by
  have hinside := h.piece.inside
  have hstart := h.start
  have hlen : ((s.drop j).take n).length = n := by
    rw [List.length_take, List.length_drop]
    omega
  refine holdsString_iff.mpr ⟨fun c hc => hne c (List.mem_of_mem_drop (List.mem_of_mem_take hc)), fun i hi => ?_⟩
  rw [hlen] at hi
  rw [Nat.add_assoc]
  rcases Nat.eq_or_lt_of_le hi with rfl | hlt
  · rw [h.ended, List.getD_eq_default _ _ (Nat.le_of_eq hlen)]
  · rw [h.frame _ (by omega), hs (j + i) (by omega) (by omega)]
    simp only [List.getD_eq_getElem?_getD, List.getElem?_take, List.getElem?_drop, if_pos hlt]

/-- The tokens that calls from position `k` on return, and the memory they leave. -/
structure TokensFrom (d s : List (BitVec 8)) (p k : Nat) (tokens : List (Nat × Mem)) (last : Mem) : Prop where
  ordered : tokens.Pairwise fun t u => t.1 < u.1
  exact : ∀ q, (∃ m, (q, m) ∈ tokens) ↔ ∃ o n, k ≤ o ∧ Piece d s o n ∧ q = p + o
  ended : ∀ t ∈ tokens, ∀ o n, Piece d s o n → t.1 = p + o →
    HoldsString t.2 t.1 ((s.drop o).take n) ∧ HoldsString last t.1 ((s.drop o).take n)

/-- There is no piece any more. -/
theorem TokensFrom.nil (h : ∀ o n, Piece d s o n → o < k) : TokensFrom d s p k [] m where
  ordered := List.Pairwise.nil
  exact := by
    intro q
    constructor
    · rintro ⟨_, hmem⟩
      exact absurd hmem List.not_mem_nil
    · rintro ⟨o, n, hk, hpiece, _⟩
      have hlt := h o n hpiece
      omega
  ended := fun t ht => absurd ht List.not_mem_nil

/-- One more token in front. -/
theorem Returned.cons {tokens : List (Nat × Mem)} {last : Mem} (h : Returned d s p k j n k' m m')
    (hs : HoldsFrom m p s k) (hne : ∀ c ∈ s, c ≠ 0) (hrest : TokensFrom d s p k' tokens last)
    (hlast : ∀ a, a < p + k' ∨ p + s.length ≤ a → last a = m' a) :
    TokensFrom d s p k ((p + j, m') :: tokens) last where
  ordered := by
    refine List.pairwise_cons.mpr ⟨fun t ht => ?_, hrest.ordered⟩
    obtain ⟨o, n', hk', _, heq⟩ := (hrest.exact t.1).mp ⟨t.2, ht⟩
    have hnext := h.next.1
    have hpos := h.piece.pos
    show p + j < t.1
    omega
  exact := by
    intro q
    constructor
    · rintro ⟨m₁, hmem⟩
      rcases List.mem_cons.mp hmem with heq | htail
      · exact ⟨j, n, h.start, h.piece, (Prod.mk.inj heq).1⟩
      · obtain ⟨o, n', hk', hpiece, heq⟩ := (hrest.exact q).mp ⟨m₁, htail⟩
        have hnext := h.next.1
        have hstart := h.start
        exact ⟨o, n', by omega, hpiece, heq⟩
    · rintro ⟨o, n', hk, hpiece, rfl⟩
      rcases h.first o n' hpiece hk with rfl | hbehind
      · exact ⟨m', List.mem_cons_self⟩
      · obtain ⟨m₁, htail⟩ := (hrest.exact (p + o)).mpr ⟨o, n', hbehind, hpiece, rfl⟩
        exact ⟨m₁, List.mem_cons_of_mem _ htail⟩
  ended := by
    intro t ht o n' hpiece heq
    rcases List.mem_cons.mp ht with rfl | htail
    · obtain rfl : j = o := Nat.add_left_cancel heq
      obtain rfl := h.piece.unique hpiece
      have hholds := h.holds hs hne
      refine ⟨hholds, hholds.congr_within fun b hlo hhi => hlast b ?_⟩
      have hlen : ((s.drop j).take n).length ≤ n := List.length_take_le ..
      have hcut := h.cut
      have hnext := h.next.1
      change p + j ≤ b at hlo
      change b ≤ p + j + _ at hhi
      omega
    · exact hrest.ended t htail o n' hpiece heq

/-- **All calls from position `k` on.** The induction is on the rest of the string. -/
theorem strtokAll_spec (hd : (0 : BitVec 8) ∉ d) (hne : ∀ c ∈ s, c ≠ 0) (hp : p ≠ 0)
    (hend : p + s.length < addressSpace) (hplace : (str = p + k ∧ sp = 0) ∨ (str = 0 ∧ sp = p + k))
    (hs : HoldsFrom w.memory p s k) (hk : k ≤ s.length) (hfresh : Fresh d s k) (hw : w.Within p (p + s.length)) :
    ∃ tokens w', (∀ calls, s.length - k < calls → strtokAll d calls str w sp = some (tokens, w', 0)) ∧
      TokensFrom d s p k tokens w'.memory ∧ w'.Within p (p + s.length) ∧
      ∀ a, a < p + k ∨ p + s.length ≤ a → w'.memory a = w.memory a := by
  induction hleft : s.length - k using Nat.strong_induction_on generalizing k w str sp with
  | _ left ih =>
      have hcalls : ∀ calls, left < calls → ∃ rest, calls = rest + 1 := fun calls hlt => ⟨calls - 1, by omega⟩
      rcases strtokOn_spec hd hne hp hend (hplace.imp id And.right) hs hk hfresh hw with
        ⟨w', hrun, hmem, hw', hnone⟩ | ⟨j, n, k', w₁, hrun, hw₁, hreturned⟩
      · refine ⟨[], w', fun calls hlt => ?_, .nil hnone, hw', fun a _ => congrFun hmem a⟩
        obtain ⟨rest, rfl⟩ := hcalls calls hlt
        unfold strtokAll
        rw [hrun]
        rfl
      · obtain ⟨hnext, hbound⟩ := hreturned.next
        have hstart := hreturned.start
        have hpos := hreturned.piece.pos
        have hs₁ : HoldsFrom w₁.memory p s k' := by
          intro i hlo hhi
          rw [hreturned.behind i hlo hhi]
          exact hs i (by omega) hhi
        obtain ⟨tokens, w', hall, htokens, hw', hframe⟩ :=
          ih (s.length - k') (by omega) (Or.inr ⟨rfl, rfl⟩) hs₁ hbound hreturned.fresh hw₁ rfl
        refine ⟨_, w', fun calls hlt => ?_, hreturned.cons hs hne htokens hframe, hw', fun a ha => ?_⟩
        · obtain ⟨rest, rfl⟩ := hcalls calls hlt
          unfold strtokAll
          rw [hrun, Option.bind_some]
          show (if p + j = 0 then _ else _) = _
          rw [if_neg (by omega), hall rest (by omega)]
          rfl
        · rw [hframe a (by omega), hreturned.outside ha]

end Calls

/-- **A string is cut into its pieces**: however many calls are allowed, if they are enough, they return the maximal
    pieces without a delimiter, in order and each with a zero behind it, and then null with `sp` null again; and they
    go to no address outside the string and its zero. -/
theorem strtokAll_tokens (d s : List (BitVec 8)) (m : Mem) (p : Nat) (hd : (0 : BitVec 8) ∉ d) (hp : p ≠ 0)
    (hs : HoldsString m p s) (hend : p + s.length < addressSpace) :
    ∃ tokens w, (∀ calls, s.length < calls → strtokAll d calls p { memory := m } 0 = some (tokens, w, 0)) ∧
      TokensFrom d s p 0 tokens w.memory ∧ w.Within p (p + s.length) := by
  obtain ⟨hne, hbytes⟩ := holdsString_iff.mp hs
  have hnone : ({ memory := m } : Access).Within p (p + s.length) := fun a ha => absurd ha List.not_mem_nil
  obtain ⟨tokens, w, hall, htokens, hwithin, _⟩ := @strtokAll_spec d s { memory := m } p 0 p 0 hd hne hp hend
    (Or.inl ⟨rfl, rfl⟩) (fun i _ hi => hbytes i hi) (Nat.zero_le _) (Or.inl rfl) hnone
  exact ⟨tokens, w, hall, htokens, hwithin⟩

/-- `" a b"` at 0x1000. -/
theorem strtokAll_tokens_words : ∃ tokens w,
    (∀ calls, [(0x20 : BitVec 8), 0x61, 0x20, 0x62].length < calls → strtokAll [0x20] calls 0x1000
      { memory := storeBytes (fun _ => 0) 0x1000 ([0x20, 0x61, 0x20, 0x62] ++ [0]) } 0 = some (tokens, w, 0)) ∧
    TokensFrom [0x20] [0x20, 0x61, 0x20, 0x62] 0x1000 0 tokens w.memory ∧
    w.Within 0x1000 (0x1000 + [(0x20 : BitVec 8), 0x61, 0x20, 0x62].length) :=
  strtokAll_tokens [0x20] [0x20, 0x61, 0x20, 0x62] _ 0x1000 (by decide) (by decide)
    (HoldsString.store (by decide)) (by decide)

end BimbleOS.Stdlib
