import Mathlib.Data.List.Basic
import Mathlib.Logic.Function.Basic
import Mathlib.Logic.Function.Iterate
import Mathlib.Tactic.Tauto

/-!
# `Lib.Links` — linked lists given by `next` and `prev` functions

A linked structure in memory is a pair of functions on addresses. `Path next null a xs` says that
following `next` from `a` visits exactly `xs` and then reaches `null`; `DLinked` adds the backward
links. The updates are those a queue needs: linking a fresh node behind the last one, and unlinking the last one or
any other. `Ring` is the list as a round, which starts again at its first node.
-/

namespace Links

variable {α : Type} {next next' prev prev' : α → α} {null : α}

/-- Following `next` from `a` visits exactly the nodes of the list and then reaches `null`. -/
def Path (next : α → α) (null : α) : α → List α → Prop
  | a, [] => a = null
  | a, x :: xs => a = x ∧ x ≠ null ∧ Path next null (next x) xs

instance Path.decidable [DecidableEq α] : ∀ (a : α) (xs : List α), Decidable (Path next null a xs)
  | a, [] => inferInstanceAs (Decidable (a = null))
  | a, x :: xs =>
      let _ := Path.decidable (next x) xs
      inferInstanceAs (Decidable (a = x ∧ x ≠ null ∧ Path next null (next x) xs))

/-- Following links that come back to a place they have left stays among the places in front of it. -/
theorem iterate_of_repeat {P : α → Prop} {a : α} {i j : Nat} (hij : i < j) (hsame : next^[i] a = next^[j] a)
    (hbefore : ∀ n, n < j → P (next^[n] a)) (n : Nat) : P (next^[n] a) := by
  induction n using Nat.strongRecOn with
  | _ n ih =>
    by_cases hn : n < j
    · exact hbefore n hn
    · have hback : next^[n] a = next^[n - j + i] a := by
        rw [Function.iterate_add_apply, hsame, ← Function.iterate_add_apply, Nat.sub_add_cancel (Nat.not_lt.mp hn)]
      rw [hback]
      exact ih _ (by omega)

theorem Path.congr {xs : List α} (hxs : ∀ x ∈ xs, next' x = next x) :
    ∀ {a : α}, Path next null a xs → Path next' null a xs := by
  induction xs with
  | nil => intro a h; exact h
  | cons x xs ih =>
      intro a ⟨hax, hne, hrest⟩
      refine ⟨hax, hne, ?_⟩
      rw [hxs x List.mem_cons_self]
      exact ih (fun y hy => hxs y (List.mem_cons_of_mem _ hy)) hrest

/-- There is one path from a node. -/
theorem Path.unique {xs : List α} : ∀ {ys : List α} {a : α}, Path next null a xs → Path next null a ys → xs = ys := by
  induction xs with
  | nil =>
      intro ys a hx hy
      cases ys with
      | nil => rfl
      | cons y ys => exact absurd (hy.1.symm.trans hx) hy.2.1
  | cons x xs ih =>
      intro ys a ⟨hax, hne, hrest⟩ hy
      cases ys with
      | nil => exact absurd (hax.symm.trans hy) hne
      | cons y ys =>
          obtain rfl : x = y := hax.symm.trans hy.1
          rw [ih hrest hy.2.2]

/-- The list at `a` and the one at `b`, each with its own links, hold the same values. -/
inductive SameValues {β γ : Type} (next : α → α) (null : α) (value : α → β) (next' : γ → γ) (null' : γ) (value' : γ → β) :
    α → γ → Prop where
  | nil : SameValues next null value next' null' value' null null'
  | cons {a : α} {b : γ} : a ≠ null → b ≠ null' → value a = value' b →
      SameValues next null value next' null' value' (next a) (next' b) →
      SameValues next null value next' null' value' a b

/-- Where both lists end, these are the values along the two paths. -/
theorem sameValues_iff {β γ : Type} {value : α → β} {link : γ → γ} {end' : γ} {value' : γ → β} {xs : List α}
    {ys : List γ} {a : α} {b : γ} (h : Path next null a xs) (h' : Path link end' b ys) :
    SameValues next null value link end' value' a b ↔ xs.map value = ys.map value' := by
  induction xs generalizing a b ys with
  | nil =>
      obtain rfl : a = null := h
      constructor
      · intro hsame
        cases hsame with
        | nil =>
            cases ys with
            | nil => rfl
            | cons y ys => exact absurd h'.1.symm h'.2.1
        | cons hne => exact absurd rfl hne
      · intro hmap
        obtain rfl : ys = [] := List.map_eq_nil_iff.mp hmap.symm
        obtain rfl : b = end' := h'
        exact .nil
  | cons x xs ih =>
      obtain ⟨rfl, hne, hrest⟩ := h
      constructor
      · intro hsame
        cases hsame with
        | nil => exact absurd rfl hne
        | cons _ hne' hvalue hnext =>
            cases ys with
            | nil => exact absurd h' hne'
            | cons y ys =>
                obtain ⟨rfl, _, hrest'⟩ := h'
                rw [List.map_cons, List.map_cons, hvalue, (ih hrest hrest').mp hnext]
      · intro hmap
        cases ys with
        | nil => cases hmap
        | cons y ys =>
            obtain ⟨rfl, hne', hrest'⟩ := h'
            obtain ⟨hvalue, hmap⟩ := List.cons.inj hmap
            exact .cons hne hne' hvalue ((ih hrest hrest').mpr hmap)

theorem Path.ne_null {xs : List α} : ∀ {a : α}, Path next null a xs → ∀ x ∈ xs, x ≠ null := by
  induction xs with
  | nil => intro a _ x hx; exact absurd hx List.not_mem_nil
  | cons y ys ih =>
      intro a ⟨_, hne, hrest⟩ x hx
      rcases List.mem_cons.mp hx with rfl | hx
      · exact hne
      · exact ih hrest x hx

/-- The last node of a path has no successor. -/
theorem Path.next_last {xs : List α} {t : α} :
    ∀ {a : α}, Path next null a (xs ++ [t]) → next t = null := by
  induction xs with
  | nil => intro a ⟨_, _, h⟩; exact h
  | cons x xs ih => intro a ⟨_, _, h⟩; exact ih h

/-- Consecutive nodes of a path are linked. -/
theorem Path.next_mid {xs ys : List α} {p t : α} :
    ∀ {a : α}, Path next null a (xs ++ p :: t :: ys) → next p = t := by
  induction xs with
  | nil => intro a ⟨_, _, h⟩; exact h.1
  | cons x xs ih => intro a ⟨_, _, h⟩; exact ih h

theorem Path.head_mem {xs : List α} {a : α} (h : Path next null a xs) : a = null ∨ a ∈ xs := by
  cases xs with
  | nil => exact Or.inl h
  | cons x xs => exact Or.inr (h.1 ▸ List.mem_cons_self)

/-- A successor is again a node of the path. -/
theorem Path.succ_mem {xs : List α} :
    ∀ {a : α}, Path next null a xs → ∀ x ∈ xs, next x = null ∨ next x ∈ xs := by
  induction xs with
  | nil => intro a _ x hx; exact absurd hx List.not_mem_nil
  | cons y ys ih =>
      intro a ⟨_, _, hrest⟩ x hx
      rcases List.mem_cons.mp hx with rfl | hx
      · exact hrest.head_mem.imp id (List.mem_cons_of_mem _)
      · exact (ih hrest x hx).imp id (List.mem_cons_of_mem _)

/-- A node other than the first is the successor of a node of the path. -/
theorem Path.pred {xs : List α} : ∀ {a : α}, Path next null a xs → ∀ t ∈ xs, t = a ∨
    ∃ p ∈ xs, next p = t := by
  induction xs with
  | nil => intro a _ t ht; exact absurd ht List.not_mem_nil
  | cons x xs ih =>
      intro a ⟨hax, _, hrest⟩ t ht
      rcases List.mem_cons.mp ht with rfl | ht
      · exact Or.inl hax.symm
      · rcases ih hrest t ht with rfl | ⟨p, hp, hpt⟩
        · exact Or.inr ⟨x, List.mem_cons_self, rfl⟩
        · exact Or.inr ⟨p, List.mem_cons_of_mem _ hp, hpt⟩

/-- A doubly linked list: a path whose links are mirrored by `prev`. -/
structure DLinked (next prev : α → α) (null head : α) (xs : List α) : Prop where
  path : Path next null head xs
  back : ∀ t ∈ xs, next t ≠ null → prev (next t) = t
  first : head ≠ null → prev head = null

namespace DLinked

variable {head : α} {xs : List α} {p t : α}

theorem nil : DLinked next prev null null [] where
  path := rfl
  back := fun _ ht => absurd ht List.not_mem_nil
  first := fun h => absurd rfl h

/-- Backward links stay inside the list. -/
theorem prev_mem (h : DLinked next prev null head xs) (ht : t ∈ xs) :
    prev t = null ∨ prev t ∈ xs := by
  have hne := h.path.ne_null t ht
  rcases h.path.pred t ht with rfl | ⟨p, hp, rfl⟩
  · exact Or.inl (h.first hne)
  · rw [h.back p hp hne]; exact Or.inr hp

/-- The node before the last one. -/
theorem prev_last (h : DLinked next prev null head (xs ++ [p, t])) : prev t = p := by
  have hnext : next p = t := h.path.next_mid
  have hne : t ≠ null := h.path.ne_null t (by simp)
  have := h.back p (by simp) (by rw [hnext]; exact hne)
  rwa [hnext] at this

/-- A single fresh node is a list. -/
theorem single (ht : t ≠ null) (hnext : next t = null) (hprev : prev t = null) :
    DLinked next prev null t [t] where
  path := ⟨rfl, ht, hnext⟩
  back := by
    intro u hu hne
    rw [List.mem_singleton.mp hu] at hne
    exact absurd hnext hne
  first := fun _ => hprev

/-- Links outside the list do not matter. -/
theorem congr (h : DLinked next prev null head xs) (hnext : ∀ x ∈ xs, next' x = next x)
    (hprev : ∀ x ∈ xs, prev' x = prev x) : DLinked next' prev' null head xs where
  path := h.path.congr hnext
  back := by
    intro x hx hne
    rw [hnext x hx] at hne ⊢
    rw [hprev _ ((h.path.succ_mem x hx).resolve_left hne)]
    exact h.back x hx hne
  first := by
    intro hne
    rw [hprev _ (h.path.head_mem.resolve_left hne)]
    exact h.first hne

variable [DecidableEq α]

theorem path_snoc {a : α} (h : Path next null a (xs ++ [p])) (hp : p ∉ xs) (ht : t ≠ null)
    (htx : t ∉ xs ++ [p]) (hnext : next t = null) :
    Path (Function.update next p t) null a (xs ++ [p, t]) := by
  induction xs generalizing a with
  | nil =>
      obtain ⟨hap, hne, _⟩ := h
      have htp : t ≠ p := fun he => htx (by simp [he])
      refine ⟨hap, hne, ?_, ht, ?_⟩
      · exact Function.update_self ..
      · rw [Function.update_of_ne htp]; exact hnext
  | cons x xs ih =>
      obtain ⟨hax, hne, hrest⟩ := h
      have hxp : x ≠ p := fun he => hp (he ▸ List.mem_cons_self)
      refine ⟨hax, hne, ?_⟩
      rw [Function.update_of_ne hxp]
      exact ih hrest (fun hm => hp (List.mem_cons_of_mem _ hm))
        (fun hm => htx (List.mem_cons_of_mem _ hm))

/-- **Linking a fresh node behind the last one.** -/
theorem snoc (h : DLinked next prev null head (xs ++ [p])) (hp : p ∉ xs) (ht : t ≠ null)
    (htx : t ∉ xs ++ [p]) (hnext : next t = null) :
    DLinked (Function.update next p t) (Function.update prev t p) null head (xs ++ [p, t]) where
  path := path_snoc h.path hp ht htx hnext
  back := by
    intro x hx hne
    by_cases hxp : x = p
    · rw [hxp, Function.update_self, Function.update_self]
    · rw [Function.update_of_ne hxp] at hne ⊢
      have hxt : x ≠ t := fun he => hne (he ▸ hnext)
      have hxs : x ∈ xs ++ [p] := by
        simp only [List.mem_append, List.mem_cons, List.not_mem_nil, or_false] at hx ⊢
        tauto
      have hmem : next x ∈ xs ++ [p] := (h.path.succ_mem x hxs).resolve_left hne
      have hnt : next x ≠ t := fun he => htx (he ▸ hmem)
      rw [Function.update_of_ne hnt]
      exact h.back x hxs hne
  first := by
    intro hne
    have hmem : head ∈ xs ++ [p] := h.path.head_mem.resolve_left hne
    have hnt : head ≠ t := fun he => htx (he ▸ hmem)
    rw [Function.update_of_ne hnt]
    exact h.first hne

theorem path_dropLast {a : α} (h : Path next null a (xs ++ [p, t])) (hp : p ∉ xs) :
    Path (Function.update next p null) null a (xs ++ [p]) := by
  induction xs generalizing a with
  | nil => exact ⟨h.1, h.2.1, Function.update_self ..⟩
  | cons x xs ih =>
      obtain ⟨hax, hne, hrest⟩ := h
      have hxp : x ≠ p := fun he => hp (he ▸ List.mem_cons_self)
      refine ⟨hax, hne, ?_⟩
      rw [Function.update_of_ne hxp]
      exact ih hrest (fun hm => hp (List.mem_cons_of_mem _ hm))

/-- **Unlinking the last node.** -/
theorem dropLast (h : DLinked next prev null head (xs ++ [p, t])) (hp : p ∉ xs) :
    DLinked (Function.update next p null) prev null head (xs ++ [p]) where
  path := path_dropLast h.path hp
  back := by
    intro x hx hne
    by_cases hxp : x = p
    · rw [hxp, Function.update_self] at hne
      exact absurd rfl hne
    · rw [Function.update_of_ne hxp] at hne ⊢
      refine h.back x ?_ hne
      simp only [List.mem_append, List.mem_cons, List.not_mem_nil, or_false] at hx ⊢
      tauto
  first := h.first

end DLinked

/-! ## The ring

The nodes of a list in a round: the first one follows the last one. -/

/-- The nodes of the list at `head`, in the order of the ring, from any one of them on. -/
def Ring (next : α → α) (null head : α) (ring : List α) : Prop :=
  ∃ xs ys, Path next null head (xs ++ ys) ∧ ring = ys ++ xs

/-- The node after `a` in the ring. -/
def ringNext [DecidableEq α] (next : α → α) (null head a : α) : α := if next a = null then head else next a

section Ring

variable {head a : α} {xs ys rest : List α}

theorem Ring.of_path (h : Path next null head xs) : Ring next null head xs :=
  ⟨[], xs, h, (List.append_nil xs).symm⟩

theorem Ring.split (h : Ring next null head (a :: rest)) :
    ∃ xs ys, Path next null head (xs ++ a :: ys) ∧ rest = ys ++ xs := by
  obtain ⟨xs, ys, hpath, heq⟩ := h
  cases ys with
  | nil =>
      rw [List.append_nil, List.nil_append] at *
      exact ⟨[], rest, heq ▸ hpath, (List.append_nil rest).symm⟩
  | cons b ys =>
      obtain ⟨rfl, rfl⟩ := List.cons.inj heq
      exact ⟨xs, ys, hpath, rfl⟩

/-- The ring may start at the next node as well. -/
theorem Ring.turn (h : Ring next null head (a :: rest)) : Ring next null head (rest ++ [a]) := by
  obtain ⟨xs, ys, hpath, rfl⟩ := h.split
  refine ⟨xs ++ [a], ys, ?_, ?_⟩
  · rwa [List.append_assoc, List.singleton_append]
  · rw [List.append_assoc]

theorem Ring.ne_null (h : Ring next null head rest) : ∀ x ∈ rest, x ≠ null := by
  obtain ⟨xs, ys, hpath, rfl⟩ := h
  intro x hx
  apply hpath.ne_null
  rw [List.mem_append] at hx ⊢
  exact hx.symm

theorem Path.head_eq (h : Path next null head (a :: xs)) : head = a := h.1

/-- The next node comes second; a ring of one node leads back to it. -/
theorem Ring.next_eq [DecidableEq α] (h : Ring next null head (a :: rest)) :
    ringNext next null head a = rest.headD a := by
  obtain ⟨xs, ys, hpath, rfl⟩ := h.split
  unfold ringNext
  cases ys with
  | nil =>
      rw [if_pos hpath.next_last]
      cases xs with
      | nil => exact hpath.head_eq
      | cons x xs => exact hpath.head_eq
  | cons b ys =>
      have hb : b ≠ null := by
        apply hpath.ne_null
        simp
      rw [hpath.next_mid, if_neg hb]
      rfl

variable [DecidableEq α]

/-- A node behind another one is unlinked from a path. -/
theorem Path.unlink {p : α} (h : Path next null head (xs ++ p :: a :: ys)) (hnodup : (xs ++ p :: a :: ys).Nodup) :
    Path (Function.update next p (next a)) null head (xs ++ p :: ys) := by
  induction xs generalizing head with
  | nil =>
      obtain ⟨hhead, hne, _, _, hrest⟩ := h
      refine ⟨hhead, hne, ?_⟩
      rw [Function.update_self]
      apply hrest.congr
      intro y hy
      apply Function.update_of_ne
      rintro rfl
      exact (List.nodup_cons.mp hnodup).1 (List.mem_cons_of_mem _ hy)
  | cons x xs ih =>
      obtain ⟨hhead, hne, hrest⟩ := h
      obtain ⟨hx, hnodup⟩ := List.nodup_cons.mp hnodup
      refine ⟨hhead, hne, ?_⟩
      rw [Function.update_of_ne]
      · exact ih hrest hnodup
      · rintro rfl
        apply hx
        simp

/-- **Unlinking a node.** The head moves on where it is the first one; the other nodes stay in their order. -/
theorem DLinked.unlink (h : DLinked next prev null head (xs ++ a :: ys)) (hnodup : (xs ++ a :: ys).Nodup) :
    Path (if prev a ≠ null then Function.update next (prev a) (next a) else next) null
      (if a = head then next a else head) (xs ++ ys) := by
  rcases List.eq_nil_or_concat' xs with rfl | ⟨xs, p, rfl⟩
  · obtain ⟨rfl, hne, hrest⟩ := h.path
    rw [if_neg (not_not.mpr (h.first hne)), if_pos rfl]
    exact hrest
  · have hpath : Path next null head (xs ++ p :: a :: ys) := by simpa using h.path
    have hnext := hpath.next_mid
    have hp : p ≠ null := h.path.ne_null p (by simp)
    have ha : a ≠ null := h.path.ne_null a (by simp)
    have hprev : prev a = p := by
      rw [← hnext]
      exact h.back p (by simp) (by rwa [hnext])
    have hhead : a ≠ head := by
      rintro rfl
      have hmem : a ∈ xs ++ [p] := by
        cases xs with
        | nil => exact List.mem_singleton.mpr hpath.head_eq
        | cons x xs => exact hpath.head_eq ▸ List.mem_cons_self
      exact (List.nodup_append.mp hnodup).2.2 a hmem a List.mem_cons_self rfl
    rw [hprev, if_pos hp, if_neg hhead, List.append_assoc]
    exact hpath.unlink (by simpa using hnodup)

end Ring

end Links
