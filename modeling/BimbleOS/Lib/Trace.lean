/-!
# `Lib.Trace` — finite runs of a labelled transition system

A `Trace step s tr s'` is a run from `s` to `s'`; `tr` lists the steps in order, each as the state it
was taken from together with its label. The two rules below are the ones a safety argument needs:

* `Trace.invariant` — what a guarded step preserves, every run of guarded steps preserves;
* `Trace.guard_of_safe` — conversely, when an unguarded step always leads from a good state to a bad
  one, a run all of whose states are good took guarded steps only.
-/

namespace Transition

variable {σ ε : Type}

/-- A run of `step`, recorded as the list of its steps (source state and label). -/
inductive Trace (step : σ → ε → σ → Prop) (s₀ : σ) : List (σ × ε) → σ → Prop where
  | nil : Trace step s₀ [] s₀
  | snoc {tr : List (σ × ε)} {s s' : σ} {e : ε} :
      Trace step s₀ tr s → step s e s' → Trace step s₀ (tr ++ [(s, e)]) s'

/-- `p` holds of every state the run passes through, the last one included. -/
def Throughout (p : σ → Prop) (tr : List (σ × ε)) (s : σ) : Prop :=
  (∀ q ∈ tr, p q.1) ∧ p s

theorem Throughout.imp {p q : σ → Prop} {tr : List (σ × ε)} {s : σ} (hpq : ∀ x, p x → q x)
    (h : Throughout p tr s) : Throughout q tr s :=
  ⟨fun x hx => hpq _ (h.1 x hx), hpq _ h.2⟩

theorem Throughout.snoc {p : σ → Prop} {tr : List (σ × ε)} {s s' : σ} {e : ε}
    (h : Throughout p tr s) (hs' : p s') : Throughout p (tr ++ [(s, e)]) s' := by
  refine ⟨fun q hq => ?_, hs'⟩
  rcases List.mem_append.mp hq with hq | hq
  · exact h.1 q hq
  · rw [List.mem_singleton.mp hq]; exact h.2

/-- The states before the last step are a run of their own. -/
theorem Throughout.of_snoc {p : σ → Prop} {tr : List (σ × ε)} {s s' : σ} {e : ε}
    (h : Throughout p (tr ++ [(s, e)]) s') : Throughout p tr s :=
  ⟨fun q hq => h.1 q (List.mem_append_left _ hq),
    h.1 (s, e) (List.mem_append_right _ (List.mem_singleton.mpr rfl))⟩

/-- **Invariant rule.** An invariant that every guarded step preserves holds throughout a run all of
    whose steps are guarded. -/
theorem Trace.invariant {step : σ → ε → σ → Prop} {s₀ s : σ} {tr : List (σ × ε)}
    {guard : σ → ε → Prop} {inv : σ → Prop}
    (hpres : ∀ s e s', inv s → guard s e → step s e s' → inv s')
    (h₀ : inv s₀) (h : Trace step s₀ tr s) (hg : ∀ q ∈ tr, guard q.1 q.2) :
    Throughout inv tr s := by
  induction h with
  | nil => exact ⟨fun q hq => absurd hq List.not_mem_nil, h₀⟩
  | @snoc tr s s' e _ hstep ih =>
      have hprev := ih (fun q hq => hg q (List.mem_append_left _ hq))
      have hlast : guard s e := hg (s, e) (List.mem_append_right _ (List.mem_singleton.mpr rfl))
      exact hprev.snoc (hpres s e s' hprev.2 hlast hstep)

/-- **Converse rule.** If a step between good states is always guarded, then in a run all of whose
    states are good every step was guarded. -/
theorem Trace.guard_of_safe {step : σ → ε → σ → Prop} {s₀ s : σ} {tr : List (σ × ε)}
    {guard : σ → ε → Prop} {inv safe : σ → Prop}
    (hpres : ∀ s e s', inv s → step s e s' → inv s')
    (hback : ∀ s e s', inv s → safe s → step s e s' → safe s' → guard s e)
    (h₀ : inv s₀) (h : Trace step s₀ tr s) (hsafe : Throughout safe tr s) :
    inv s ∧ ∀ q ∈ tr, guard q.1 q.2 := by
  induction h with
  | nil => exact ⟨h₀, fun q hq => absurd hq List.not_mem_nil⟩
  | @snoc tr s s' e _ hstep ih =>
      obtain ⟨hinv, hg⟩ := ih hsafe.of_snoc
      refine ⟨hpres s e s' hinv hstep, fun q hq => ?_⟩
      rcases List.mem_append.mp hq with hq | hq
      · exact hg q hq
      · rw [List.mem_singleton.mp hq]; exact hback s e s' hinv hsafe.of_snoc.2 hstep hsafe.2

end Transition
