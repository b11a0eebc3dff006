import BimbleOS.Lib.Trace

/-!
# `Lib.Simulation` — a run that an abstract machine follows

The abstract machine is a function of its state and of the label of a step. Where each step of a transition system is
followed by it, every run is.
-/

namespace Transition

variable {σ ε α : Type} {step : σ → ε → σ → Prop} {abs : α → ε → α} {r : σ → α → Prop} {s₀ s : σ} {a : α}
  {tr : List (σ × ε)}

/-- **Simulation rule.** -/
theorem Trace.simulation (hstep : ∀ s e s' a, r s a → step s e s' → r s' (abs a e)) (h : Trace step s₀ tr s)
    (h₀ : r s₀ a) : r s ((tr.map Prod.snd).foldl abs a) := by
  induction h with
  | nil => exact h₀
  | @snoc tr s s' e _ hlast ih =>
      rw [List.map_append, List.foldl_append]
      exact hstep _ _ _ _ ih hlast

end Transition
