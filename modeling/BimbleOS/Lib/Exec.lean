/-!
# `Lib.Exec` — partial correctness of stateful computations that may stop

A computation `StateT σ (Except ε) α` runs from a state to a value and a state, or stops with an `ε`.
`Triple P x Q` says that every run of `x` from a state of `P` that does return ends in `Q`; a run that
stops satisfies it. The rules follow the constructors of a program: `pure`, `bind`, the accesses to the
state, `throw`, and the case distinction. `Total P x Q` says in addition that every run from a state of `P` does
return, and `Fails P x` that none does. `Never e x` says that no run of `x` stops with `e`.
-/

namespace Exec

variable {ε σ α β : Type}

/-- A sequence whose first part returns goes on with the rest. -/
theorem bind_of_ok {x : StateT σ (Except ε) α} {f : α → StateT σ (Except ε) β} {s t : σ} {a : α}
    (h : x s = .ok (a, t)) : (x >>= f) s = f a t := by
  show (x s >>= fun q => f q.1 q.2) = _
  rw [h]
  rfl

/-- A sequence stops where its first part stops. -/
theorem bind_of_error {x : StateT σ (Except ε) α} {f : α → StateT σ (Except ε) β} {s : σ} {e : ε}
    (h : x s = .error e) : (x >>= f) s = .error e := by
  show (x s >>= fun q => f q.1 q.2) = _
  rw [h]
  rfl

/-- The run of a sequence is a run of its first part and one of the rest. -/
theorem bind_eq_ok {x : StateT σ (Except ε) α} {f : α → StateT σ (Except ε) β} {s s' : σ} {b : β} :
    (x >>= f) s = .ok (b, s') ↔ ∃ a t, x s = .ok (a, t) ∧ f a t = .ok (b, s') := by
  constructor
  · intro h
    rcases hx : x s with e | ⟨a, t⟩
    · rw [bind_of_error hx] at h
      cases h
    · rw [bind_of_ok hx] at h
      exact ⟨a, t, rfl, h⟩
  · rintro ⟨a, t, hx, hf⟩
    exact (bind_of_ok hx).trans hf

/-- A sequence that starts with a change of the state goes on from the new state. -/
theorem modify_bind {f : σ → σ} {g : PUnit → StateT σ (Except ε) β} {s : σ} :
    ((modify f : StateT σ (Except ε) PUnit) >>= g) s = g ⟨⟩ (f s) := rfl

/-- A sequence that starts with reading the state goes on with the state it has read. -/
theorem get_bind {g : σ → StateT σ (Except ε) β} {s : σ} :
    ((get : StateT σ (Except ε) σ) >>= g) s = g s s := rfl

/-- A run that returns, found by evaluating it. -/
theorem exists_of_check {x : StateT σ (Except ε) α} {s : σ} {check : α → σ → Bool}
    (h : (match x s with
      | .ok (a, t) => check a t
      | .error _ => false) = true) : ∃ a t, x s = .ok (a, t) ∧ check a t = true := by
  rcases hx : x s with e | ⟨a, t⟩
  · rw [hx] at h
    cases h
  · rw [hx] at h
    exact ⟨a, t, rfl, h⟩

/-- Every run of `x` from a state of `P` that returns ends in `Q`. -/
def Triple (P : σ → Prop) (x : StateT σ (Except ε) α) (Q : α → σ → Prop) : Prop :=
  ∀ s a s', P s → x s = .ok (a, s') → Q a s'

namespace Triple

variable {P P' : σ → Prop} {Q Q' : α → σ → Prop} {x y : StateT σ (Except ε) α}

theorem pure {a : α} (h : ∀ s, P s → Q a s) : Triple P (pure a : StateT σ (Except ε) α) Q := by
  intro s b s' hP hrun
  cases hrun
  exact h s hP

theorem bind {R : β → σ → Prop} {x : StateT σ (Except ε) β} {f : β → StateT σ (Except ε) α}
    (hx : Triple P x R) (hf : ∀ b, Triple (R b) (f b) Q) : Triple P (x >>= f) Q := by
  intro s a s' hP hrun
  obtain ⟨b, t, hxt, hft⟩ := bind_eq_ok.mp hrun
  exact hf b t a s' (hx s b t hP hxt) hft

/-- Reading the state: the rest knows the state it was read from. -/
theorem get_bind {f : σ → StateT σ (Except ε) α}
    (h : ∀ s, P s → Triple (fun t => t = s) (f s) Q) : Triple P (get >>= f) Q := by
  intro s a s' hP hrun
  exact h s hP s a s' rfl hrun

theorem modify {f : σ → σ} {Q : PUnit → σ → Prop} (h : ∀ s, P s → Q ⟨⟩ (f s)) :
    Triple P (modify f : StateT σ (Except ε) PUnit) Q := by
  intro s a s' hP hrun
  cases hrun
  exact h s hP

theorem throw {e : ε} : Triple P (throw e : StateT σ (Except ε) α) Q := by
  intro s a s' _ hrun
  cases hrun

theorem ite {c : Prop} [Decidable c] (hx : c → Triple P x Q) (hy : ¬ c → Triple P y Q) :
    Triple P (if c then x else y) Q := by
  by_cases h : c
  · rw [if_pos h]
    exact hx h
  · rw [if_neg h]
    exact hy h

theorem consequence (hpre : ∀ s, P' s → P s) (h : Triple P x Q) (hpost : ∀ a s, Q a s → Q' a s) :
    Triple P' x Q' :=
  fun s a s' hP hrun => hpost a s' (h s a s' (hpre s hP) hrun)

theorem pre (hpre : ∀ s, P' s → P s) (h : Triple P x Q) : Triple P' x Q :=
  h.consequence hpre fun _ _ hq => hq

/-- A fact that does not speak about the state is kept. -/
theorem const {c : Prop} (h : c → Triple P x Q) : Triple (fun s => c ∧ P s) x Q :=
  fun s a s' hP hrun => h hP.1 s a s' hP.2 hrun

end Triple

/-- Every run of `x` from a state of `P` returns, and ends in `Q`. -/
def Total (P : σ → Prop) (x : StateT σ (Except ε) α) (Q : α → σ → Prop) : Prop :=
  ∀ s, P s → ∃ a s', x s = .ok (a, s') ∧ Q a s'

namespace Total

variable {P P' : σ → Prop} {Q Q' : α → σ → Prop} {x y : StateT σ (Except ε) α}

theorem pure {a : α} (h : ∀ s, P s → Q a s) : Total P (pure a : StateT σ (Except ε) α) Q :=
  fun s hP => ⟨a, s, rfl, h s hP⟩

theorem bind {R : β → σ → Prop} {x : StateT σ (Except ε) β} {f : β → StateT σ (Except ε) α}
    (hx : Total P x R) (hf : ∀ b, Total (R b) (f b) Q) : Total P (x >>= f) Q := by
  intro s hP
  obtain ⟨b, t, hxt, hR⟩ := hx s hP
  obtain ⟨a, s', hft, hQ⟩ := hf b t hR
  exact ⟨a, s', (bind_of_ok hxt).trans hft, hQ⟩

theorem modify {f : σ → σ} {Q : PUnit → σ → Prop} (h : ∀ s, P s → Q ⟨⟩ (f s)) :
    Total P (modify f : StateT σ (Except ε) PUnit) Q :=
  fun s hP => ⟨⟨⟩, f s, rfl, h s hP⟩

theorem get_bind {f : σ → StateT σ (Except ε) α} (h : ∀ s, P s → Total (fun t => t = s) (f s) Q) :
    Total P (get >>= f) Q := by
  intro s hP
  exact h s hP s rfl

theorem consequence (hpre : ∀ s, P' s → P s) (h : Total P x Q) (hpost : ∀ a s, Q a s → Q' a s) :
    Total P' x Q' := by
  intro s hP
  obtain ⟨a, s', hrun, hQ⟩ := h s (hpre s hP)
  exact ⟨a, s', hrun, hpost a s' hQ⟩

theorem ite {c : Prop} [Decidable c] (hx : c → Total P x Q) (hy : ¬ c → Total P y Q) :
    Total P (if c then x else y) Q := by
  by_cases h : c
  · rw [if_pos h]
    exact hx h
  · rw [if_neg h]
    exact hy h

/-- A fact that does not speak about the state is kept. -/
theorem const {c : Prop} (h : c → Total P x Q) : Total (fun s => c ∧ P s) x Q :=
  fun s hP => h hP.1 s hP.2

end Total

/-- Every run of `x` from a state of `P` stops. -/
def Fails (P : σ → Prop) (x : StateT σ (Except ε) α) : Prop := ∀ s, P s → ∃ e, x s = .error e

namespace Fails

variable {P P' : σ → Prop} {x y : StateT σ (Except ε) α}

theorem throw {e : ε} : Fails P (throw e : StateT σ (Except ε) α) := fun _ _ => ⟨e, rfl⟩

/-- A sequence stops when its first part does. -/
theorem first {f : α → StateT σ (Except ε) β} (hx : Fails P x) : Fails P (x >>= f) := by
  intro s hP
  obtain ⟨e, he⟩ := hx s hP
  exact ⟨e, bind_of_error he⟩

/-- A sequence stops when its first part returns and the rest stops. -/
theorem bind {R : α → σ → Prop} {f : α → StateT σ (Except ε) β} (hx : Total P x R)
    (hf : ∀ a, Fails (R a) (f a)) : Fails P (x >>= f) := by
  intro s hP
  obtain ⟨a, t, hxt, hR⟩ := hx s hP
  obtain ⟨e, he⟩ := hf a t hR
  exact ⟨e, (bind_of_ok hxt).trans he⟩

theorem ite {c : Prop} [Decidable c] (hx : c → Fails P x) (hy : ¬ c → Fails P y) :
    Fails P (if c then x else y) := by
  by_cases h : c
  · rw [if_pos h]
    exact hx h
  · rw [if_neg h]
    exact hy h

theorem pre (hpre : ∀ s, P' s → P s) (h : Fails P x) : Fails P' x := fun s hP => h s (hpre s hP)

/-- A fact that does not speak about the state is kept. -/
theorem const {c : Prop} (h : c → Fails P x) : Fails (fun s => c ∧ P s) x := fun s hP => h hP.1 s hP.2

end Fails

/-- No run of `x` stops with `e`. -/
def Never (e : ε) (x : StateT σ (Except ε) α) : Prop := ∀ s, x s ≠ .error e

namespace Never

variable {e e' : ε} {x y : StateT σ (Except ε) α}

theorem pure {a : α} : Never e (pure a : StateT σ (Except ε) α) := by
  intro s h
  cases h

theorem modify {f : σ → σ} : Never e (modify f : StateT σ (Except ε) PUnit) := by
  intro s h
  cases h

theorem throw (hne : e' ≠ e) : Never e (throw e' : StateT σ (Except ε) α) := by
  intro s h
  cases h
  exact hne rfl

theorem bind {x : StateT σ (Except ε) β} {f : β → StateT σ (Except ε) α} (hx : Never e x)
    (hf : ∀ b, Never e (f b)) : Never e (x >>= f) := by
  intro s h
  rcases hrun : x s with e' | ⟨b, t⟩
  · rw [bind_of_error hrun] at h
    cases h
    exact hx s hrun
  · rw [bind_of_ok hrun] at h
    exact hf b t h

theorem ite {c : Prop} [Decidable c] (hx : Never e x) (hy : Never e y) : Never e (if c then x else y) := by
  intro s
  split
  · exact hx s
  · exact hy s

end Never

/-- From a state in `P`, no run of `x` stops with `e`. -/
def Avoids (P : σ → Prop) (e : ε) (x : StateT σ (Except ε) α) : Prop := ∀ s, P s → x s ≠ .error e

namespace Avoids

variable {P : σ → Prop} {e : ε} {x y : StateT σ (Except ε) α}

theorem of_never (h : Never e x) : Avoids P e x := fun s _ => h s

theorem pure {a : α} : Avoids P e (pure a : StateT σ (Except ε) α) := of_never Never.pure

theorem bind {R : β → σ → Prop} {x : StateT σ (Except ε) β} {f : β → StateT σ (Except ε) α} (hx : Avoids P e x)
    (hrun : Triple P x R) (hf : ∀ b, Avoids (R b) e (f b)) : Avoids P e (x >>= f) := by
  intro s hs h
  rcases hfirst : x s with e' | ⟨b, t⟩
  · rw [bind_of_error hfirst] at h
    cases h
    exact hx s hs hfirst
  · rw [bind_of_ok hfirst] at h
    exact hf b t (hrun s b t hs hfirst) h

theorem ite {c : Prop} [Decidable c] (hx : c → Avoids P e x) (hy : ¬ c → Avoids P e y) :
    Avoids P e (if c then x else y) := by
  intro s hs
  split
  · rename_i hc
    exact hx hc s hs
  · rename_i hc
    exact hy hc s hs

/-- The facts about a result that do not depend on the state. -/
theorem const {c : Prop} (h : c → Avoids P e x) : Avoids (fun s => c ∧ P s) e x := fun s hP => h hP.1 s hP.2

end Avoids

end Exec
