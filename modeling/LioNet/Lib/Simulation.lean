import LioNet.Lib.Transition

/-!
# Simulation between two systems

A relation between the states of two systems is a simulation if every step of the first is matched by
some steps of the second, possibly none, that lead to related states again.  Then every run of the
first system has a run of the second that ends in a related state.
-/

namespace LioNet.Lib

variable {σ κ τ ι : Type*}

/-- Related states stay related: a guarded step of `step` is matched by guarded steps of `step'`. -/
def Simulates (step : σ → κ → Option σ) (P : σ → κ → Prop) (step' : τ → ι → Option τ)
    (Q : τ → ι → Prop) (R : σ → τ → Prop) : Prop :=
  ∀ {s l s' a}, R s a → P s l → step s l = some s' → ∃ a', Reach step' Q a a' ∧ R s' a'

variable {step : σ → κ → Option σ} {P : σ → κ → Prop} {step' : τ → ι → Option τ}
  {Q : τ → ι → Prop} {R : σ → τ → Prop}

/-- **The simulation rule.** -/
theorem Simulates.reach (h : Simulates step P step' Q R) {s₀ s : σ} {a₀ : τ} (h0 : R s₀ a₀)
    (hr : Reach step P s₀ s) : ∃ a, Reach step' Q a₀ a ∧ R s a := by
  induction hr with
  | refl => exact ⟨a₀, .refl, h0⟩
  | move _ hP hs ih =>
    obtain ⟨a, ha, hR⟩ := ih
    obtain ⟨a', ha', hR'⟩ := h hR hP hs
    exact ⟨a', ha.trans ha', hR'⟩

/-- A step that is matched by doing nothing. -/
theorem matched_refl {s' : σ} {a : τ} (h : R s' a) : ∃ a', Reach step' Q a a' ∧ R s' a' :=
  ⟨a, .refl, h⟩

/-- A step that is matched by one step. -/
theorem matched_step {s' : σ} {a b : τ} {m : ι} (hQ : Q a m) (hs : step' a m = some b)
    (h : R s' b) : ∃ a', Reach step' Q a a' ∧ R s' a' :=
  ⟨b, .move .refl hQ hs, h⟩

end LioNet.Lib
