/-
  Gateway.Lib.Simulation

  Machines whose steps return a result, and their simulation by a specification.

  `step` is the implementation; it may have no successor, because of a fault.
  `spec` is total.  When every step that callers may take is simulated (`Simulates`),
  whole runs return the results of the specification, and never fault
  (`Simulates.trace`).  `stateStep` forgets the results, so that conditions on the
  steps of a run are those of `Gateway.Lib.Transition`.
-/

import Gateway.Lib.Transition

namespace Gateway.Lib.Simulation

open Gateway.Lib.Transition

variable {σ τ α ρ : Type}

/-- The results of a run of the implementation, and the state behind it. -/
def trace (step : σ → α → Option (ρ × σ)) : σ → List α → Option (List ρ × σ)
  | s, [] => some ([], s)
  | s, a :: as => do
    let (r, s) ← step s a
    let (rs, s) ← trace step s as
    some (r :: rs, s)

/-- The results of a run of the specification, and the state behind it. -/
def specTrace (spec : τ → α → ρ × τ) : τ → List α → List ρ × τ
  | t, [] => ([], t)
  | t, a :: as =>
    let (r, t) := spec t a
    let (rs, t) := specTrace spec t as
    (r :: rs, t)

/-- A step without its result. -/
def stateStep (step : σ → α → Option (ρ × σ)) (s : σ) (a : α) : Option σ :=
  (step s a).map Prod.snd

/-- From related states, a step that may be taken returns what the specification returns, and
    leads to related states. -/
def Simulates (step : σ → α → Option (ρ × σ)) (spec : τ → α → ρ × τ) (allowed : σ → α → Prop)
    (R : σ → τ → Prop) : Prop :=
  ∀ s t a, R s t → allowed s a →
    ∃ s', step s a = some ((spec t a).1, s') ∧ R s' (spec t a).2

variable {step : σ → α → Option (ρ × σ)} {spec : τ → α → ρ × τ} {allowed : σ → α → Prop}
  {R : σ → τ → Prop}

/-- Runs of steps that may be taken return what the specification returns. -/
theorem Simulates.trace (hsim : Simulates step spec allowed R) {s : σ} {t : τ} {as : List α}
    (hR : R s t) (hallowed : AllSteps (stateStep step) allowed s as) :
    ∃ s', trace step s as = some ((specTrace spec t as).1, s') ∧ R s' (specTrace spec t as).2 := by
  induction as generalizing s t with
  | nil => exact ⟨s, rfl, hR⟩
  | cons a as ih =>
    obtain ⟨hfirst, hrest⟩ := hallowed
    obtain ⟨s₁, hstep, hR₁⟩ := hsim s t a hR hfirst
    have hnext : stateStep step s a = some s₁ := by
      rw [stateStep, hstep]
      rfl
    obtain ⟨s₂, htrace, hR₂⟩ := ih hR₁ (hrest s₁ hnext)
    refine ⟨s₂, ?_, hR₂⟩
    simp only [Simulation.trace, hstep, htrace, Option.bind_eq_bind, Option.bind_some, specTrace]

end Gateway.Lib.Simulation
