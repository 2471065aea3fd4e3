/-
  Gateway.Lib.Progress

  Runs that come to an end, and where they end.

  `Terminating step I P final μ` is about the steps that meet `P` from the states of an
  invariant `I`: each of them lowers the measure `μ`, and as long as the state is not
  `final` there is one.  So a run of such steps is never longer than the measure of its
  first state (`Terminating.length_le`), where none is possible any more the state is
  final (`Terminating.final_of_stuck`), and every run that was begun can be brought to
  its end (`Terminating.completes`).  No fairness is assumed: whichever of the possible
  steps are taken, the run comes to its end.

  `Settling` is the same for the steps of some parties among those of others.
-/

import Mathlib.Order.Basic
import Gateway.Lib.Transition

namespace Gateway.Lib.Progress

open Gateway.Lib.Transition

variable {σ α : Type}

/-- Steps that keep an invariant, lower a measure, and are possible until the end. -/
structure Terminating (step : σ → α → Option σ) (I : σ → Prop) (P : σ → α → Prop)
    (final : σ → Prop) (μ : σ → Nat) : Prop where
  keeps : ∀ s a s', I s → P s a → step s a = some s' → I s'
  lowers : ∀ s a s', I s → P s a → step s a = some s' → μ s' < μ s
  enabled : ∀ s, I s → ¬ final s → ∃ a s', P s a ∧ step s a = some s'

variable {step : σ → α → Option σ} {I : σ → Prop} {P : σ → α → Prop} {final : σ → Prop}
  {μ : σ → Nat} {s s' : σ} {as : List α}

/-- A run keeps the invariant, and its length is paid for by the measure. -/
theorem Terminating.run (h : Terminating step I P final μ) (hs : I s) (hP : AllSteps step P s as)
    (hrun : exec step s as = some s') : I s' ∧ as.length + μ s' ≤ μ s := by
  induction as generalizing s with
  | nil =>
    obtain rfl := Option.some_inj.mp hrun
    exact ⟨hs, Nat.le_of_eq (Nat.zero_add _)⟩
  | cons a as ih =>
    cases hstep : step s a with
    | none =>
      rw [exec, hstep] at hrun
      cases hrun
    | some t =>
      rw [exec, hstep] at hrun
      have hlower := h.lowers s a t hs hP.1 hstep
      obtain ⟨hI, hlen⟩ := ih (h.keeps s a t hs hP.1 hstep) (hP.2 t hstep) hrun
      refine ⟨hI, ?_⟩
      rw [List.length_cons]
      omega

/-- No run is longer than the measure of its first state. -/
theorem Terminating.length_le (h : Terminating step I P final μ) (hs : I s)
    (hP : AllSteps step P s as) (hrun : exec step s as = some s') : as.length ≤ μ s :=
  Nat.le_of_add_right_le (h.run hs hP hrun).2

/-- A run that cannot go on is at its end. -/
theorem Terminating.final_of_stuck (h : Terminating step I P final μ) (hs : I s)
    (hP : AllSteps step P s as) (hrun : exec step s as = some s')
    (hstuck : ∀ a, P s' a → step s' a = none) : final s' := by
  by_contra hfinal
  obtain ⟨a, t, ha, hstep⟩ := h.enabled s' (h.run hs hP hrun).1 hfinal
  rw [hstuck a ha] at hstep
  cases hstep

/-- Every state of the invariant has a run to the end. -/
theorem Terminating.completes (h : Terminating step I P final μ) (hs : I s) :
    ∃ as s', AllSteps step P s as ∧ exec step s as = some s' ∧ final s' := by
  -- on the measure: one step, and the rest of the run
  induction hm : μ s using Nat.strongRecOn generalizing s with
  | ind m ih =>
    by_cases hfinal : final s
    · exact ⟨[], s, trivial, rfl, hfinal⟩
    · obtain ⟨a, t, ha, hstep⟩ := h.enabled s hs hfinal
      have hlower := h.lowers s a t hs ha hstep
      obtain ⟨as, s', has, hrun, hend⟩ := ih (μ t) (hm ▸ hlower) (h.keeps s a t hs ha hstep) rfl
      refine ⟨a :: as, s', ⟨ha, fun t' ht' => ?_⟩, ?_, hend⟩
      · obtain rfl : t' = t := Option.some_inj.mp (ht'.symm.trans hstep)
        exact has
      · rw [exec, hstep]
        exact hrun

/-! ## Among other steps -/

/-- Steps of one's own among others: the others may go on forever, but they do not raise the
    measure, and as long as the state is not final one's own steps lower it. -/
structure Settling (step : σ → α → Option σ) (I : σ → Prop) (P : σ → α → Prop) (own : α → Bool)
    (final : σ → Prop) (μ : σ → Nat) : Prop where
  keeps : ∀ s a s', I s → P s a → step s a = some s' → I s'
  lowers : ∀ s a s', I s → P s a → own a = true → step s a = some s' → μ s' < μ s
  others : ∀ s a s', I s → P s a → own a = false → step s a = some s' → μ s' ≤ μ s
  enabled : ∀ s, I s → ¬ final s → ∃ a s', own a = true ∧ P s a ∧ step s a = some s'

variable {own : α → Bool}

/-- A run keeps the invariant, and one's own steps in it are paid for by the measure. -/
theorem Settling.run (h : Settling step I P own final μ) (hs : I s) (hP : AllSteps step P s as)
    (hrun : exec step s as = some s') : I s' ∧ as.countP own + μ s' ≤ μ s := by
  induction as generalizing s with
  | nil =>
    obtain rfl := Option.some_inj.mp hrun
    exact ⟨hs, Nat.le_of_eq (Nat.zero_add _)⟩
  | cons a as ih =>
    cases hstep : step s a with
    | none =>
      rw [exec, hstep] at hrun
      cases hrun
    | some t =>
      rw [exec, hstep] at hrun
      obtain ⟨hI, hlen⟩ := ih (h.keeps s a t hs hP.1 hstep) (hP.2 t hstep) hrun
      refine ⟨hI, ?_⟩
      rw [List.countP_cons]
      cases hown : own a with
      | false =>
        have hother := h.others s a t hs hP.1 hown hstep
        rw [if_neg Bool.false_ne_true]
        omega
      | true =>
        have hlower := h.lowers s a t hs hP.1 hown hstep
        rw [if_pos rfl]
        omega

/-- One's own steps alone come to the end. -/
theorem Settling.terminating (h : Settling step I P own final μ) :
    Terminating step I (fun s a => P s a ∧ own a = true) final μ where
  keeps := fun s a s' hs ha hstep => h.keeps s a s' hs ha.1 hstep
  lowers := fun s a s' hs ha hstep => h.lowers s a s' hs ha.1 ha.2 hstep
  enabled := by
    intro s hs hfinal
    obtain ⟨a, s', hown, ha, hstep⟩ := h.enabled s hs hfinal
    exact ⟨a, s', ⟨ha, hown⟩, hstep⟩

/-- When only the others can go on, the end is reached. -/
theorem Settling.final_of_stuck (h : Settling step I P own final μ) (hs : I s)
    (hP : AllSteps step P s as) (hrun : exec step s as = some s')
    (hstuck : ∀ a, own a = true → P s' a → step s' a = none) : final s' := by
  by_contra hfinal
  obtain ⟨a, t, hown, ha, hstep⟩ := h.enabled s' (h.run hs hP hrun).1 hfinal
  rw [hstuck a hown ha] at hstep
  cases hstep

end Gateway.Lib.Progress
