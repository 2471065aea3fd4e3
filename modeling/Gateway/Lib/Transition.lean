/-
  Gateway.Lib.Transition

  Runs of a transition system `step : σ → α → Option σ`; an action that is not
  enabled in a state has no successor.

  `Reachable step P init` are the states of the runs whose steps all meet the
  condition `P`, a condition on the state before the step and the action; a
  property of the first state that such steps keep holds of all of them
  (`Reachable.invariant`).

  `AllSteps` and `AllStates` speak about one run, given by its actions.  Where a
  property of states is kept exactly by the steps that meet a condition, it holds
  all along a run exactly when all steps of the run meet the condition
  (`allStates_iff_allSteps`).
-/

import Mathlib.Data.List.Basic

namespace Gateway.Lib.Transition

variable {σ α : Type}

/-! ## Reachable states -/

/-- The states that runs from `init` reach by steps that meet `P`. -/
inductive Reachable (step : σ → α → Option σ) (P : σ → α → Prop) (init : σ) : σ → Prop where
  | init : Reachable step P init init
  | step {s s' : σ} {a : α} : Reachable step P init s → P s a → step s a = some s' →
      Reachable step P init s'

/-- What holds at first and is kept by the steps holds in every reachable state. -/
theorem Reachable.invariant {step : σ → α → Option σ} {P : σ → α → Prop} {init s : σ}
    {I : σ → Prop} (hr : Reachable step P init s) (hinit : I init)
    (hstep : ∀ s a s', I s → P s a → step s a = some s' → I s') : I s := by
  induction hr with
  | init => exact hinit
  | step _ hP hs ih => exact hstep _ _ _ ih hP hs

/-- A part of a larger system: where every step of the whole is a step of the part, or leaves the
    part alone, the part is in a state that it reaches on its own. -/
theorem Reachable.project {τ β : Type} {step : σ → α → Option σ} {P : σ → α → Prop}
    {partStep : τ → β → Option τ} {Q : τ → β → Prop} {part : σ → τ} {init s : σ}
    (hr : Reachable step P init s)
    (hstep : ∀ s a s', P s a → step s a = some s' →
      part s' = part s ∨ ∃ b, Q (part s) b ∧ partStep (part s) b = some (part s')) :
    Reachable partStep Q (part init) (part s) := by
  induction hr with
  | init => exact .init
  | step _ hP hs ih =>
    rcases hstep _ _ _ hP hs with hsame | ⟨b, hb, hpart⟩
    · rw [hsame]
      exact ih
    · exact ih.step hb hpart

/-! ## Runs -/

section Runs

variable (step : σ → α → Option σ)

/-- The state behind the actions of a run. -/
def exec : σ → List α → Option σ
  | s, [] => some s
  | s, a :: as =>
    match step s a with
    | none => none
    | some s' => exec s' as

/-- Every step of the run meets the condition. -/
def AllSteps (P : σ → α → Prop) : σ → List α → Prop
  | _, [] => True
  | s, a :: as => P s a ∧ ∀ s', step s a = some s' → AllSteps P s' as

/-- The property holds in every state of the run. -/
def AllStates (Q : σ → Prop) : σ → List α → Prop
  | s, [] => Q s
  | s, a :: as => Q s ∧ ∀ s', step s a = some s' → AllStates Q s' as

variable {step}

/-- A run whose actions all meet the condition. -/
theorem Reachable.exec {P : σ → α → Prop} {init s s' : σ} {as : List α}
    (hr : Reachable step P init s) (hP : ∀ a ∈ as, ∀ t, P t a)
    (hrun : exec step s as = some s') : Reachable step P init s' := by
  induction as generalizing s with
  | nil =>
    obtain rfl := Option.some_inj.mp hrun
    exact hr
  | cons a as ih =>
    cases hstep : step s a with
    | none =>
      rw [Transition.exec, hstep] at hrun
      cases hrun
    | some t =>
      rw [Transition.exec, hstep] at hrun
      exact ih (hr.step (hP a (List.mem_cons_self ..) s) hstep)
        (fun b hb => hP b (List.mem_cons_of_mem _ hb)) hrun

/-- A run whose steps all meet the condition. -/
theorem reachable_of_allSteps {P : σ → α → Prop} {init s s' : σ} {as : List α}
    (hr : Reachable step P init s) (hP : AllSteps step P s as)
    (hrun : exec step s as = some s') : Reachable step P init s' := by
  induction as generalizing s with
  | nil =>
    obtain rfl := Option.some_inj.mp hrun
    exact hr
  | cons a as ih =>
    cases hstep : step s a with
    | none =>
      rw [Transition.exec, hstep] at hrun
      cases hrun
    | some t =>
      rw [Transition.exec, hstep] at hrun
      exact ih (hr.step hP.1 hstep) (hP.2 t hstep) hrun

/-- A run that begins with a step. -/
theorem exec_cons {s s' : σ} {a : α} {as : List α} (h : exec step s (a :: as) = some s') :
    ∃ t, step s a = some t ∧ exec step t as = some s' := by
  cases ht : step s a with
  | none =>
    rw [Transition.exec, ht] at h
    cases h
  | some t =>
    rw [Transition.exec, ht] at h
    exact ⟨t, rfl, h⟩

/-- A run and one more step. -/
theorem exec_concat {s : σ} {as : List α} {a : α} :
    exec step s (as ++ [a]) = (exec step s as).bind fun t => step t a := by
  induction as generalizing s with
  | nil =>
    show (match step s a with | none => none | some s' => Transition.exec step s' []) = step s a
    cases step s a <;> rfl
  | cons b as ih =>
    rw [List.cons_append, Transition.exec, Transition.exec]
    cases step s b with
    | none => rfl
    | some t => exact ih

/-- A run in two parts. -/
theorem exec_append {s : σ} {as bs : List α} :
    exec step s (as ++ bs) = (exec step s as).bind fun t => exec step t bs := by
  induction as generalizing s with
  | nil => rfl
  | cons a as ih =>
    rw [List.cons_append, Transition.exec, Transition.exec]
    cases step s a with
    | none => rfl
    | some t => exact ih

theorem allSteps_concat {P : σ → α → Prop} {s : σ} {as : List α} {a : α} :
    AllSteps step P s (as ++ [a]) ↔
      AllSteps step P s as ∧ ∀ t, exec step s as = some t → P t a := by
  induction as generalizing s with
  | nil =>
    constructor
    · rintro ⟨hP, -⟩
      refine ⟨trivial, fun t ht => ?_⟩
      obtain rfl := Option.some_inj.mp ht
      exact hP
    · rintro ⟨-, hP⟩
      exact ⟨hP s rfl, fun _ _ => trivial⟩
  | cons b as ih =>
    constructor
    · rintro ⟨hPb, hrest⟩
      refine ⟨⟨hPb, fun t ht => (ih.mp (hrest t ht)).1⟩, fun t ht => ?_⟩
      rw [Transition.exec] at ht
      cases hstep : step s b with
      | none => rw [hstep] at ht; cases ht
      | some u =>
        rw [hstep] at ht
        exact (ih.mp (hrest u hstep)).2 t ht
    · rintro ⟨⟨hPb, hrest⟩, hlast⟩
      refine ⟨hPb, fun t ht => ih.mpr ⟨hrest t ht, fun u hu => hlast u ?_⟩⟩
      rw [Transition.exec, ht]
      exact hu

/-- A condition on the actions alone. -/
theorem allSteps_of_forall {P : σ → α → Prop} {s : σ} {as : List α}
    (h : ∀ a ∈ as, ∀ t, P t a) : AllSteps step P s as := by
  induction as generalizing s with
  | nil => trivial
  | cons a as ih =>
    exact ⟨h a (List.mem_cons_self ..) s,
      fun _ _ => ih fun b hb => h b (List.mem_cons_of_mem _ hb)⟩

/-- The first state of a run. -/
theorem AllStates.head {Q : σ → Prop} {s : σ} {as : List α} (h : AllStates step Q s as) : Q s := by
  cases as with
  | nil => exact h
  | cons a as => exact h.1

/-- The last state of a run. -/
theorem AllStates.last {Q : σ → Prop} {s s' : σ} {as : List α} (h : AllStates step Q s as)
    (hrun : exec step s as = some s') : Q s' := by
  induction as generalizing s with
  | nil =>
    obtain rfl := Option.some_inj.mp hrun
    exact h
  | cons a as ih =>
    cases ht : step s a with
    | none =>
      rw [Transition.exec, ht] at hrun
      cases hrun
    | some t =>
      rw [Transition.exec, ht] at hrun
      exact ih (h.2 t ht) hrun

/-- A condition that can be decided can be decided along a run. -/
instance decidableAllSteps {P : σ → α → Prop} [∀ s a, Decidable (P s a)] :
    ∀ (s : σ) (as : List α), Decidable (AllSteps step P s as)
  | _, [] => isTrue trivial
  | s, a :: as =>
    match hs : step s a with
    | none => decidable_of_iff (P s a)
        ⟨fun h => ⟨h, fun s' hs' => by rw [hs] at hs'; cases hs'⟩, fun h => h.1⟩
    | some s' =>
      have : Decidable (AllSteps step P s' as) := decidableAllSteps s' as
      decidable_of_iff (P s a ∧ AllSteps step P s' as)
        ⟨fun h => ⟨h.1, fun t ht => by rw [hs] at ht; cases ht; exact h.2⟩,
          fun h => ⟨h.1, h.2 s' hs⟩⟩

/-- Steps that keep an invariant, in a run of actions that meet `C`. -/
theorem AllSteps.mono {I : σ → Prop} {P P' : σ → α → Prop} {C : α → Prop}
    (hstep : ∀ s a s', I s → C a → step s a = some s' → P s a → P' s a ∧ I s')
    {s : σ} {as : List α} (hs : I s) (hC : ∀ a ∈ as, C a) (hrun : exec step s as ≠ none)
    (hP : AllSteps step P s as) : AllSteps step P' s as := by
  induction as generalizing s with
  | nil => trivial
  | cons a as ih =>
    cases ht : step s a with
    | none =>
      rw [Transition.exec, ht] at hrun
      exact absurd rfl hrun
    | some t =>
      rw [Transition.exec, ht] at hrun
      obtain ⟨hP', hI⟩ := hstep s a t hs (hC a (List.mem_cons_self ..)) ht hP.1
      refine ⟨hP', fun t' ht' => ?_⟩
      obtain rfl : t' = t := Option.some_inj.mp (ht'.symm.trans ht)
      exact ih hI (fun b hb => hC b (List.mem_cons_of_mem _ hb)) hrun (hP.2 t' ht)

/-- A run of actions that meet `C`, along which every step either meets the condition and keeps
    the invariant, or breaks the property. -/
theorem allStates_iff_allSteps {I Q : σ → Prop} {P : σ → α → Prop} {C : α → Prop}
    (hI : ∀ s, I s → Q s)
    (hgood : ∀ s a s', I s → C a → step s a = some s' → P s a → I s')
    (hbad : ∀ s a s', I s → step s a = some s' → ¬ P s a → ¬ Q s')
    {s : σ} {as : List α} (hs : I s) (hC : ∀ a ∈ as, C a) (hrun : exec step s as ≠ none) :
    AllStates step Q s as ↔ AllSteps step P s as := by
  induction as generalizing s with
  | nil => exact ⟨fun _ => trivial, fun _ => hI s hs⟩
  | cons a as ih =>
    have hCa := hC a (List.mem_cons_self ..)
    have hCas : ∀ b ∈ as, C b := fun b hb => hC b (List.mem_cons_of_mem _ hb)
    cases hstep : step s a with
    | none =>
      rw [Transition.exec, hstep] at hrun
      exact absurd rfl hrun
    | some s' =>
      rw [Transition.exec, hstep] at hrun
      constructor
      · intro hall
        -- the property in the next state leaves only the good case
        have hQ' : Q s' := (hall.2 s' hstep).head
        have hP : P s a := by
          by_contra hP
          exact hbad s a s' hs hstep hP hQ'
        refine ⟨hP, fun t ht => ?_⟩
        obtain rfl : t = s' := Option.some_inj.mp (ht.symm.trans hstep)
        exact (ih (hgood s a t hs hCa hstep hP) hCas hrun).mp (hall.2 t hstep)
      · intro hall
        refine ⟨hI s hs, fun t ht => ?_⟩
        obtain rfl : t = s' := Option.some_inj.mp (ht.symm.trans hstep)
        exact (ih (hgood s a t hs hCa hstep hall.1) hCas hrun).mpr (hall.2 t hstep)

end Runs

end Gateway.Lib.Transition
