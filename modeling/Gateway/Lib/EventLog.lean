/-
  Gateway.Lib.EventLog

  Logs in which every event is justified by the events before it.

  A log grows at its end, so what justifies an event stays in front of it, and it is
  enough to look at the last event (`justified_concat`).
-/

import Mathlib.Data.List.Infix

namespace Gateway.Lib.EventLog

variable {ε : Type} {P : List ε → ε → Prop} {log : List ε} {e : ε}

/-- Every event of the log is justified by those before it. -/
def Justified (P : List ε → ε → Prop) (log : List ε) : Prop :=
  ∀ pre e, pre ++ [e] <+: log → P pre e

theorem justified_nil : Justified P [] := by
  intro pre e h
  have hnil := List.prefix_nil.mp h
  exact absurd hnil (List.append_ne_nil_of_right_ne_nil _ (List.cons_ne_nil e []))

/-- One more event. -/
theorem justified_concat : Justified P (log ++ [e]) ↔ Justified P log ∧ P log e := by
  constructor
  · intro h
    exact ⟨fun pre e' hpre => h pre e' (hpre.trans (List.prefix_append _ _)),
      h log e List.prefix_rfl⟩
  · rintro ⟨hlog, he⟩ pre e' hpre
    rcases List.prefix_concat_iff.mp hpre with heq | hpre
    · -- it is the last one
      obtain ⟨rfl, hlast⟩ := List.append_inj' heq rfl
      obtain rfl := List.singleton_inj.mp hlast
      exact he
    · exact hlog pre e' hpre

/-- An event of the log stands behind what justifies it. -/
theorem Justified.of_mem (h : Justified P log) (hmem : e ∈ log) :
    ∃ pre, pre ++ [e] <+: log ∧ P pre e := by
  obtain ⟨pre, post, hsplit⟩ := List.append_of_mem hmem
  have hpre : pre ++ [e] <+: log := ⟨post, by rw [hsplit, List.append_assoc]; rfl⟩
  exact ⟨pre, hpre, h pre e hpre⟩

end Gateway.Lib.EventLog
