import Mathlib.Logic.Relation

/-!
# Runs of transition systems

Reachable states, and properties that a run keeps once it has them.
-/

namespace Runs

/-- A transition system. -/
structure System (State : Type*) where
  init : State → Prop
  step : State → State → Prop

namespace System

variable {State : Type*} {S : System State} {s s' : State}

/-- A run from one state to another. -/
abbrev Run (S : System State) : State → State → Prop := Relation.ReflTransGen S.step

/-- The states that a run reaches. -/
def Reachable (S : System State) (s : State) : Prop := ∃ i, S.init i ∧ S.Run i s

theorem Reachable.of_init (init : S.init s) : S.Reachable s := ⟨s, init, .refl⟩

theorem Reachable.step (reachable : S.Reachable s) (step : S.step s s') : S.Reachable s' := by
  obtain ⟨i, init, run⟩ := reachable
  exact ⟨i, init, run.tail step⟩

theorem Reachable.run (reachable : S.Reachable s) (run : S.Run s s') : S.Reachable s' := by
  obtain ⟨i, init, run'⟩ := reachable
  exact ⟨i, init, run'.trans run⟩

/-- A property that every step from a reachable state keeps. -/
def Stable (S : System State) (I : State → Prop) : Prop :=
  ∀ s s', S.Reachable s → I s → S.step s s' → I s'

/-- A stable property holds from where it holds once. -/
theorem Stable.run {I : State → Prop} (stable : S.Stable I) (reachable : S.Reachable s) (holds : I s)
    (run : S.Run s s') : I s' := by
  induction run with
  | refl => exact holds
  | tail run step ih => exact stable _ _ (reachable.run run) ih step

/-- A stable property that holds at first is an invariant. -/
theorem Stable.reachable {I : State → Prop} (stable : S.Stable I) (init : ∀ s, S.init s → I s)
    (reachable : S.Reachable s) : I s := by
  obtain ⟨i, start, run⟩ := reachable
  exact stable.run (.of_init start) (init i start) run

end System

end Runs
