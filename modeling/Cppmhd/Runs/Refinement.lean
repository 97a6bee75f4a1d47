import Cppmhd.Runs.System

/-!
# Two levels of one system

A view of the states of a system under which it does what another system does, step for step, and
nothing else.
-/

namespace Runs

variable {State State' : Type*} {S : System State} {T : System State'} {view : State → State'}

/-- Seen by `view`, the steps of `S` are the steps of `T`. -/
structure Implements (S : System State) (T : System State') (view : State → State') : Prop where
  init : ∀ s, S.init s → T.init (view s)
  start : ∀ t, T.init t → ∃ s, S.init s ∧ view s = t
  step : ∀ s s', S.Reachable s → S.step s s' → T.step (view s) (view s')
  lift : ∀ s t, S.Reachable s → T.step (view s) t → ∃ s', S.step s s' ∧ view s' = t

namespace Implements

variable {s : State} {t : State'}

theorem reachable (implements : Implements S T view) (reachable : S.Reachable s) :
    T.Reachable (view s) := by
  obtain ⟨i, first, run⟩ := reachable
  induction run with
  | refl => exact .of_init (implements.init i first)
  | tail run step ih => exact ih.step (implements.step _ _ ⟨i, first, run⟩ step)

theorem lift_reachable (implements : Implements S T view) (reachable : T.Reachable t) :
    ∃ s, S.Reachable s ∧ view s = t := by
  obtain ⟨i, first, run⟩ := reachable
  induction run with
  | refl =>
    obtain ⟨s, start, same⟩ := implements.start i first
    exact ⟨s, .of_init start, same⟩
  | tail run step ih =>
    obtain ⟨s, reachable, rfl⟩ := ih
    obtain ⟨s', step', same⟩ := implements.lift _ _ reachable step
    exact ⟨s', reachable.step step', same⟩

end Implements

end Runs
