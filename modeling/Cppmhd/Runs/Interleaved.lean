import Cppmhd.Runs.System
import Mathlib.Logic.Function.Basic

/-!
# Components that take turns

Components with a state of their own work on one shared state, one step at a time and in any order.
What a component keeps by its own steps, whatever the shared state is, holds in every run of all of
them (`own_invariant`).
-/

namespace Runs

variable {ι Shared Own : Type*}

/-- A component: the states that it starts with, and its steps on the shared state and its own. -/
structure Component (Shared Own : Type*) where
  init : Own → Prop
  step : Shared → Own → Shared → Own → Prop

/-- The shared state beside the states of the components. -/
structure Joint (ι Shared Own : Type*) where
  shared : Shared
  own : ι → Own

variable [DecidableEq ι]

/-- Any number of copies of a component take turns. -/
def interleaved (ι : Type*) [DecidableEq ι] (init : Shared → Prop) (c : Component Shared Own) :
    System (Joint ι Shared Own) where
  init s := init s.shared ∧ ∀ i, c.init (s.own i)
  step s s' := ∃ i own, c.step s.shared (s.own i) s'.shared own ∧
    s'.own = Function.update s.own i own

variable {init : Shared → Prop} {c : Component Shared Own} {s s' : Joint ι Shared Own}

/-- What the own steps keep holds of every component. -/
theorem own_invariant {I : Own → Prop} (start : ∀ own, c.init own → I own)
    (kept : ∀ shared own shared' own', I own → c.step shared own shared' own' → I own')
    (reachable : (interleaved ι init c).Reachable s) (i : ι) : I (s.own i) := by
  have stable : (interleaved ι init c).Stable fun s => ∀ i, I (s.own i) := by
    rintro s s' - holds ⟨i, own, step, next⟩ j
    rw [next]
    by_cases same : j = i
    · subst same
      rw [Function.update_self]
      exact kept _ _ _ _ (holds j) step
    · rw [Function.update_of_ne same]
      exact holds j
  exact stable.reachable (fun s first i => start _ (first.2 i)) reachable i

end Runs
