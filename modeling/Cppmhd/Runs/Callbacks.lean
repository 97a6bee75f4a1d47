import Mathlib.Data.List.Basic

/-!
# Computations that call back

A computation calls with arguments, goes on with the answers and ends with a result.  Run against
a state that answers (`Calling.run`), it makes some calls, and what of the state does not depend on the
answers is what the arguments make of it (`Calling.run_view`).
-/

namespace Runs

variable {α β ρ σ ω : Type*}

/-- A computation that ends, or calls and goes on with the answer. -/
inductive Calling (α β ρ : Type*) where
  | done (result : ρ)
  | call (argument : α) (next : β → Calling α β ρ)

namespace Calling

/-- The computation where a state answers. -/
def run (answer : α → σ → β × σ) : Calling α β ρ → σ → ρ × σ
  | done result, s => (result, s)
  | call a next, s => (next (answer a s).1).run answer (answer a s).2

/-- The computation can make these calls, with these answers, and end with this result. -/
inductive Makes : Calling α β ρ → List (α × β) → ρ → Prop
  | done (result : ρ) : Makes (.done result) [] result
  | call {a : α} {next : β → Calling α β ρ} {b : β} {later : List (α × β)} {result : ρ}
      (rest : Makes (next b) later result) : Makes (.call a next) ((a, b) :: later) result

/-- What every call changes in the same way, whatever the answer, the arguments of all calls change. -/
theorem run_view (answer : α → σ → β × σ) (view : σ → ω) (change : ω → α → ω)
    (each : ∀ a s, view (answer a s).2 = change (view s) a) (t : Calling α β ρ) (s : σ) :
    ∃ calls, t.Makes calls (t.run answer s).1 ∧
      view (t.run answer s).2 = (calls.map Prod.fst).foldl change (view s) := by
  induction t generalizing s with
  | done result => exact ⟨[], .done result, rfl⟩
  | call a next ih =>
    obtain ⟨later, rest, seen⟩ := ih (answer a s).1 (answer a s).2
    refine ⟨(a, (answer a s).1) :: later, .call rest, ?_⟩
    rw [run, seen, each]
    rfl

end Calling

end Runs
