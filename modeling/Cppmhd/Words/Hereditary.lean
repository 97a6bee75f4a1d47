import Cppmhd.Words.Table

/-!
# Hereditary properties of tables

A property is hereditary on a table when every residual of the table has it.  `Hereditary.intro`
builds it from the table and its first residuals, `Hereditary.after` passes to a residual.
-/

namespace Words.Table

variable {σ β : Type*}

/-- What is left of the keys that begin with the word `u`. -/
def residual (u : List σ) (E : Table σ β) : Table σ β := u.foldl (fun E s => after s E) E

/-- Every residual of the table has the property. -/
def Hereditary (P : Table σ β → Prop) (E : Table σ β) : Prop := ∀ u, P (residual u E)

variable {P : Table σ β → Prop} {E : Table σ β}

theorem Hereditary.here (all : Hereditary P E) : P E := all []

theorem Hereditary.after (all : Hereditary P E) (s : σ) : Hereditary P (after s E) :=
  fun u => all (s :: u)

theorem Hereditary.intro (here : P E) (below : ∀ s, Hereditary P (Table.after s E)) :
    Hereditary P E := by
  intro u
  cases u with
  | nil => exact here
  | cons s u => exact below s u

theorem residual_empty (u : List σ) : residual u (∅ : Table σ β) = ∅ := by
  induction u with
  | nil => rfl
  | cons s u ih => exact ih

theorem hereditary_empty (here : P ∅) : Hereditary P ∅ := by
  intro u
  rw [residual_empty]
  exact here

/-- A single first symbol. -/
theorem Hereditary.prepend_singleton {s : σ} (here : P (prepend [s] E)) (none : P ∅)
    (all : Hereditary P E) : Hereditary P (prepend [s] E) := by
  apply Hereditary.intro here
  intro t
  by_cases same : t = s
  · subst same
    rw [after_prepend_cons, Table.prepend_nil]
    exact all
  · rw [after_prepend_cons_of_ne same]
    exact hereditary_empty none

end Words.Table
