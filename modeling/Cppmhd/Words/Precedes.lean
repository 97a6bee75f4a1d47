import Mathlib.Order.Lattice
import Mathlib.Data.List.Infix

/-!
# Words by their first difference

One word precedes another if it has the smaller symbol where the two first differ.  Words of which one
begins with the other are not comparable.
-/

namespace Words

variable {α : Type*} [LinearOrder α] {a b c : List α}

/-- The words differ, and the first has the smaller symbol there. -/
def Precedes : List α → List α → Prop
  | x :: a, y :: b => x < y ∨ x = y ∧ Precedes a b
  | _, _ => False

@[simp] theorem precedes_cons {x y : α} :
    Precedes (x :: a) (y :: b) ↔ x < y ∨ x = y ∧ Precedes a b := Iff.rfl

@[simp] theorem not_precedes_nil : ¬ Precedes a [] := by
  cases a <;> exact id

@[simp] theorem nil_not_precedes : ¬ Precedes [] a := by
  cases a <;> exact id

theorem precedes_irrefl (a : List α) : ¬ Precedes a a := by
  induction a with
  | nil => exact id
  | cons x a ih => simpa using ih

theorem Precedes.trans (first : Precedes a b) (last : Precedes b c) : Precedes a c := by
  induction a generalizing b c with
  | nil => exact absurd first nil_not_precedes
  | cons x a ih =>
    cases b with
    | nil => exact absurd first not_precedes_nil
    | cons y b =>
      cases c with
      | nil => exact absurd last not_precedes_nil
      | cons z c =>
        rw [precedes_cons] at first last ⊢
        rcases first with less | ⟨rfl, first⟩
        · rcases last with less' | ⟨rfl, -⟩
          · exact Or.inl (less.trans less')
          · exact Or.inl less
        · rcases last with less' | ⟨rfl, last⟩
          · exact Or.inl less'
          · exact Or.inr ⟨rfl, ih first last⟩

/-- Two words are comparable unless one begins with the other. -/
theorem not_precedes_iff : ¬ Precedes a b ∧ ¬ Precedes b a ↔ a <+: b ∨ b <+: a := by
  induction a generalizing b with
  | nil => simp
  | cons x a ih =>
    cases b with
    | nil => simp
    | cons y b =>
      rw [precedes_cons, precedes_cons, List.cons_prefix_cons, List.cons_prefix_cons]
      rcases lt_trichotomy x y with less | rfl | greater
      · refine iff_of_false (fun none => none.1 (Or.inl less)) ?_
        rintro (⟨rfl, -⟩ | ⟨rfl, -⟩)
        · exact lt_irrefl _ less
        · exact lt_irrefl _ less
      · simpa using ih
      · refine iff_of_false (fun none => none.2 (Or.inl greater)) ?_
        rintro (⟨rfl, -⟩ | ⟨rfl, -⟩)
        · exact lt_irrefl _ greater
        · exact lt_irrefl _ greater

end Words
