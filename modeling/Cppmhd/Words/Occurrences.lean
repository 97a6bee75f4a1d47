import Mathlib.Data.List.Infix

/-!
# Pieces between the occurrences of a word

A word is cut at the occurrences of a separator, which is a word itself: the first one, the first one
behind it, and so on.
-/

namespace Words

variable {α : Type*} {sep : List α}

/-- The pieces of a word between the successive occurrences of a separator, from left to right. -/
inductive Between (sep : List α) : List α → List (List α) → Prop
  | last {s : List α} (none : ¬ sep <:+: s) : Between sep s [s]
  | next {pre rest : List α} {ps : List (List α)}
      (first : ∀ a b, pre ++ sep ++ rest = a ++ sep ++ b → pre.length ≤ a.length)
      (behind : Between sep rest ps) : Between sep (pre ++ sep ++ rest) (pre :: ps)

variable [DecidableEq α]

/-- The scan of a word, with the piece so far and the number of symbols to skip. -/
def betweenFrom (sep : List α) : List α → List α → ℕ → List (List α)
  | piece, [], _ => [piece]
  | piece, x :: s, 0 =>
    if sep <+: x :: s then piece :: betweenFrom sep [] s (sep.length - 1)
    else betweenFrom sep (piece ++ [x]) s 0
  | piece, _ :: s, skip + 1 => betweenFrom sep piece s skip

/-- The pieces between the occurrences of a separator. -/
def between (sep s : List α) : List (List α) := betweenFrom sep [] s 0

theorem betweenFrom_skip (piece skipped s : List α) :
    betweenFrom sep piece (skipped ++ s) skipped.length = betweenFrom sep piece s 0 := by
  induction skipped with
  | nil => rfl
  | cons x skipped ih => rw [List.cons_append, List.length_cons, betweenFrom, ih]

/-- The scan stops at the end of the word or behind the first occurrence. -/
theorem betweenFrom_cases (nonempty : sep ≠ []) (piece s : List α) :
    ¬ sep <:+: s ∧ betweenFrom sep piece s 0 = [piece ++ s] ∨
      ∃ pre rest, s = pre ++ sep ++ rest ∧
        (∀ a b, pre ++ sep ++ rest = a ++ sep ++ b → pre.length ≤ a.length) ∧
          betweenFrom sep piece s 0 = (piece ++ pre) :: between sep rest := by
  induction s generalizing piece with
  | nil =>
    refine Or.inl ⟨fun inside => nonempty (List.infix_nil.mp inside), ?_⟩
    rw [betweenFrom, List.append_nil]
  | cons x s ih =>
    by_cases here : sep <+: x :: s
    · right
      obtain ⟨rest, whole⟩ := here
      obtain ⟨y, tail, rfl⟩ := List.exists_cons_of_ne_nil nonempty
      obtain ⟨rfl, rfl⟩ := List.cons.inj whole
      refine ⟨[], rest, rfl, fun _ _ _ => Nat.zero_le _, ?_⟩
      rw [betweenFrom, if_pos ⟨rest, rfl⟩, List.append_nil]
      exact congrArg (piece :: ·) (betweenFrom_skip [] tail rest)
    · rw [betweenFrom, if_neg here]
      rcases ih (piece ++ [x]) with ⟨none, scan⟩ | ⟨pre, rest, rfl, first, scan⟩
      · left
        refine ⟨fun inside => ?_, by rw [scan, List.append_assoc]; rfl⟩
        rcases List.infix_cons_iff.mp inside with begins | later
        · exact here begins
        · exact none later
      · right
        refine ⟨x :: pre, rest, rfl, fun a b same => ?_, by rw [scan, List.append_assoc]; rfl⟩
        cases a with
        | nil => exact absurd ⟨b, same.symm⟩ here
        | cons z a => exact Nat.succ_le_succ (first a b (List.cons.inj same).2)

theorem between_spec (nonempty : sep ≠ []) (s : List α) : Between sep s (between sep s) := by
  induction length : s.length using Nat.strong_induction_on generalizing s with
  | _ n ih =>
    rcases betweenFrom_cases nonempty [] s with ⟨none, scan⟩ | ⟨pre, rest, rfl, first, scan⟩
    · rw [between, scan]
      exact .last none
    · rw [between, scan]
      have positive := List.length_pos_iff.mpr nonempty
      refine .next first (ih rest.length ?_ rest rfl)
      rw [← length, List.length_append, List.length_append]
      omega

end Words
