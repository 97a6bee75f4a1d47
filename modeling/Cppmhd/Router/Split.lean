import Cppmhd.Router.Utils
import Cppmhd.Words.Occurrences

/-!
# Splitting at a separator

`split` looks for any character of the separator and skips as many characters as the whole separator
has.  `split_iff` says which strings it cuts at the separator nevertheless.
-/

open Words

namespace Cppmhd

/-- No character of the string is one of the separator. -/
def Spares (sep s : Str) : Prop := ∀ c ∈ s, c ∉ sep

variable {sep : Str}

theorem findFirstOf_cases (sep s : Str) :
    Spares sep s ∧ findFirstOf sep s = none ∨
      ∃ pre x rest, s = pre ++ x :: rest ∧ Spares sep pre ∧ x ∈ sep ∧
        findFirstOf sep s = some pre.length := by
  induction s with
  | nil => exact Or.inl ⟨List.forall_mem_nil _, rfl⟩
  | cons c s ih =>
    by_cases here : c ∈ sep
    · exact Or.inr ⟨[], c, s, rfl, List.forall_mem_nil _, here, by simp [findFirstOf, here]⟩
    · rcases ih with ⟨spares, none⟩ | ⟨pre, x, rest, rfl, spares, found, first⟩
      · exact Or.inl ⟨List.forall_mem_cons.mpr ⟨here, spares⟩, by simp [findFirstOf, here, none]⟩
      · refine Or.inr ⟨c :: pre, x, rest, rfl, List.forall_mem_cons.mpr ⟨here, spares⟩, found, ?_⟩
        simp [findFirstOf, here, first]

theorem findFirstOf_spares {s : Str} (spares : Spares sep s) : findFirstOf sep s = none := by
  rcases findFirstOf_cases sep s with ⟨-, none⟩ | ⟨pre, x, rest, rfl, -, found, -⟩
  · exact none
  · exact absurd found (spares x (List.mem_append_right _ List.mem_cons_self))

theorem findFirstOf_next {pre rest : Str} {x : Char} (spares : Spares sep pre) (found : x ∈ sep) :
    findFirstOf sep (pre ++ x :: rest) = some pre.length := by
  induction pre with
  | nil => simp [findFirstOf, found]
  | cons c pre ih =>
    obtain ⟨here, spares⟩ := List.forall_mem_cons.mp spares
    simp [findFirstOf, here, ih spares]

/-- What a round appends for the text in front of a separator. -/
def keptPiece (piece : Str) : List Str := if piece = [] then [] else [piece]

theorem filter_cons_kept (piece : Str) (ps : List Str) :
    (piece :: ps).filter (· ≠ []) = keptPiece piece ++ ps.filter (· ≠ []) := by
  by_cases empty : piece = [] <;> simp [keptPiece, empty]

/-! ## One round -/

section Round

variable {rounds : ℕ} {out : List Str}

theorem splitLoop_last {s : Str} (spares : Spares sep s) :
    splitLoop (rounds + 1) s out sep = some (out ++ keptPiece s) := by
  rw [splitLoop, findFirstOf_spares spares]
  by_cases empty : s = [] <;> simp [keptPiece, empty, List.length_pos_iff]

theorem splitLoop_round {pre rest : Str} {x : Char} (spares : Spares sep pre) (member : x ∈ sep) :
    splitLoop (rounds + 1) (pre ++ x :: rest) out sep =
      (substr (pre ++ x :: rest) (pre.length + sep.length)).bind fun rest =>
        splitLoop rounds rest (out ++ keptPiece pre) sep := by
  rw [splitLoop, findFirstOf_next spares member]
  cases pre with
  | nil => simp [keptPiece]
  | cons c pre => simp [keptPiece]

/-- Whatever the loop appends has no character of the separator. -/
theorem splitLoop_spares {s : Str} {r : List Str} (done : splitLoop rounds s out sep = some r) :
    ∃ qs, r = out ++ qs ∧ ∀ q ∈ qs, Spares sep q := by
  have one : ∀ {piece : Str}, Spares sep piece → ∀ q ∈ keptPiece piece, Spares sep q := by
    intro piece spares q member
    unfold keptPiece at member
    split at member
    · exact absurd member List.not_mem_nil
    · rwa [List.mem_singleton.mp member]
  induction rounds generalizing s out with
  | zero => exact absurd done nofun
  | succ rounds ih =>
    rcases findFirstOf_cases sep s with ⟨spares, -⟩ | ⟨pre, x, rest, rfl, spares, member, -⟩
    · rw [splitLoop_last spares] at done
      exact ⟨keptPiece s, (Option.some.inj done).symm, one spares⟩
    · rw [splitLoop_round spares member] at done
      obtain ⟨rest, -, later⟩ := Option.bind_eq_some_iff.mp done
      obtain ⟨qs, rfl, below⟩ := ih later
      refine ⟨keptPiece pre ++ qs, List.append_assoc _ _ _, fun q inside => ?_⟩
      rcases List.mem_append.mp inside with here | there
      · exact one spares q here
      · exact below q there

/-- Where the pieces spare the separator, the loop finds its occurrences. -/
theorem splitLoop_between (nonempty : sep ≠ []) {s : Str} {ps : List Str} (between : Between sep s ps)
    (spares : ∀ piece ∈ ps, Spares sep piece) (enough : s.length < rounds) :
    splitLoop rounds s out sep = some (out ++ ps.filter (· ≠ [])) := by
  induction between generalizing rounds out with
  | @last s none =>
    obtain ⟨rounds, rfl⟩ := Nat.exists_eq_succ_of_ne_zero (Nat.ne_zero_of_lt enough)
    rw [splitLoop_last (List.forall_mem_singleton.mp spares), filter_cons_kept, List.filter_nil,
      List.append_nil]
  | @next pre rest ps first behind ih =>
    obtain ⟨rounds, rfl⟩ := Nat.exists_eq_succ_of_ne_zero (Nat.ne_zero_of_lt enough)
    obtain ⟨here, later⟩ := List.forall_mem_cons.mp spares
    obtain ⟨x, tail, rfl⟩ := List.exists_cons_of_ne_nil nonempty
    have cut : substr (pre ++ x :: tail ++ rest) (pre.length + (x :: tail).length) = some rest := by
      rw [← List.length_append, substr, if_pos (by simp), List.drop_left]
    have shorter : rest.length < rounds := by
      simp only [List.length_append, List.length_cons] at enough
      omega
    have whole : pre ++ x :: tail ++ rest = pre ++ x :: (tail ++ rest) := List.append_assoc ..
    have round : splitLoop (rounds + 1) (pre ++ x :: tail ++ rest) out (x :: tail) =
        splitLoop rounds rest (out ++ keptPiece pre) (x :: tail) := by
      rw [whole, splitLoop_round here List.mem_cons_self, ← whole, cut, Option.bind_some]
    rw [round, ih later shorter, filter_cons_kept, List.append_assoc]

end Round

/-- A string is cut at the separator if and only if every character of the separator in it belongs to one
of the occurrences. -/
theorem split_iff (nonempty : sep ≠ []) (input : Str) (out : List Str) :
    split input out sep = some (out ++ (between sep input).filter (· ≠ [])) ↔
      ∀ piece ∈ between sep input, ∀ c ∈ piece, c ∉ sep := by
  constructor
  · intro done piece member
    obtain ⟨qs, same, spares⟩ := splitLoop_spares done
    by_cases empty : piece = []
    · rw [empty]
      exact List.forall_mem_nil _
    · apply spares piece
      rw [← List.append_cancel_left same]
      exact List.mem_filter.mpr ⟨member, by simpa using empty⟩
  · intro spares
    exact splitLoop_between nonempty (between_spec nonempty input) spares (Nat.lt_succ_self _)

theorem split_colons : split "a::b".toList [] "::".toList = some ["a".toList, "b".toList] := by
  refine (split_iff (by decide) "a::b".toList []).mpr ?_
  have pieces : between "::".toList "a::b".toList = ["a".toList, "b".toList] := by decide
  rw [pieces]
  simp

/-- A lone comma is taken for the separator, and at the end of the string the skip throws. -/
theorem split_lone_comma :
    between ", ".toList "a,b".toList = ["a,b".toList] ∧
      split "a,b".toList [] ", ".toList = some ["a".toList] ∧ split "a,".toList [] ", ".toList = none := by
  decide

end Cppmhd
