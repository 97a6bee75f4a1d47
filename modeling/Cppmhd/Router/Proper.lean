import Cppmhd.Router.Lookup
import Cppmhd.Words.Hereditary

/-!
# Proper tables

The table of a valid tree is deterministic: no route is stored twice, a wildcard stands alone at its
place, a parameter ends its segment and a catch-all its route (`Valid.proper`).
-/

open Words Table

namespace Cppmhd

variable {Ctrl : Type}

/-- What holds of a table at its beginning. -/
structure Local (E : Table Sym Ctrl) : Prop where
  value_unique : ∀ {b b' : Ctrl}, ([], b) ∈ E → ([], b') ∈ E → b = b'
  wild_unique : ∀ {w w' : Wild} {π π' : Pattern} {b b' : Ctrl}, (.wild w :: π, b) ∈ E →
    (.wild w' :: π', b') ∈ E → w = w'
  wild_alone : ∀ {w : Wild} {π π' : Pattern} {x : Char} {b b' : Ctrl}, (.wild w :: π, b) ∈ E →
    (.lit x :: π', b') ∉ E
  wild_kind : ∀ {w : Wild} {π : Pattern} {b : Ctrl}, (.wild w :: π, b) ∈ E →
    (w.type = .CATCH_ALL ∧ π = []) ∨ (w.type = .PARAM ∧ (π = [] ∨ ∃ ρ, π = .lit '/' :: ρ))

/-- Behind a parameter the route ends, or goes on with a slash. -/
theorem Local.param_next {E : Table Sym Ctrl} (here : Local E) {w : Wild} {π : Pattern} {b : Ctrl}
    (isParam : w.type = .PARAM) (stored : (.wild w :: π, b) ∈ E) : π = [] ∨ ∃ ρ, π = .lit '/' :: ρ := by
  rcases here.wild_kind stored with ⟨isCatchAll, -⟩ | ⟨-, next⟩
  · exact absurd (isParam.symm.trans isCatchAll) (by decide)
  · exact next

/-- What holds of a table at every place. -/
abbrev Proper (E : Table Sym Ctrl) : Prop := Hereditary Local E

theorem Proper.after {E : Table Sym Ctrl} (proper : Proper E) (s : Sym) :
    Proper (Table.after s E) :=
  Hereditary.after proper s

/-- A table without wildcards at its beginning. -/
theorem local_of_plain {E : Table Sym Ctrl}
    (value_unique : ∀ {b b' : Ctrl}, ([], b) ∈ E → ([], b') ∈ E → b = b')
    (plain : ∀ w π b, (Sym.wild w :: π, b) ∉ E) : Local E where
  value_unique := value_unique
  wild_unique h _ := absurd h (plain _ _ _)
  wild_alone h := absurd h (plain _ _ _)
  wild_kind h := absurd h (plain _ _ _)

theorem proper_empty : Proper (∅ : Table Sym Ctrl) :=
  hereditary_empty (local_of_plain (fun h => absurd h (Set.notMem_empty _))
    fun _ _ _ => Set.notMem_empty _)

theorem Proper.prepend_lits {E : Table Sym Ctrl} (proper : Proper E) (s : Str) :
    Proper (prepend (lits s) E) := by
  induction s with
  | nil => simpa using proper
  | cons c s ih =>
    have split : prepend (lits (c :: s)) E = prepend [.lit c] (prepend (lits s) E) :=
      prepend_append [Sym.lit c] (lits s) E
    rw [split]
    apply ih.prepend_singleton _ proper_empty.here
    apply local_of_plain
    · rintro b b' ⟨ρ, head, -⟩
      exact absurd head (by simp)
    · rintro w π b ⟨ρ, head, -⟩
      simp at head

section Node

variable {n w : RawNode Ctrl}

theorem WildValid.others (valid : w.WildValid) :
    (w.type = .CATCH_ALL ∧ w.wildBody = own w.handle) ∨
      (w.type = .PARAM ∧ ∀ e ∈ w.wildBody, e.1 = [] ∨ ∃ ρ, e.1 = .lit '/' :: ρ) := by
  cases valid with
  | param isParam wildPath plain leaf single slash below =>
    right
    refine ⟨isParam, ?_⟩
    rintro ⟨π, b⟩ (stored | stored)
    · exact Or.inl stored.1
    · obtain ⟨c, member, stored⟩ := mem_childEntries.mp stored
      obtain ⟨y, ρ, head, -, rfl⟩ := (below c member).entry_head stored
      rw [slash c member, Option.some.injEq] at head
      exact Or.inr ⟨ρ, by rw [head]⟩
  | catchAll isCatchAll wildPath plain leaf handle =>
    left
    refine ⟨isCatchAll, ?_⟩
    rw [RawNode.wildBody, leaf, childEntries_nil, Set.union_empty]

/-- The routes behind a wildcard child. -/
theorem WildValid.proper (valid : w.WildValid) (single : w.children.length ≤ 1)
    (proper : ∀ c ∈ w.children, Proper c.entries) : Proper w.wildBody := by
  have below := WildValid.below valid
  apply Hereditary.intro
  · apply local_of_plain
    · rintro b b' (stored | stored) (stored' | stored')
      · exact Option.some.inj (stored.2.symm.trans stored'.2)
      · exact absurd rfl (childEntries_ne_nil below _ stored')
      · exact absurd rfl (childEntries_ne_nil below _ stored)
      · exact absurd rfl (childEntries_ne_nil below _ stored)
    · rintro w' π b stored
      rcases WildValid.others valid with ⟨-, body⟩ | ⟨-, others⟩
      · rw [body] at stored
        exact List.cons_ne_nil _ _ stored.1
      · rcases others _ stored with head | ⟨ρ, head⟩
        · exact List.cons_ne_nil _ _ head
        · simp at head
  · intro s
    rw [RawNode.wildBody, after_union, after_own, Set.empty_union]
    cases children : w.children with
    | nil =>
      rw [childEntries_nil, after_empty]
      exact proper_empty
    | cons c rest =>
      obtain ⟨-, none⟩ := List.cons.inj (children.symm.trans (only_of_single single children))
      rw [none, childEntries_cons, childEntries_nil, Set.union_empty]
      exact (proper c (children ▸ List.mem_cons_self)).after s

/-- The routes behind a node with a wildcard child. -/
theorem proper_wildBody (valid : w.WildValid) (proper : Proper w.wildBody) (h : Option Ctrl) :
    Proper (own h ∪ prepend [.wild w.wild] w.wildBody) := by
  have beginning : ∀ {π : Pattern} {b : Ctrl},
      (π, b) ∈ (own h ∪ prepend [.wild w.wild] w.wildBody : Table Sym Ctrl) →
      (π = [] ∧ h = some b) ∨ ∃ ρ, π = .wild w.wild :: ρ ∧ (ρ, b) ∈ w.wildBody := by
    rintro π b (stored | ⟨ρ, head, stored⟩)
    · exact Or.inl stored
    · exact Or.inr ⟨ρ, head, stored⟩
  apply Hereditary.intro
  · constructor
    · intro b b' stored stored'
      rcases beginning stored with ⟨-, value⟩ | ⟨ρ, head, -⟩
      · rcases beginning stored' with ⟨-, value'⟩ | ⟨ρ, head, -⟩
        · exact Option.some.inj (value.symm.trans value')
        · exact absurd head (by simp)
      · exact absurd head (by simp)
    · intro w₁ w₂ π π' b b' stored stored'
      rcases beginning stored with ⟨head, -⟩ | ⟨ρ, head, -⟩
      · exact absurd head (by simp)
      · rcases beginning stored' with ⟨head', -⟩ | ⟨ρ', head', -⟩
        · exact absurd head' (by simp)
        · rw [List.cons.injEq, Sym.wild.injEq] at head head'
          exact head.1.trans head'.1.symm
    · intro w₁ π π' x b b' _ stored
      rcases beginning stored with ⟨head, -⟩ | ⟨ρ, head, -⟩
      · exact absurd head (by simp)
      · exact absurd head (by simp)
    · intro w₁ π b stored
      rcases beginning stored with ⟨head, -⟩ | ⟨ρ, head, below⟩
      · exact absurd head (by simp)
      · rw [List.cons.injEq, Sym.wild.injEq] at head
        obtain ⟨rfl, rfl⟩ := head
        rcases WildValid.others valid with ⟨isCatchAll, body⟩ | ⟨isParam, others⟩
        · rw [body] at below
          exact Or.inl ⟨isCatchAll, below.1⟩
        · exact Or.inr ⟨isParam, others _ below⟩
  · intro s
    rw [after_union, after_own, Set.empty_union]
    by_cases same : s = .wild w.wild
    · rw [same, after_prepend_cons, Words.Table.prepend_nil]
      exact proper
    · rw [after_prepend_cons_of_ne same]
      exact proper_empty

/-- The routes behind a plain node. -/
theorem proper_plainBody (valid : n.Valid) (plain : n.wildchild = false)
    (proper : ∀ c ∈ n.children, Proper c.entries) : Proper n.body := by
  have noWild : ∀ w π b, (Sym.wild w :: π, b) ∉ n.body := by
    intro w π b stored
    have none := Valid.wildOf_plain valid plain
    rw [wildOf, dif_pos ⟨w, π, b, stored⟩] at none
    exact absurd none (by simp)
  apply Hereditary.intro
  · apply local_of_plain _ noWild
    intro b b' stored stored'
    obtain ⟨E, others, body⟩ := valid.exists_others
    have same : n.body = own n.handle ∪ E := body n.handle
    rw [same] at stored stored'
    rcases stored with stored | stored
    · rcases stored' with stored' | stored'
      · exact Option.some.inj (stored.2.symm.trans stored'.2)
      · exact absurd rfl (others _ stored')
    · exact absurd rfl (others _ stored)
  · intro s
    cases s with
    | wild w =>
      have none : after (.wild w) n.body = ∅ := by
        apply Set.eq_empty_of_forall_notMem
        rintro ⟨π, b⟩ stored
        exact noWild w π b stored
      rw [none]
      exact proper_empty
    | lit x =>
      by_cases child : ∃ c ∈ n.children, c.path.head? = some x
      · obtain ⟨c, member, head⟩ := child
        rw [Valid.after_child valid plain member head]
        exact (proper c member).after (.lit x)
      · have absent : ∀ c ∈ n.children, c.path.head? ≠ some x := by
          intro c member head
          exact child ⟨c, member, head⟩
        rw [Valid.after_noChild valid plain absent]
        exact proper_empty

theorem Valid.proper (valid : n.Valid) : Proper n.entries := by
  apply RawNode.Valid.walk valid
  · intro n valid plain proper
    rw [RawNode.entries_eq]
    exact (proper_plainBody valid plain proper).prepend_lits n.path
  · intro n w valid wild only child proper
    have single : w.children.length ≤ 1 := by
      cases child with
      | param isParam wildPath plain leaf single => exact single
      | catchAll isCatchAll wildPath plain leaf => simp [leaf]
    rw [RawNode.entries_eq, body_of_wild wild only]
    exact (proper_wildBody child (WildValid.proper child single proper) n.handle).prepend_lits n.path

end Node

theorem RawTree.WellFormed.proper {tree : RawTree Ctrl} (wellFormed : tree.WellFormed) :
    Proper tree.entries := by
  rcases wellFormed with rfl | ⟨valid, -⟩
  · rw [entries_empty]
    exact proper_empty
  · exact Valid.proper valid

end Cppmhd
