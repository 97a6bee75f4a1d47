import Cppmhd.Router.Entries

/-!
# Registration on tables

What an insertion does, stated on the table of stored routes: `Compat` says that a calculated path
may be added next to a stored route, `Free` that it may be added to a table, and `resolve` is the
route that is then stored.  Where the table has a wildcard on the calculated path, that wildcard is
kept and no parameter is taken from the queue; elsewhere a placeholder takes the next parameter.
-/

open Words Table

namespace Cppmhd

variable {Ctrl : Type}

/-! ## Conflicts -/

/-- The calculated path `t` does not conflict with the stored route. -/
def Compat : Pattern → Str → Prop
  | [], t => t ≠ []
  | _ :: _, [] => True
  | .lit a :: π, x :: t => x ≠ PARAM_CHAR ∧ (a = x → Compat π t)
  | .wild w :: π, x :: t => x = PARAM_CHAR ∧ w.type = .PARAM ∧ Compat π t

/-- The calculated path `t` conflicts with no route of the table. -/
def Free (E : Table Sym Ctrl) (t : Str) : Prop := ∀ e ∈ E, Compat e.1 t

theorem compat_nil_iff (π : Pattern) : Compat π [] ↔ π ≠ [] := by
  cases π with
  | nil => simp [Compat]
  | cons s π => simp [Compat]

theorem compat_lits {s : Str} (free : PARAM_CHAR ∉ s) (π : Pattern) (t : Str) :
    Compat (lits s ++ π) (s ++ t) ↔ Compat π t := by
  induction s with
  | nil => rfl
  | cons c s ih =>
    rw [List.mem_cons, not_or] at free
    simp only [lits_cons, List.cons_append, Compat, true_implies, ih free.2, ne_eq,
      Ne.symm free.1, not_false_eq_true, true_and]

theorem free_union (E F : Table Sym Ctrl) (t : Str) : Free (E ∪ F) t ↔ Free E t ∧ Free F t := by
  simp only [Free, Set.mem_union, or_imp, forall_and]

theorem free_own_cons (h : Option Ctrl) (x : Char) (t : Str) :
    Free (own h : Table Sym Ctrl) (x :: t) := by
  rintro ⟨π, b⟩ ⟨rfl, -⟩
  exact List.cons_ne_nil x t

theorem free_prepend_lits {s : Str} (free : PARAM_CHAR ∉ s) (E : Table Sym Ctrl) (t : Str) :
    Free (prepend (lits s) E) (s ++ t) ↔ Free E t := by
  constructor
  · rintro h ⟨π, b⟩ hπ
    exact (compat_lits free π t).mp (h (lits s ++ π, b) ⟨π, rfl, hπ⟩)
  · rintro h ⟨_, b⟩ ⟨π, rfl, hπ⟩
    exact (compat_lits free π t).mpr (h (π, b) hπ)

theorem free_prepend_wild (w : Wild) (E : Table Sym Ctrl) (x : Char) (t : Str) :
    Free (prepend [.wild w] E) (x :: t) ↔
      ∀ e ∈ E, x = PARAM_CHAR ∧ w.type = .PARAM ∧ Compat e.1 t := by
  constructor
  · rintro h ⟨π, b⟩ hπ
    exact h (.wild w :: π, b) ⟨π, rfl, hπ⟩
  · rintro h ⟨_, b⟩ ⟨π, rfl, hπ⟩
    exact h (π, b) hπ

/-! ## The stored route -/

open scoped Classical in
/-- The wildcard with which routes of the table begin. -/
noncomputable def wildOf (E : Table Sym Ctrl) : Option Wild :=
  if h : ∃ w π b, (Sym.wild w :: π, b) ∈ E then some h.choose else none

theorem wildOf_eq_none {E : Table Sym Ctrl} (absent : ∀ w π b, (Sym.wild w :: π, b) ∉ E) :
    wildOf E = none := by
  rw [wildOf, dif_neg]
  rintro ⟨w, π, b, h⟩
  exact absent w π b h

theorem wildOf_eq_some {E : Table Sym Ctrl} {w : Wild} (stored : ∃ π b, (Sym.wild w :: π, b) ∈ E)
    (unique : ∀ w' π b, (Sym.wild w' :: π, b) ∈ E → w' = w) : wildOf E = some w := by
  have some_wild : ∃ w π b, (Sym.wild w :: π, b) ∈ E := ⟨w, stored⟩
  rw [wildOf, dif_pos some_wild]
  obtain ⟨π, b, h⟩ := some_wild.choose_spec
  exact congrArg some (unique _ π b h)

theorem mem_of_wildOf {E : Table Sym Ctrl} {w : Wild} (wild : wildOf E = some w) :
    ∃ π b, (Sym.wild w :: π, b) ∈ E := by
  rw [wildOf] at wild
  split at wild
  · next stored =>
    rw [← Option.some.inj wild]
    exact stored.choose_spec
  · exact absurd wild (by simp)

/-- Next to at most one handle a wildcard is the only beginning. -/
theorem wildOf_prepend {w : Wild} {E : Table Sym Ctrl} (h : Option Ctrl)
    (live : ∃ π b, (π, b) ∈ E) : wildOf (own h ∪ prepend [.wild w] E) = some w := by
  obtain ⟨π, b, stored⟩ := live
  refine wildOf_eq_some ⟨π, b, Or.inr ⟨π, rfl, stored⟩⟩ ?_
  rintro w' π' b' (own | ⟨ρ, head, -⟩)
  · exact absurd own.1 (List.cons_ne_nil _ _)
  · simp only [List.singleton_append, List.cons.injEq, Sym.wild.injEq] at head
    exact head.1

theorem after_wild_prepend (w : Wild) (E : Table Sym Ctrl) (h : Option Ctrl) :
    after (.wild w) (own h ∪ prepend [.wild w] E) = E := by
  rw [after_union, after_own, Set.empty_union, after_prepend_cons, Words.Table.prepend_nil]

/-- The route stored for a calculated path without any wildcard of the table on it. -/
def patternOf : Str → List Param → Pattern
  | [], _ => []
  | x :: t, params =>
    if x = PARAM_CHAR then
      match params with
      | [] => []
      | p :: params => .wild p.wild :: if p.type = .CATCH_ALL then [] else patternOf t params
    else .lit x :: patternOf t params

/-- The route stored for a calculated path. -/
noncomputable def resolve (E : Table Sym Ctrl) : Str → List Param → Pattern
  | [], _ => []
  | x :: t, params =>
    if x = PARAM_CHAR then
      match wildOf E with
      | some w => .wild w :: resolve (after (.wild w) E) t params
      | none => patternOf (x :: t) params
    else .lit x :: resolve (after (.lit x) E) t params

theorem patternOf_lit {x : Char} (literal : x ≠ PARAM_CHAR) (t : Str) (params : List Param) :
    patternOf (x :: t) params = .lit x :: patternOf t params := if_neg literal

theorem patternOf_wild (t : Str) (p : Param) (params : List Param) :
    patternOf (PARAM_CHAR :: t) (p :: params) =
      .wild p.wild :: if p.type = .CATCH_ALL then [] else patternOf t params := if_pos rfl

theorem patternOf_append {s : Str} (free : PARAM_CHAR ∉ s) (t : Str) (params : List Param) :
    patternOf (s ++ t) params = lits s ++ patternOf t params := by
  induction s with
  | nil => rfl
  | cons c s ih =>
    rw [List.mem_cons, not_or] at free
    rw [List.cons_append, patternOf_lit (Ne.symm free.1), ih free.2, lits_cons, List.cons_append]

theorem patternOf_static {t : Str} (free : PARAM_CHAR ∉ t) (params : List Param) :
    patternOf t params = lits t := by
  simpa [patternOf] using patternOf_append free [] params

theorem wildOf_empty : wildOf (∅ : Table Sym Ctrl) = none :=
  wildOf_eq_none fun _ _ _ => Set.notMem_empty _

theorem resolve_lit {E : Table Sym Ctrl} {x : Char} (literal : x ≠ PARAM_CHAR) (t : Str)
    (params : List Param) :
    resolve E (x :: t) params = .lit x :: resolve (after (.lit x) E) t params := if_neg literal

theorem resolve_wild {E : Table Sym Ctrl} {w : Wild} (stored : wildOf E = some w) (t : Str)
    (params : List Param) :
    resolve E (PARAM_CHAR :: t) params = .wild w :: resolve (after (.wild w) E) t params := by
  simp only [resolve, if_true, stored]

theorem resolve_fresh {E : Table Sym Ctrl} (none : wildOf E = none) (t : Str)
    (params : List Param) :
    resolve E (PARAM_CHAR :: t) params = patternOf (PARAM_CHAR :: t) params := by
  simp only [resolve, if_true, none]

theorem resolve_empty (t : Str) (params : List Param) :
    resolve (∅ : Table Sym Ctrl) t params = patternOf t params := by
  induction t with
  | nil => rfl
  | cons x t ih =>
    by_cases placeholder : x = PARAM_CHAR
    · rw [placeholder, resolve_fresh wildOf_empty]
    · rw [resolve_lit placeholder, patternOf_lit placeholder, after_empty, ih]

theorem resolve_prepend_lits {s : Str} (free : PARAM_CHAR ∉ s) (E : Table Sym Ctrl) (t : Str)
    (params : List Param) :
    resolve (prepend (lits s) E) (s ++ t) params = lits s ++ resolve E t params := by
  induction s with
  | nil => simp
  | cons c s ih =>
    rw [List.mem_cons, not_or] at free
    rw [List.cons_append, resolve_lit (Ne.symm free.1), lits_cons, after_prepend_cons, ih free.2,
      List.cons_append]

/-- The stored route depends only on the residual tables. -/
theorem resolve_congr {E F : Table Sym Ctrl} {x : Char} (t : Str) (params : List Param)
    (literal : x ≠ PARAM_CHAR) (same : after (.lit x) E = after (.lit x) F) :
    resolve E (x :: t) params = resolve F (x :: t) params := by
  rw [resolve_lit literal, resolve_lit literal, same]

/-! ## Registering in a table -/

/-- Registering the calculated path `t` turns the table `E` into `F` with the given verdict. -/
def Registered (E : Table Sym Ctrl) (t : Str) (params : List Param) (ctrl : Ctrl)
    (verdict : Verdict) (F : Table Sym Ctrl) : Prop :=
  (verdict = .accepted ∧ Free E t ∧ F = insert (resolve E t params, ctrl) E) ∨
    (∃ log, verdict = .refused log ∧ ¬ Free E t ∧ F = E)

section Registered

variable {E F G : Table Sym Ctrl} {t : Str} {params : List Param} {ctrl : Ctrl} {verdict : Verdict}

theorem Registered.not_undefined (done : Registered E t params ctrl verdict F) :
    verdict ≠ .undefined := by
  rcases done with ⟨accepted, -, -⟩ | ⟨log, refused, -, -⟩
  · rw [accepted]
    exact nofun
  · rw [refused]
    exact nofun

theorem Registered.of_free (free : Free E t)
    (done : Registered E t params ctrl verdict F) :
    verdict = .accepted ∧ F = insert (resolve E t params, ctrl) E := by
  rcases done with ⟨accepted, -, table⟩ | ⟨log, -, conflict, -⟩
  · exact ⟨accepted, table⟩
  · exact absurd free conflict

theorem Registered.of_not_free (conflict : ¬ Free E t)
    (done : Registered E t params ctrl verdict F) :
    (∃ log, verdict = .refused log) ∧ F = E := by
  rcases done with ⟨-, free, -⟩ | ⟨log, refused, -, table⟩
  · exact absurd free conflict
  · exact ⟨⟨log, refused⟩, table⟩

/-- Registration below a static text. -/
theorem Registered.prepend_lits {s : Str} (free : PARAM_CHAR ∉ s)
    (done : Registered E t params ctrl verdict F) :
    Registered (prepend (lits s) E) (s ++ t) params ctrl verdict (prepend (lits s) F) := by
  have same := free_prepend_lits free E t
  rcases done with ⟨accepted, ok, rfl⟩ | ⟨log, refused, conflict, rfl⟩
  · left
    refine ⟨accepted, same.mpr ok, ?_⟩
    rw [resolve_prepend_lits free, prepend_insert]
  · right
    exact ⟨log, refused, fun ok => conflict (same.mp ok), rfl⟩

/-- The table has no route that begins with the literal `x` or with a wildcard. -/
def Avoids (x : Char) (E : Table Sym Ctrl) : Prop :=
  ∀ e ∈ E, e.1 = [] ∨ ∃ y ρ, e.1 = .lit y :: ρ ∧ y ≠ x

theorem avoids_own (x : Char) (h : Option Ctrl) : Avoids x (own h) :=
  fun _ stored => Or.inl stored.1

theorem Avoids.union {x : Char} (first : Avoids x E) (second : Avoids x F) : Avoids x (E ∪ F) := by
  intro e stored
  rcases stored with h | h
  · exact first e h
  · exact second e h

theorem Avoids.free {x : Char} (avoids : Avoids x E) (literal : x ≠ PARAM_CHAR) :
    Free E (x :: t) := by
  intro e stored
  rcases avoids e stored with empty | ⟨y, ρ, head, differs⟩
  · rw [empty]
    exact List.cons_ne_nil x t
  · rw [head]
    exact ⟨literal, fun same => absurd same differs⟩

theorem Avoids.after_eq {x : Char} (avoids : Avoids x E) : after (.lit x) E = ∅ := by
  apply Set.eq_empty_of_forall_notMem
  rintro ⟨ρ, b⟩ stored
  rcases avoids _ stored with empty | ⟨y, ρ', head, differs⟩
  · exact List.cons_ne_nil _ _ empty
  · simp only [List.cons.injEq, Sym.lit.injEq] at head
    exact differs head.1.symm

/-- Routes with another first character do not take part. -/
theorem Registered.union_left {x : Char} (avoids : Avoids x G) (literal : x ≠ PARAM_CHAR)
    (done : Registered E (x :: t) params ctrl verdict F) :
    Registered (G ∪ E) (x :: t) params ctrl verdict (G ∪ F) := by
  have same : Free (G ∪ E) (x :: t) ↔ Free E (x :: t) := by
    rw [free_union, and_iff_right (avoids.free literal)]
  rcases done with ⟨accepted, ok, rfl⟩ | ⟨log, refused, conflict, rfl⟩
  · left
    refine ⟨accepted, same.mpr ok, ?_⟩
    have route : resolve (G ∪ E) (x :: t) params = resolve E (x :: t) params := by
      apply resolve_congr t params literal
      rw [after_union, avoids.after_eq, Set.empty_union]
    rw [route, Set.union_insert]
  · right
    exact ⟨log, refused, fun ok => conflict (same.mp ok), rfl⟩

/-- A path with a new first character is stored as it stands. -/
theorem Avoids.resolve_eq {x : Char} (avoids : Avoids x E) (literal : x ≠ PARAM_CHAR) :
    resolve E (x :: t) params = patternOf (x :: t) params := by
  rw [resolve_lit literal, patternOf_lit literal, avoids.after_eq, resolve_empty]

theorem Avoids.registered {x : Char} (avoids : Avoids x E) (literal : x ≠ PARAM_CHAR) :
    Registered E (x :: t) params ctrl .accepted (E ∪ {(patternOf (x :: t) params, ctrl)}) := by
  left
  refine ⟨rfl, avoids.free literal, ?_⟩
  rw [avoids.resolve_eq literal, Set.union_singleton]

/-- A table of at most one handle takes every path. -/
theorem registered_own (h : Option Ctrl) (x : Char) :
    Registered (own h) (x :: t) params ctrl .accepted
      (own h ∪ {(patternOf (x :: t) params, ctrl)}) := by
  by_cases placeholder : x = PARAM_CHAR
  · subst placeholder
    left
    refine ⟨rfl, free_own_cons h _ t, ?_⟩
    have none : wildOf (own h : Table Sym Ctrl) = none := wildOf_eq_none fun w π b => by simp
    rw [resolve_fresh none, Set.union_singleton]
  · exact (avoids_own x h).registered placeholder

/-- The empty rest takes the free place of the handle. -/
theorem registered_vacant (others : ∀ e ∈ E, e.1 ≠ []) :
    Registered (own none ∪ E) [] params ctrl .accepted (own (some ctrl) ∪ E) := by
  left
  refine ⟨rfl, ?_, ?_⟩
  · intro e stored
    rw [own_none, Set.empty_union] at stored
    exact (compat_nil_iff e.1).mpr (others e stored)
  · rw [own_none, own_some, Set.empty_union, Set.singleton_union, resolve]

/-- The empty rest is refused where the table has a handle. -/
theorem registered_occupied (b : Ctrl) (log : List RouteError) :
    Registered (own (some b) ∪ E) [] params ctrl (.refused log) (own (some b) ∪ E) := by
  right
  refine ⟨log, rfl, ?_, rfl⟩
  intro free
  exact (compat_nil_iff []).mp (free ([], b) (Or.inl ⟨rfl, rfl⟩)) rfl

/-- Registration behind a wildcard that the table already has. -/
theorem Registered.prepend_wild {w : Wild} (isParam : w.type = .PARAM) (h : Option Ctrl)
    (live : ∃ π b, (π, b) ∈ E) (done : Registered E t params ctrl verdict F) :
    Registered (own h ∪ prepend [.wild w] E) (PARAM_CHAR :: t) params ctrl verdict
      (own h ∪ prepend [.wild w] F) := by
  have same : Free (own h ∪ prepend [.wild w] E) (PARAM_CHAR :: t) ↔ Free E t := by
    rw [free_union, and_iff_right (free_own_cons h _ t), free_prepend_wild]
    simp only [isParam, true_and, Free]
  rcases done with ⟨accepted, ok, rfl⟩ | ⟨log, refused, conflict, rfl⟩
  · left
    refine ⟨accepted, same.mpr ok, ?_⟩
    rw [resolve_wild (wildOf_prepend h live), after_wild_prepend, prepend_insert, Set.union_insert,
      List.singleton_append]
  · right
    exact ⟨log, refused, fun ok => conflict (same.mp ok), rfl⟩

/-- A wildcard of the table refuses any other text in its place. -/
theorem registered_conflict {w : Wild} {x : Char} (h : Option Ctrl) (live : ∃ π b, (π, b) ∈ E)
    (clash : x ≠ PARAM_CHAR ∨ w.type ≠ .PARAM) (log : List RouteError) :
    Registered (own h ∪ prepend [.wild w] E) (x :: t) params ctrl (.refused log)
      (own h ∪ prepend [.wild w] E) := by
  right
  refine ⟨log, rfl, ?_, rfl⟩
  rw [free_union, free_prepend_wild]
  rintro ⟨-, compat⟩
  obtain ⟨π, b, stored⟩ := live
  obtain ⟨placeholder, isParam, -⟩ := compat _ stored
  rcases clash with h | h
  · exact h placeholder
  · exact h isParam

end Registered

end Cppmhd
