import Cppmhd.Router.Insert

/-!
# Trees built by `addRoute`

Every tree that `addRoute` builds is empty or valid, and every call registers the calculated path in
the table of the tree (`addRoute_spec`).  In particular the failed assertion of `insertChild` is
out of reach.
-/

open Words Table

namespace Cppmhd

variable {Ctrl : Type}

/-- The trees that sequences of `addRoute` build, whatever the calls return. -/
inductive RawTree.Reachable (pcre : Pcre) : RawTree Ctrl → Prop
  | empty : Reachable pcre {}
  | addRoute {tree : RawTree Ctrl} (path : Str) (ctrl : Ctrl) (before : Reachable pcre tree) :
      Reachable pcre (tree.addRoute pcre path ctrl).1

/-- An untouched root, or a valid one for the rooted paths. -/
def RawTree.WellFormed (tree : RawTree Ctrl) : Prop :=
  tree = {} ∨ (tree.root.Valid ∧ tree.root.path.head? = some '/')

/-- The routes stored in a tree. -/
def RawTree.entries (tree : RawTree Ctrl) : Table Sym Ctrl := tree.root.entries

@[simp] theorem entries_empty : RawTree.entries ({} : RawTree Ctrl) = ∅ := by
  rw [RawTree.entries, RawNode.entries_eq, body_of_not_wild rfl]
  simp

theorem Calculated.insertable {calced : Str} {params : List Param}
    (calculated : Calculated calced params) : Insertable calced params :=
  ⟨calculated.shaped, calculated.counted.le, calculated.queued⟩

/-- The first insertion stores the whole path. -/
theorem insertChild_first {p : PathParser} (calculated : Calculated p.calced p.params)
    (fullPath : Str) (ctrl : Ctrl) :
    let r := insertChild {} p.calced fullPath ctrl p.params
    r.verdict = .accepted ∧ r.node.Valid ∧ r.node.path.head? = p.calced.head? ∧
      r.node.entries = {(patternOf p.calced p.params, ctrl)} := by
  obtain ⟨t, whole⟩ := List.head?_eq_some_iff.mp calculated.rooted
  apply insertChild_fresh ctrl p.params {} p.calced fullPath rfl rfl rfl (Or.inl rfl) _ _
    calculated.insertable
  · rw [whole]
    exact List.cons_ne_nil _ _
  · rw [whole, List.head?_cons]
    decide

theorem insert_spec {tree : RawTree Ctrl} (wellFormed : tree.WellFormed) {p : PathParser}
    (calculated : Calculated p.calced p.params) (ctrl : Ctrl) :
    let r := tree.insert p.calced p ctrl
    RawTree.WellFormed { root := r.node } ∧
      Registered tree.entries p.calced p.params ctrl r.verdict r.node.entries := by
  have rooted := calculated.rooted
  rcases wellFormed with rfl | ⟨valid, slash⟩
  · obtain ⟨t, whole⟩ := List.head?_eq_some_iff.mp rooted
    have fresh := insertChild_first calculated p.actualFullPath ctrl
    intro r
    have step : r = { insertChild {} p.calced p.actualFullPath ctrl p.params with
      verdict := .accepted } := by
      simp only [r, RawTree.insert, and_self, if_true]
    rw [step]
    refine ⟨Or.inr ⟨fresh.2.1, fresh.2.2.1.trans rooted⟩, ?_⟩
    have table : Registered (∅ : Table Sym Ctrl) p.calced p.params ctrl .accepted
        {(patternOf p.calced p.params, ctrl)} := by
      have registered : Registered (own none) ('/' :: t) p.params ctrl .accepted
          (own none ∪ {(patternOf ('/' :: t) p.params, ctrl)}) := registered_own none '/'
      rwa [own_none, Set.empty_union, ← whole] at registered
    rw [entries_empty]
    exact fresh.2.2.2 ▸ table
  · have used : ¬ (tree.root.path = [] ∧ tree.root.indices = []) := by
      intro h
      exact valid.staticPath.nonempty h.1
    intro r
    have step : r = insertLoop tree.root p.calced p ctrl := if_neg used
    have inserted := insertLoop_spec ctrl valid p p.calced calculated.insertable
      (rooted.trans slash.symm)
    rw [step]
    exact ⟨Or.inr ⟨inserted.valid, inserted.head.trans slash⟩, inserted.table⟩

/-- A parsed route is registered in the table of the tree. -/
theorem addRoute_spec {pcre : Pcre} {tree : RawTree Ctrl} (wellFormed : tree.WellFormed)
    {path : Str} {p : PathParser} (parsed : parsePathSegment pcre path = .ok p) (ctrl : Ctrl) :
    let r := tree.addRoute pcre path ctrl
    r.1.WellFormed ∧ Registered tree.entries p.calced p.params ctrl r.2 r.1.entries := by
  simp only [RawTree.addRoute, parsed]
  exact insert_spec wellFormed (parsePathSegment_calculated parsed) ctrl

/-- An accepted route was free, and is in the table. -/
theorem addRoute_accepted {pcre : Pcre} {tree : RawTree Ctrl} (wellFormed : tree.WellFormed)
    {path : Str} {p : PathParser} (parsed : parsePathSegment pcre path = .ok p) {ctrl : Ctrl}
    (accepted : (tree.addRoute pcre path ctrl).2 = .accepted) :
    Free tree.entries p.calced ∧ (tree.addRoute pcre path ctrl).1.entries =
      insert (resolve tree.entries p.calced p.params, ctrl) tree.entries := by
  rcases (addRoute_spec wellFormed parsed ctrl).2 with ⟨-, free, table⟩ | ⟨log, refused, -, -⟩
  · exact ⟨free, table⟩
  · rw [accepted] at refused
    exact absurd refused nofun

theorem addRoute_unparsed {pcre : Pcre} {path : Str} {log : List RouteError}
    (bad : parsePathSegment pcre path = .error log) (tree : RawTree Ctrl) (ctrl : Ctrl) :
    tree.addRoute pcre path ctrl = (tree, .refused log) := by
  simp only [RawTree.addRoute, bad]

theorem RawTree.WellFormed.addRoute {pcre : Pcre} {tree : RawTree Ctrl}
    (wellFormed : tree.WellFormed) (path : Str) (ctrl : Ctrl) :
    (tree.addRoute pcre path ctrl).1.WellFormed := by
  cases parsed : parsePathSegment pcre path with
  | error log =>
    rw [addRoute_unparsed parsed]
    exact wellFormed
  | ok p => exact (addRoute_spec wellFormed parsed ctrl).1

theorem RawTree.Reachable.wellFormed {pcre : Pcre} {tree : RawTree Ctrl}
    (reachable : tree.Reachable pcre) : tree.WellFormed := by
  induction reachable with
  | empty => exact Or.inl rfl
  | addRoute path ctrl before wellFormed => exact wellFormed.addRoute path ctrl

/-- No insertion runs into the assertion of `insertChild`. -/
theorem addRoute_defined {pcre : Pcre} {tree : RawTree Ctrl} (reachable : tree.Reachable pcre)
    (path : Str) (ctrl : Ctrl) : (tree.addRoute pcre path ctrl).2 ≠ .undefined := by
  cases parsed : parsePathSegment pcre path with
  | error log =>
    rw [addRoute_unparsed parsed]
    exact nofun
  | ok p => exact (addRoute_spec reachable.wellFormed parsed ctrl).2.not_undefined

/-- Insertion never removes a stored route. -/
theorem entries_subset_addRoute {pcre : Pcre} {tree : RawTree Ctrl} (wellFormed : tree.WellFormed)
    (path : Str) (ctrl : Ctrl) : tree.entries ⊆ (tree.addRoute pcre path ctrl).1.entries := by
  cases parsed : parsePathSegment pcre path with
  | error log =>
    rw [addRoute_unparsed parsed]
  | ok p =>
    rcases (addRoute_spec wellFormed parsed ctrl).2 with ⟨-, -, table⟩ | ⟨log, -, -, table⟩
    · rw [table]
      exact Set.subset_insert _ _
    · rw [table]

end Cppmhd
