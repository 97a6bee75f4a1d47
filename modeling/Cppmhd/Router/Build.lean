import Cppmhd.Router.AddRoute

/-!
# The trees of a built router

`buildTree` distributes the registrations over one tree for each method, sorts the trees and copies
them.  A router therefore serves a method from the tree that `addRoute` builds from the routes of
that method, in their order (`buildTree_tree`), and it is valid exactly when all these calls are
accepted (`buildTree_valid`).
-/

namespace Cppmhd

variable {Ctrl : Type}

/-! ## Copying -/

mutual

/-- The copy of a tree is the tree. -/
theorem buildChild_eq : ∀ node : RawNode Ctrl, buildChild node = node
  | ⟨path, indices, children, handle, type, re, name, wildchild⟩ => by
    rw [buildChild, buildChildren_eq children]

theorem buildChildren_eq : ∀ children : List (RawNode Ctrl), buildChildren children = children
  | [] => rfl
  | child :: children => by
    rw [buildChildren, buildChild_eq child, buildChildren_eq children]

end

/-! ## One method -/

/-- The calls of `addRoute` for a list of routes. -/
def RawTree.addRoutes (pcre : Pcre) (tree : RawTree Ctrl) (routes : List (Str × Ctrl)) :
    RawTree Ctrl :=
  routes.foldl (fun tree r => (tree.addRoute pcre r.1 r.2).1) tree

/-- All these calls are accepted. -/
def RawTree.Accepts (pcre : Pcre) : RawTree Ctrl → List (Str × Ctrl) → Prop
  | _, [] => True
  | tree, r :: routes =>
    (tree.addRoute pcre r.1 r.2).2 = .accepted ∧
      RawTree.Accepts pcre (tree.addRoute pcre r.1 r.2).1 routes

theorem RawTree.Reachable.addRoutes {pcre : Pcre} {tree : RawTree Ctrl}
    (reachable : tree.Reachable pcre) (routes : List (Str × Ctrl)) :
    (tree.addRoutes pcre routes).Reachable pcre := by
  induction routes generalizing tree with
  | nil => exact reachable
  | cons r routes ih => exact ih (reachable.addRoute r.1 r.2)

/-- The registrations of a method, with the prefix of the router. -/
def routesOf (pre : Str) (m : HttpMethod) (routes : List (Route Ctrl)) : List (Str × Ctrl) :=
  (routes.filter (·.1 = m)).map fun r => (pre ++ r.2.1, r.2.2)

theorem routesOf_cons (pre : Str) (m : HttpMethod) (r : Route Ctrl) (routes : List (Route Ctrl)) :
    routesOf pre m (r :: routes) =
      if r.1 = m then (pre ++ r.2.1, r.2.2) :: routesOf pre m routes
      else routesOf pre m routes := by
  by_cases same : r.1 = m
  · simp [routesOf, same]
  · simp [routesOf, same]

/-! ## The trees of all methods -/

/-- The tree of a method, empty when the method has no route. -/
def MethodTrees.tree (trees : MethodTrees Ctrl) (m : HttpMethod) : RawTree Ctrl :=
  match trees.find? (·.1 = m) with
  | some t => t.2
  | none => {}

/-- The methods that have a tree. -/
abbrev MethodTrees.methods (trees : MethodTrees Ctrl) : List HttpMethod := trees.map (·.1)

theorem MethodTrees.tree_cons (t : HttpMethod × RawTree Ctrl) (trees : MethodTrees Ctrl)
    (m : HttpMethod) :
    MethodTrees.tree (t :: trees) m = if t.1 = m then t.2 else trees.tree m := by
  by_cases same : t.1 = m
  · simp [MethodTrees.tree, same]
  · simp [MethodTrees.tree, same]

section Insert

variable (pcre : Pcre) (path : Str) (mth : HttpMethod) (ctrl : Ctrl) (trees : MethodTrees Ctrl)

theorem insert_tree (m : HttpMethod) :
    (MethodTrees.insert pcre path mth ctrl trees).1.tree m =
      if mth = m then ((trees.tree m).addRoute pcre path ctrl).1 else trees.tree m := by
  induction trees with
  | nil =>
    rw [MethodTrees.insert, MethodTrees.tree_cons]
    rfl
  | cons t trees ih =>
    obtain ⟨m', tree⟩ := t
    by_cases here : m' = mth
    · subst here
      simp only [MethodTrees.insert, if_true, MethodTrees.tree_cons]
      by_cases same : m' = m <;> simp [same]
    · simp only [MethodTrees.insert, here, if_false, MethodTrees.tree_cons, ih]
      by_cases same : m' = m
      · subst same
        simp [Ne.symm here]
      · simp [same]

theorem insert_verdict :
    (MethodTrees.insert pcre path mth ctrl trees).2 =
      ((trees.tree mth).addRoute pcre path ctrl).2 := by
  induction trees with
  | nil => rfl
  | cons t trees ih =>
    obtain ⟨m', tree⟩ := t
    by_cases here : m' = mth
    · simp only [MethodTrees.insert, here, if_true, MethodTrees.tree_cons]
    · simp only [MethodTrees.insert, here, if_false, MethodTrees.tree_cons, ih]

theorem insert_methods :
    (MethodTrees.insert pcre path mth ctrl trees).1.methods =
      if mth ∈ trees.methods then trees.methods else trees.methods ++ [mth] := by
  induction trees with
  | nil => rfl
  | cons t trees ih =>
    obtain ⟨m', tree⟩ := t
    by_cases here : m' = mth
    · simp [MethodTrees.insert, here]
    · simp only [MethodTrees.insert, here, if_false, MethodTrees.methods, List.map_cons,
        List.mem_cons, Ne.symm here, false_or] at ih ⊢
      rw [ih]
      by_cases known : mth ∈ trees.map (·.1)
      · simp [known]
      · simp [known]

theorem insert_nodup (nodup : trees.methods.Nodup) :
    (MethodTrees.insert pcre path mth ctrl trees).1.methods.Nodup := by
  rw [insert_methods]
  by_cases known : mth ∈ trees.methods
  · rwa [if_pos known]
  · rw [if_neg known]
    exact List.nodup_append_comm.mp (List.nodup_cons.mpr ⟨known, nodup⟩)

end Insert

theorem MethodTrees.tree_of_mem {trees : MethodTrees Ctrl} (nodup : trees.methods.Nodup)
    {m : HttpMethod} {tree : RawTree Ctrl} (member : (m, tree) ∈ trees) : trees.tree m = tree := by
  induction trees with
  | nil => exact absurd member List.not_mem_nil
  | cons t trees ih =>
    rw [MethodTrees.methods, List.map_cons, List.nodup_cons] at nodup
    rw [MethodTrees.tree_cons]
    rcases List.mem_cons.mp member with rfl | member
    · exact if_pos rfl
    · have other : t.1 ≠ m := by
        rintro rfl
        exact nodup.1 (List.mem_map.mpr ⟨_, member, rfl⟩)
      rw [if_neg other]
      exact ih nodup.2 member

theorem MethodTrees.tree_of_not_mem {trees : MethodTrees Ctrl} {m : HttpMethod}
    (absent : m ∉ trees.methods) : trees.tree m = {} := by
  induction trees with
  | nil => rfl
  | cons t trees ih =>
    rw [MethodTrees.methods, List.map_cons, List.mem_cons, not_or] at absent
    rw [MethodTrees.tree_cons, if_neg (Ne.symm absent.1)]
    exact ih absent.2

/-- The order of the trees does not matter, since a method has one tree. -/
theorem MethodTrees.tree_of_perm {trees trees' : MethodTrees Ctrl} (perm : trees.Perm trees')
    (nodup : trees.methods.Nodup) (m : HttpMethod) : trees'.tree m = trees.tree m := by
  have methods : trees.methods.Perm trees'.methods := perm.map _
  by_cases known : m ∈ trees.methods
  · obtain ⟨⟨m', tree⟩, member, rfl⟩ := List.mem_map.mp known
    rw [MethodTrees.tree_of_mem nodup member]
    exact MethodTrees.tree_of_mem (methods.nodup_iff.mp nodup) (perm.mem_iff.mp member)
  · rw [MethodTrees.tree_of_not_mem known]
    exact MethodTrees.tree_of_not_mem fun h => known (methods.mem_iff.mpr h)

/-! ## `buildTree` -/

section BuildTree

variable (pcre : Pcre) (pre : Str)

theorem foldl_add_tree (routes : List (Route Ctrl)) (st : BuildState Ctrl) (m : HttpMethod) :
    (routes.foldl (BuildState.add pcre pre) st).raw.tree m =
      (st.raw.tree m).addRoutes pcre (routesOf pre m routes) := by
  induction routes generalizing st with
  | nil => rfl
  | cons r routes ih =>
    have raw : (BuildState.add pcre pre st r).raw =
        (MethodTrees.insert pcre (pre ++ r.2.1) r.1 r.2.2 st.raw).1 := by
      rw [BuildState.add]
      split <;> rfl
    rw [List.foldl_cons, ih, raw, insert_tree, routesOf_cons]
    by_cases same : r.1 = m
    · simp only [if_pos same]
      rfl
    · simp only [if_neg same]

theorem foldl_add_nodup (routes : List (Route Ctrl)) (st : BuildState Ctrl)
    (nodup : st.raw.methods.Nodup) :
    (routes.foldl (BuildState.add pcre pre) st).raw.methods.Nodup := by
  induction routes generalizing st with
  | nil => exact nodup
  | cons r routes ih =>
    apply ih
    rw [BuildState.add]
    split <;> exact insert_nodup pcre _ _ _ _ nodup

theorem foldl_add_success (routes : List (Route Ctrl)) (st : BuildState Ctrl) :
    (routes.foldl (BuildState.add pcre pre) st).success = true ↔
      st.success = true ∧ ∀ m, (st.raw.tree m).Accepts pcre (routesOf pre m routes) := by
  induction routes generalizing st with
  | nil => simp [routesOf, RawTree.Accepts]
  | cons r routes ih =>
    have raw : (BuildState.add pcre pre st r).raw =
        (MethodTrees.insert pcre (pre ++ r.2.1) r.1 r.2.2 st.raw).1 := by
      rw [BuildState.add]
      split <;> rfl
    have success : (BuildState.add pcre pre st r).success = true ↔ st.success = true ∧
        ((st.raw.tree r.1).addRoute pcre (pre ++ r.2.1) r.2.2).2 = .accepted := by
      rw [BuildState.add, ← insert_verdict]
      by_cases accepted : (MethodTrees.insert pcre (pre ++ r.2.1) r.1 r.2.2 st.raw).2 = .accepted
      · simp [accepted]
      · simp [accepted]
    rw [List.foldl_cons, ih, success, raw, and_assoc]
    apply and_congr_right'
    constructor
    · rintro ⟨accepted, rest⟩ m
      have below := rest m
      rw [insert_tree] at below
      rw [routesOf_cons]
      by_cases same : r.1 = m
      · subst same
        rw [if_pos rfl] at below ⊢
        exact ⟨accepted, below⟩
      · rwa [if_neg same] at below ⊢
    · intro all
      constructor
      · have here := all r.1
        rw [routesOf_cons, if_pos rfl] at here
        exact here.1
      · intro m
        have here := all m
        rw [routesOf_cons] at here
        rw [insert_tree]
        by_cases same : r.1 = m
        · subst same
          rw [if_pos rfl] at here ⊢
          exact here.2
        · rwa [if_neg same] at here ⊢

/-- The root from which a router serves a method. -/
def Router.tree (router : Router Ctrl) (m : HttpMethod) : RouterNode Ctrl :=
  match router.trees.find? (·.1 = m) with
  | some t => t.2
  | none => {}

theorem buildTree_tree (builder : RouterBuilder Ctrl) (m : HttpMethod) :
    (Router.buildTree pcre pre builder).1.tree m =
      (RawTree.addRoutes pcre {} (routesOf pre m builder.routes)).root := by
  have sorted := MethodTrees.tree_of_perm
    (List.perm_insertionSort (fun a b => dispatchMethod a.1 ≤ dispatchMethod b.1) _).symm
    (foldl_add_nodup pcre pre builder.routes {} List.nodup_nil) m
  have copied : ∀ trees : MethodTrees Ctrl,
      (match (trees.map fun t => (t.1, buildChild t.2.root)).find? (·.1 = m) with
        | some t => t.2
        | none => {}) = (trees.tree m).root := by
    intro trees
    induction trees with
    | nil => rfl
    | cons t trees ih =>
      rw [MethodTrees.tree_cons, List.map_cons, List.find?_cons]
      by_cases same : t.1 = m
      · simp [same, buildChild_eq]
      · simpa [same] using ih
  rw [Router.tree, Router.buildTree, copied, MethodTrees.sort, sorted, foldl_add_tree]
  rfl

theorem buildTree_valid (builder : RouterBuilder Ctrl) :
    (Router.buildTree pcre pre builder).1.valid = true ↔
      ∀ m, RawTree.Accepts pcre {} (routesOf pre m builder.routes) := by
  rw [Router.buildTree, foldl_add_success]
  exact and_iff_right rfl

/-- A missing tree serves nothing, like an empty one. -/
theorem forwardLoop_empty (path : Str) (params : Params) :
    forwardLoop pcre ({} : RouterNode Ctrl) path params = ⟨none, params, false⟩ := by
  cases path with
  | nil => simp [forwardLoop, exactMatch, slashTsr, RawNode.indice, indiceOf]
  | cons x path => simp [forwardLoop, isPrefix, stringNCmp, forwardIndice]

theorem forward_eq (router : Router Ctrl) (m : HttpMethod) (path : Str) (params : Params) :
    router.forward pcre m path params = forwardLoop pcre (router.tree m) path params := by
  rw [Router.forward, Router.tree]
  cases router.trees.find? (·.1 = m) with
  | none => exact (forwardLoop_empty pcre path params).symm
  | some t => rfl

end BuildTree

end Cppmhd
