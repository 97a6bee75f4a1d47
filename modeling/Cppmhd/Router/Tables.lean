import Cppmhd.Router.Serving

/-!
# A router as a map of tables

What a router does, without its trees: each method has a table of routes, a registration adds a route
to the table of its method unless it conflicts there, and `forward` looks the request up in the table
(`router_refines`).  A registration conflicts exactly when the table with its route would be ambiguous
(`refused_iff_ambiguous`), and the router owns exactly the controllers that its tables store
(`controllers_stored`).
-/

open Words Table

namespace Cppmhd

variable {Ctrl : Type}

/-! ## Conflicts are ambiguities -/

open scoped Classical in
/-- The table behind the registration of a route. -/
noncomputable def register (pcre : Pcre) (E : Table Sym Ctrl) (r : Str × Ctrl) : Table Sym Ctrl :=
  match parsePathSegment pcre r.1 with
  | .error _ => E
  | .ok p => if Free E p.calced then insert (resolve E p.calced p.params, r.2) E else E

/-- The route can be registered in the table. -/
def Registrable (pcre : Pcre) (E : Table Sym Ctrl) (path : Str) : Prop :=
  ∃ p, parsePathSegment pcre path = .ok p ∧ Free E p.calced

/-- All these routes can be registered, one after the other. -/
def AllRegistrable (pcre : Pcre) : Table Sym Ctrl → List (Str × Ctrl) → Prop
  | _, [] => True
  | E, r :: routes => Registrable pcre E r.1 ∧ AllRegistrable pcre (register pcre E r) routes

theorem register_of_registrable {pcre : Pcre} {E : Table Sym Ctrl} {path : Str}
    (registrable : Registrable pcre E path) (c : Ctrl) :
    ∃ π, register pcre E (path, c) = insert (π, c) E := by
  obtain ⟨p, parsed, free⟩ := registrable
  exact ⟨_, by simp only [register, parsed, if_pos free]; rfl⟩

theorem register_of_not {pcre : Pcre} {E : Table Sym Ctrl} {path : Str}
    (refused : ¬ Registrable pcre E path) (c : Ctrl) : register pcre E (path, c) = E := by
  cases parsed : parsePathSegment pcre path with
  | error log => simp [register, parsed]
  | ok p =>
    have conflict : ¬ Free E p.calced := fun free => refused ⟨p, parsed, free⟩
    simp [register, parsed, conflict]

section Trees

variable (pcre : Pcre) {tree : RawTree Ctrl}

/-- `addRoute` registers the route in the table of the tree. -/
theorem addRoute_register (wellFormed : tree.WellFormed) (path : Str) (ctrl : Ctrl) :
    (tree.addRoute pcre path ctrl).1.entries = register pcre tree.entries (path, ctrl) ∧
      ((tree.addRoute pcre path ctrl).2 = .accepted ↔ Registrable pcre tree.entries path) := by
  cases parsed : parsePathSegment pcre path with
  | error log =>
    rw [addRoute_unparsed parsed]
    simp [register, Registrable, parsed]
  | ok p =>
    have registered := (addRoute_spec wellFormed parsed ctrl).2
    have registrable : Registrable pcre tree.entries path ↔ Free tree.entries p.calced := by
      simp [Registrable, parsed]
    rw [registrable]
    by_cases free : Free tree.entries p.calced
    · obtain ⟨accepted, table⟩ := registered.of_free free
      simp [register, parsed, free, accepted, table]
    · obtain ⟨⟨log, refused⟩, table⟩ := registered.of_not_free free
      simp [register, parsed, free, refused, table]

theorem addRoutes_register (wellFormed : tree.WellFormed) (routes : List (Str × Ctrl)) :
    (tree.addRoutes pcre routes).entries = routes.foldl (register pcre) tree.entries ∧
      (tree.Accepts pcre routes ↔ AllRegistrable pcre tree.entries routes) := by
  induction routes generalizing tree with
  | nil => exact ⟨rfl, Iff.rfl⟩
  | cons r routes ih =>
    obtain ⟨table, accepted⟩ := addRoute_register pcre wellFormed r.1 r.2
    have next : (tree.addRoute pcre r.1 r.2).1.WellFormed := wellFormed.addRoute _ _
    obtain ⟨tables, accepts⟩ := ih next
    rw [table] at tables accepts
    exact ⟨tables, and_congr accepted accepts⟩

end Trees

section Routers

variable (pcre : Pcre) (pre : Str) (builder : RouterBuilder Ctrl)

/-- A built router is a table for each method, to which the routes of the method were registered in
their order; it is valid when none of them was refused; and it answers what the lookup in the table
finds. -/
theorem router_refines :
    let router := (Router.buildTree pcre pre builder).1
    let table := fun m => (routesOf pre m builder.routes).foldl (register pcre) ∅
    (∀ m, router.entries m = table m) ∧
      (router.valid = true ↔ ∀ m, AllRegistrable pcre ∅ (routesOf pre m builder.routes)) ∧
      ∀ m path params, let r := router.forward pcre m path params
        (r.ctrl, r.params) = find pcre (table m) path params := by
  intro router table
  have empty : RawTree.WellFormed ({} : RawTree Ctrl) := Or.inl rfl
  have tables : ∀ m, router.entries m = table m := by
    intro m
    rw [Router.entries, buildTree_tree]
    have registered := (addRoutes_register pcre empty (routesOf pre m builder.routes)).1
    rwa [entries_empty] at registered
  refine ⟨tables, ?_, fun m path params => ?_⟩
  · rw [buildTree_valid]
    refine forall_congr' fun m => ?_
    have accepts := (addRoutes_register pcre empty (routesOf pre m builder.routes)).2
    rwa [entries_empty] at accepts
  · rw [← tables m]
    exact forward_find pcre pre builder m path params

/-! ## Controllers -/

/-- What the loop of `buildTree` keeps: the controllers it owns are those that the trees store. -/
structure BuildState.Owns (st : BuildState Ctrl) : Prop where
  wellFormed : ∀ m, (st.raw.tree m).WellFormed
  stored : ∀ c, c ∈ st.controllers ↔ ∃ m π, (π, c) ∈ (st.raw.tree m).entries

theorem BuildState.Owns.add {st : BuildState Ctrl} (owns : st.Owns) (item : Route Ctrl) :
    (BuildState.add pcre pre st item).Owns := by
  have trees : ∀ m, (BuildState.add pcre pre st item).raw.tree m = if item.1 = m then
      ((st.raw.tree m).addRoute pcre (pre ++ item.2.1) item.2.2).1 else st.raw.tree m := by
    intro m
    rw [← insert_tree]
    unfold BuildState.add
    dsimp only
    split <;> rfl
  have wellFormed : ∀ m, ((BuildState.add pcre pre st item).raw.tree m).WellFormed := by
    intro m
    rw [trees]
    split
    · exact (owns.wellFormed m).addRoute _ _
    · exact owns.wellFormed m
  obtain ⟨table, accepted⟩ :=
    addRoute_register pcre (owns.wellFormed item.1) (pre ++ item.2.1) item.2.2
  have others : ∀ m, m ≠ item.1 → ((BuildState.add pcre pre st item).raw.tree m) = st.raw.tree m := by
    intro m other
    rw [trees, if_neg other.symm]
  have here : ((BuildState.add pcre pre st item).raw.tree item.1).entries =
      register pcre (st.raw.tree item.1).entries (pre ++ item.2.1, item.2.2) := by
    rw [trees, if_pos rfl, table]
  refine ⟨wellFormed, fun c => ?_⟩
  by_cases registrable : Registrable pcre (st.raw.tree item.1).entries (pre ++ item.2.1)
  · obtain ⟨π, new⟩ := register_of_registrable registrable item.2.2
    have owned : (BuildState.add pcre pre st item).controllers = st.controllers ++ [item.2.2] := by
      unfold BuildState.add
      dsimp only
      rw [if_pos ((insert_verdict pcre _ _ _ _).trans (accepted.mpr registrable))]
    rw [owned, List.mem_append, List.mem_singleton, owns.stored]
    constructor
    · rintro (⟨m, ρ, stored⟩ | rfl)
      · by_cases same : m = item.1
        · subst same
          refine ⟨item.1, ρ, ?_⟩
          rw [here, new]
          exact Or.inr stored
        · exact ⟨m, ρ, (others m same).symm ▸ stored⟩
      · refine ⟨item.1, π, ?_⟩
        rw [here, new]
        exact Or.inl rfl
    · rintro ⟨m, ρ, stored⟩
      by_cases same : m = item.1
      · subst same
        rw [here, new] at stored
        rcases stored with same | stored
        · exact Or.inr (congrArg Prod.snd same)
        · exact Or.inl ⟨item.1, ρ, stored⟩
      · rw [others m same] at stored
        exact Or.inl ⟨m, ρ, stored⟩
  · have owned : (BuildState.add pcre pre st item).controllers = st.controllers := by
      have refused : (MethodTrees.insert pcre (pre ++ item.2.1) item.1 item.2.2 st.raw).2 ≠ .accepted := by
        rw [insert_verdict]
        exact fun ok => registrable (accepted.mp ok)
      unfold BuildState.add
      dsimp only
      rw [if_neg refused]
    have same : ∀ m, ((BuildState.add pcre pre st item).raw.tree m).entries =
        (st.raw.tree m).entries := by
      intro m
      by_cases same : m = item.1
      · subst same
        rw [here, register_of_not registrable]
      · rw [others m same]
    rw [owned, owns.stored]
    simp only [same]

theorem buildTree_owns (c : Ctrl) : c ∈ (Router.buildTree pcre pre builder).1.controllers ↔
    ∃ m π, (π, c) ∈ (Router.buildTree pcre pre builder).1.entries m := by
  have owns : (builder.routes.foldl (BuildState.add pcre pre) {}).Owns := by
    have start : BuildState.Owns ({} : BuildState Ctrl) := by
      refine ⟨fun m => Or.inl rfl, fun c => ?_⟩
      have none : ∀ m, ((({} : BuildState Ctrl).raw.tree m).entries) = ∅ := fun m => entries_empty
      simp [none]
    generalize ({} : BuildState Ctrl) = st at start
    induction builder.routes generalizing st with
    | nil => exact start
    | cons item routes ih => exact ih _ (start.add pcre pre item)
  have same : ∀ m, (Router.buildTree pcre pre builder).1.entries m =
      ((builder.routes.foldl (BuildState.add pcre pre) {}).raw.tree m).entries := by
    intro m
    rw [Router.entries, buildTree_tree, foldl_add_tree]
    rfl
  simp only [same]
  exact owns.stored c

theorem forward_owned {m : HttpMethod} {path : Str} {params : Params} {c : Ctrl}
    (answer : ((Router.buildTree pcre pre builder).1.forward pcre m path params).ctrl = some c) :
    c ∈ (Router.buildTree pcre pre builder).1.controllers := by
  have lookup := forward_find pcre pre builder m path params
  dsimp only at lookup
  rw [answer] at lookup
  obtain ⟨π, -, -, member, -, -⟩ := find_sound (buildTree_proper pcre pre builder m) lookup.symm
  exact (buildTree_owns pcre pre builder c).mpr ⟨m, π, member⟩

/-- A router owns exactly the controllers that its tables store, so what `forward` answers is alive as
long as the router; the controller of a refused route is not kept. -/
theorem controllers_stored :
    let router := (Router.buildTree pcre pre builder).1
    (∀ c, c ∈ router.controllers ↔ ∃ m π, (π, c) ∈ router.entries m) ∧
      ∀ m path params c, (router.forward pcre m path params).ctrl = some c → c ∈ router.controllers :=
  ⟨buildTree_owns pcre pre builder, fun _ _ _ _ answer => forward_owned pcre pre builder answer⟩

end Routers

end Cppmhd
