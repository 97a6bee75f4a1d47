import Cppmhd.Router.Lookup

/-!
# Static routing

Without wildcards a router is a finite map: `buildTree` succeeds exactly when no method and path
are registered twice, and `forward` answers with the first registration of the method and the
request path (`static_routing`).
-/

open Words Table

namespace Cppmhd

variable {Ctrl : Type}

/-! ## Tables without wildcards -/

/-- The table of a partial map from paths to controllers. -/
def tableOf (f : Str → Option Ctrl) : Table Sym Ctrl := {e | ∃ s, e.1 = lits s ∧ f s = some e.2}

theorem after_tableOf (x : Char) (f : Str → Option Ctrl) :
    after (.lit x) (tableOf f) = tableOf fun t => f (x :: t) := by
  apply Set.Subset.antisymm
  · rintro ⟨π, b⟩ ⟨s, head, value⟩
    cases s with
    | nil => exact absurd head (List.cons_ne_nil _ _)
    | cons y s =>
      rw [lits_cons, List.cons.injEq, Sym.lit.injEq] at head
      obtain ⟨rfl, rfl⟩ := head
      exact ⟨s, rfl, value⟩
  · rintro ⟨π, b⟩ ⟨s, rfl, value⟩
    exact ⟨x :: s, rfl, value⟩

theorem wildOf_tableOf (f : Str → Option Ctrl) : wildOf (tableOf f) = none := by
  apply wildOf_eq_none
  rintro w π b ⟨s, head, -⟩
  cases s with
  | nil => exact List.cons_ne_nil _ _ head
  | cons y s => simp at head

theorem valueAt_tableOf (f : Str → Option Ctrl) : valueAt (tableOf f) = f [] := by
  apply valueAt_eq
  intro b
  constructor
  · rintro ⟨s, head, value⟩
    rwa [List.map_eq_nil_iff.mp head.symm] at value
  · intro value
    exact ⟨[], rfl, value⟩

/-- The lookup in such a table is the map. -/
theorem find_tableOf (pcre : Pcre) (f : Str → Option Ctrl) (p : Str) (params : Params) :
    find pcre (tableOf f) p params = (f p, params) := by
  induction p generalizing f with
  | nil =>
    rw [find_nil]
    cases value : f [] with
    | none => rw [findEnd_none ((valueAt_tableOf f).trans value) (wildOf_tableOf f)]
    | some c => rw [findEnd_value ((valueAt_tableOf f).trans value)]
  | cons x t ih => rw [find_plain (wildOf_tableOf f), after_tableOf, ih]

theorem compat_static (s : Str) {t : Str} (static : PARAM_CHAR ∉ t) :
    Compat (lits s) t ↔ s ≠ t := by
  induction s generalizing t with
  | nil => exact ne_comm
  | cons c s ih =>
    cases t with
    | nil => simp [Compat]
    | cons x t =>
      rw [List.mem_cons, not_or] at static
      have literal : x ≠ PARAM_CHAR := Ne.symm static.1
      simp only [lits_cons, Compat, literal, ne_eq, not_false_eq_true, true_and, ih static.2,
        List.cons.injEq, not_and]

theorem free_tableOf (f : Str → Option Ctrl) {t : Str} (static : PARAM_CHAR ∉ t) :
    Free (tableOf f) t ↔ f t = none := by
  constructor
  · intro free
    by_contra stored
    obtain ⟨b, value⟩ := Option.ne_none_iff_exists'.mp stored
    exact (compat_static t static).mp (free (lits t, b) ⟨t, rfl, value⟩) rfl
  · rintro vacant ⟨_, b⟩ ⟨s, rfl, value⟩
    apply (compat_static s static).mpr
    rintro rfl
    rw [vacant] at value
    exact absurd value (by simp)

theorem resolve_static (E : Table Sym Ctrl) {t : Str} (static : PARAM_CHAR ∉ t)
    (params : List Param) : resolve E t params = lits t := by
  induction t generalizing E with
  | nil => rfl
  | cons x t ih =>
    rw [List.mem_cons, not_or] at static
    rw [resolve_lit (Ne.symm static.1), ih _ static.2, lits_cons]

/-- A map with one more entry, where it had none. -/
def extend (f : Str → Option Ctrl) (t : Str) (c : Ctrl) (s : Str) : Option Ctrl :=
  (f s).or (if t = s then some c else none)

theorem insert_tableOf {f : Str → Option Ctrl} {t : Str} (vacant : f t = none) (c : Ctrl) :
    insert (lits t, c) (tableOf f) = tableOf (extend f t c) := by
  apply Set.Subset.antisymm
  · rintro ⟨π, b⟩ (same | ⟨s, head, value⟩)
    · cases same
      refine ⟨t, rfl, ?_⟩
      rw [extend, vacant, if_pos rfl, Option.none_or]
    · refine ⟨s, head, ?_⟩
      rw [extend, value, Option.some_or]
  · rintro ⟨_, b⟩ ⟨s, rfl, value⟩
    rw [extend, Option.or_eq_some_iff] at value
    rcases value with stored | ⟨-, fresh⟩
    · exact Or.inr ⟨s, rfl, stored⟩
    · by_cases same : t = s
      · subst same
        rw [if_pos rfl, Option.some.injEq] at fresh
        exact Or.inl (by rw [fresh])
      · rw [if_neg same] at fresh
        exact absurd fresh (by simp)

/-! ## Registration of static routes -/

/-- The path is accepted by the parser and has no wildcard segment. -/
def IsStatic (pcre : Pcre) (path : Str) : Prop :=
  ∃ p, parsePathSegment pcre path = .ok p ∧ p.params = []

theorem addRoute_static {pcre : Pcre} {tree : RawTree Ctrl} (wellFormed : tree.WellFormed)
    {f : Str → Option Ctrl} (table : tree.entries = tableOf f) {path : Str}
    (static : IsStatic pcre path) (c : Ctrl) :
    ((tree.addRoute pcre path c).2 = .accepted ↔ f path = none) ∧
      (tree.addRoute pcre path c).1.entries = tableOf (extend f path c) := by
  obtain ⟨p, parsed, none⟩ := static
  have calced : p.calced = path := calced_of_static parsed none
  have free : PARAM_CHAR ∉ path := by
    have counted := (parsePathSegment_calculated parsed).counted
    rw [none, List.length_nil, calced] at counted
    exact List.count_eq_zero.mp counted
  have registered := (addRoute_spec wellFormed parsed c).2
  rw [table, calced] at registered
  cases value : f path with
  | none =>
    obtain ⟨accepted, grown⟩ := registered.of_free ((free_tableOf f free).mpr value)
    refine ⟨by simp [accepted], ?_⟩
    rw [grown, resolve_static _ free, insert_tableOf value]
  | some b =>
    have occupied : ¬ Free (tableOf f) path := by
      rw [free_tableOf f free, value]
      simp
    obtain ⟨⟨log, refused⟩, same⟩ := registered.of_not_free occupied
    refine ⟨by simp [refused], ?_⟩
    have unchanged : extend f path c = f := by
      funext s
      rw [extend]
      by_cases here : path = s
      · rw [← here, value, Option.some_or]
      · rw [if_neg here, Option.or_none]
    rw [same, unchanged]

/-- The first controller registered for a path. -/
def firstOf (routes : List (Str × Ctrl)) (p : Str) : Option Ctrl :=
  (routes.find? (·.1 = p)).map (·.2)

theorem firstOf_cons (r : Str × Ctrl) (routes : List (Str × Ctrl)) (p : Str) :
    firstOf (r :: routes) p = (if r.1 = p then some r.2 else none).or (firstOf routes p) := by
  by_cases same : r.1 = p
  · simp [firstOf, same]
  · simp [firstOf, same]

theorem addRoutes_static {pcre : Pcre} (routes : List (Str × Ctrl)) {tree : RawTree Ctrl}
    (wellFormed : tree.WellFormed) {f : Str → Option Ctrl} (table : tree.entries = tableOf f)
    (static : ∀ r ∈ routes, IsStatic pcre r.1) :
    (tree.addRoutes pcre routes).entries = tableOf fun p => (f p).or (firstOf routes p) := by
  induction routes generalizing tree f with
  | nil =>
    have same : tree.addRoutes pcre [] = tree := rfl
    simpa [firstOf, same] using table
  | cons r routes ih =>
    have here := static r List.mem_cons_self
    have grown := ih (wellFormed.addRoute r.1 r.2) (addRoute_static wellFormed table here r.2).2
      fun s hs => static s (List.mem_cons_of_mem r hs)
    have step : tree.addRoutes pcre (r :: routes) =
        (tree.addRoute pcre r.1 r.2).1.addRoutes pcre routes := rfl
    rw [step, grown]
    simp only [extend, firstOf_cons, Option.or_assoc]

theorem accepts_static {pcre : Pcre} (routes : List (Str × Ctrl)) {tree : RawTree Ctrl}
    (wellFormed : tree.WellFormed) {f : Str → Option Ctrl} (table : tree.entries = tableOf f)
    (static : ∀ r ∈ routes, IsStatic pcre r.1) :
    tree.Accepts pcre routes ↔
      (routes.map (·.1)).Nodup ∧ ∀ p ∈ routes.map (·.1), f p = none := by
  induction routes generalizing tree f with
  | nil => simp [RawTree.Accepts]
  | cons r routes ih =>
    have here := static r List.mem_cons_self
    obtain ⟨verdict, grown⟩ := addRoute_static wellFormed table here r.2
    have rest := ih (wellFormed.addRoute r.1 r.2) grown
      fun s hs => static s (List.mem_cons_of_mem r hs)
    have extended : ∀ p, extend f r.1 r.2 p = none ↔ r.1 ≠ p ∧ f p = none := by
      intro p
      rw [extend, Option.or_eq_none_iff, and_comm]
      by_cases same : r.1 = p
      · simp [same]
      · simp [same]
    simp only [RawTree.Accepts, verdict, rest, extended, List.map_cons, List.nodup_cons,
      List.forall_mem_cons]
    constructor
    · rintro ⟨vacant, nodup, others⟩
      refine ⟨⟨?_, nodup⟩, vacant, fun p hp => (others p hp).2⟩
      intro again
      exact (others r.1 again).1 rfl
    · rintro ⟨⟨fresh, nodup⟩, vacant, others⟩
      refine ⟨vacant, nodup, fun p hp => ⟨?_, others p hp⟩⟩
      rintro rfl
      exact fresh hp

/-! ## All methods -/

/-- The controller of the first registration of the method and the path. -/
def firstRegistration (pre : Str) (routes : List (Route Ctrl)) (m : HttpMethod) (p : Str) :
    Option Ctrl :=
  (routes.find? fun r => r.1 = m ∧ pre ++ r.2.1 = p).map (·.2.2)

theorem firstOf_routesOf (pre : Str) (m : HttpMethod) (routes : List (Route Ctrl)) (p : Str) :
    firstOf (routesOf pre m routes) p = firstRegistration pre routes m p := by
  induction routes with
  | nil => rfl
  | cons r routes ih =>
    have head : firstRegistration pre (r :: routes) m p =
        if r.1 = m ∧ pre ++ r.2.1 = p then some r.2.2 else firstRegistration pre routes m p := by
      by_cases here : r.1 = m ∧ pre ++ r.2.1 = p
      · simp [firstRegistration, here]
      · rw [if_neg here, firstRegistration, List.find?_cons_of_neg (by simpa using here)]
        rfl
    rw [routesOf_cons, head]
    by_cases same : r.1 = m
    · rw [if_pos same, firstOf_cons, ih]
      by_cases here : pre ++ r.2.1 = p
      · simp [same, here]
      · simp [here]
    · rw [if_neg same, ih, if_neg fun h => same h.1]

theorem nodup_routesOf (pre : Str) (routes : List (Route Ctrl)) :
    (routes.map fun r => (r.1, r.2.1)).Nodup ↔
      ∀ m, ((routesOf pre m routes).map (·.1)).Nodup := by
  induction routes with
  | nil => simp [routesOf]
  | cons r routes ih =>
    have member : ∀ m p, pre ++ p ∈ (routesOf pre m routes).map (·.1) ↔
        (m, p) ∈ routes.map fun r => (r.1, r.2.1) := by
      intro m p
      simp only [routesOf, List.map_map, List.mem_map, List.mem_filter, decide_eq_true_eq,
        Function.comp, Prod.mk.injEq, List.append_cancel_left_eq, and_assoc]
    rw [List.map_cons, List.nodup_cons, ih]
    constructor
    · rintro ⟨fresh, nodup⟩ m
      rw [routesOf_cons]
      by_cases same : r.1 = m
      · subst same
        rw [if_pos rfl, List.map_cons, List.nodup_cons, member]
        exact ⟨fresh, nodup r.1⟩
      · rw [if_neg same]
        exact nodup m
    · intro all
      constructor
      · have here := all r.1
        rw [routesOf_cons, if_pos rfl, List.map_cons, List.nodup_cons, member] at here
        exact here.1
      · intro m
        have here := all m
        rw [routesOf_cons] at here
        by_cases same : r.1 = m
        · rw [if_pos same, List.map_cons, List.nodup_cons] at here
          exact here.2
        · rwa [if_neg same] at here

/-- Without repeated registrations the order of the routes does not matter. -/
theorem firstRegistration_perm (pre : Str) {routes routes' : List (Route Ctrl)}
    (perm : routes.Perm routes') (nodup : (routes.map fun r => (r.1, r.2.1)).Nodup)
    (m : HttpMethod) (p : Str) :
    firstRegistration pre routes' m p = firstRegistration pre routes m p := by
  induction perm with
  | nil => rfl
  | cons r perm ih =>
    rw [List.map_cons, List.nodup_cons] at nodup
    have below := ih nodup.2
    simp only [firstRegistration, List.find?_cons] at below ⊢
    split
    · rfl
    · exact below
  | swap r s routes =>
    rw [List.map_cons, List.map_cons, List.nodup_cons, List.mem_cons, not_or] at nodup
    simp only [firstRegistration, List.find?_cons]
    by_cases hr : r.1 = m ∧ pre ++ r.2.1 = p
    · have hs : ¬ (s.1 = m ∧ pre ++ s.2.1 = p) := by
        rintro ⟨method, path⟩
        apply nodup.1.1
        rw [method, hr.1, List.append_cancel_left (path.trans hr.2.symm)]
      simp [hr, hs]
    · simp [hr]
  | trans first second ih ih' =>
    exact (ih' ((first.map _).nodup_iff.mp nodup)).trans (ih nodup)

section StaticRouting

variable (pcre : Pcre) (pre : Str) (builder : RouterBuilder Ctrl)

/-- Every registered path is accepted and has no wildcard segment. -/
def AllStatic : Prop := ∀ r ∈ builder.routes, IsStatic pcre (pre ++ r.2.1)

variable {pcre pre builder}

theorem AllStatic.routesOf (static : AllStatic pcre pre builder) (m : HttpMethod) :
    ∀ r ∈ routesOf pre m builder.routes, IsStatic pcre r.1 := by
  intro r hr
  obtain ⟨s, hs, rfl⟩ := List.mem_map.mp hr
  exact static s (List.mem_of_mem_filter hs)

theorem tableOf_none : (tableOf fun _ => none : Table Sym Ctrl) = ∅ := by
  apply Set.eq_empty_of_forall_notMem
  rintro e ⟨s, -, value⟩
  exact absurd value (by simp)

theorem buildTree_static_valid (static : AllStatic pcre pre builder) :
    (Router.buildTree pcre pre builder).1.valid = true ↔
      (builder.routes.map fun r => (r.1, r.2.1)).Nodup := by
  rw [buildTree_valid, nodup_routesOf pre]
  apply forall_congr'
  intro m
  rw [accepts_static _ (Or.inl rfl) (entries_empty.trans tableOf_none.symm) (static.routesOf m)]
  exact and_iff_left fun _ _ => rfl

theorem buildTree_static_forward (static : AllStatic pcre pre builder) (m : HttpMethod) (p : Str)
    (params : Params) :
    ((Router.buildTree pcre pre builder).1.forward pcre m p params).ctrl =
        firstRegistration pre builder.routes m p ∧
      ((Router.buildTree pcre pre builder).1.forward pcre m p params).params = params := by
  have table := addRoutes_static (routesOf pre m builder.routes) (Or.inl rfl)
    (entries_empty.trans tableOf_none.symm) (static.routesOf m)
  have reachable : RawTree.Reachable pcre ({} : RawTree Ctrl) := .empty
  have wellFormed := (reachable.addRoutes (routesOf pre m builder.routes)).wellFormed
  have lookup : _ = find pcre _ p params := forwardLoop_tree wellFormed p params
  rw [table, find_tableOf, Option.none_or, firstOf_routesOf, Prod.mk.injEq] at lookup
  rw [forward_eq, buildTree_tree]
  exact lookup

end StaticRouting

/-- Static routing is an exact lookup table, whatever the order of the registrations. -/
theorem static_routing (pcre : Pcre) (pre : Str) (builder : RouterBuilder Ctrl)
    (static : AllStatic pcre pre builder) :
    ((Router.buildTree pcre pre builder).1.valid = true ↔
        (builder.routes.map fun r => (r.1, r.2.1)).Nodup) ∧
      (∀ m p params,
        let r := (Router.buildTree pcre pre builder).1.forward pcre m p params
        r.ctrl = firstRegistration pre builder.routes m p ∧ r.params = params) ∧
      ∀ routes', builder.routes.Perm routes' →
        (Router.buildTree pcre pre builder).1.valid = true → ∀ m p params,
          ((Router.buildTree pcre pre ⟨routes'⟩).1.forward pcre m p params).ctrl =
            ((Router.buildTree pcre pre builder).1.forward pcre m p params).ctrl := by
  refine ⟨buildTree_static_valid static, buildTree_static_forward static, ?_⟩
  intro routes' perm valid m p params
  have static' : AllStatic pcre pre ⟨routes'⟩ := fun r hr => static r (perm.mem_iff.mpr hr)
  rw [(buildTree_static_forward static' m p params).1, (buildTree_static_forward static m p params).1]
  exact firstRegistration_perm pre perm ((buildTree_static_valid static).mp valid) m p

/-- Routes of two methods that share the path `/foo`. -/
def fooRoutes : RouterBuilder ℕ :=
  ⟨[(.GET, "/foobar".toList, 1), (.GET, "/foo".toList, 2), (.POST, "/foo".toList, 3)]⟩

theorem static_routing_foo :
    AllStatic anyPcre [] fooRoutes ∧
      ((Router.buildTree anyPcre [] fooRoutes).1.forward anyPcre .GET "/foo".toList []).ctrl =
        some 2 := by
  have static : AllStatic anyPcre [] fooRoutes := by
    intro r member
    simp only [fooRoutes, List.mem_cons, List.not_mem_nil, or_false] at member
    rcases member with rfl | rfl | rfl
    · exact ⟨⟨[], "/foobar".toList, "/foobar".toList⟩, by decide +kernel, rfl⟩
    · exact ⟨⟨[], "/foo".toList, "/foo".toList⟩, by decide +kernel, rfl⟩
    · exact ⟨⟨[], "/foo".toList, "/foo".toList⟩, by decide +kernel, rfl⟩
  have answer := (static_routing anyPcre [] fooRoutes static).2.1 .GET "/foo".toList []
  exact ⟨static, answer.1⟩

end Cppmhd
