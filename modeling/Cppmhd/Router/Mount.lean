import Cppmhd.Router.Serving

/-!
# Mounting routes under a prefix

`RouterBuilder::add` of `router.cc` for sub-routes.  For a prefix of static segments the parser, the
registration and the lookup commute with putting the prefix in front (`parsePathSegment_mounted`,
`mounted_addRoute`, `find_lits`), so that a mounted router accepts the same routes and serves the
prefixed requests as the plain router serves the requests (`mounting_is_prefixing`).
-/

open Words Table

namespace Cppmhd

variable {Ctrl : Type} {pcre : Pcre}

/-! ## The builder -/

/-- `(/[^/]+)+`: a route without a slash at its end. -/
def isSubRoute (path : Str) : Bool := isRoute path && path.getLast? != some '/'

/-- `URL_SUBROUTE_PREFIX_PATTERN`. -/
def subRoutePattern : Str → Bool := upToDollar isSubRoute

/-- `RouterBuilder::add` of one route. -/
def RouterBuilder.add (builder : RouterBuilder Ctrl) (mtd : HttpMethod) (path : Str) (ctrl : Ctrl) :
    RouterBuilder Ctrl :=
  { builder with routes := builder.routes ++ [(mtd, path, ctrl)] }

/-- `RouterBuilder::add` of sub-routes: the builder, and what is logged. -/
def RouterBuilder.addSubRoutes (builder : RouterBuilder Ctrl) (pfx : Str)
    (subRoutes : RouterBuilder Ctrl) : RouterBuilder Ctrl × List Str :=
  if subRoutePattern pfx then
    (subRoutes.routes.foldl (fun builder sub => builder.add sub.1 (pfx ++ sub.2.1) sub.2.2) builder, [])
  else (builder, ["Bad Sub Route Prefix. Prefix must match '^(/[^/]+)+$'".toList])

theorem foldl_add_routes (pfx : Str) (subs : List (Route Ctrl)) (builder : RouterBuilder Ctrl) :
    (subs.foldl (fun builder sub => builder.add sub.1 (pfx ++ sub.2.1) sub.2.2) builder).routes =
      builder.routes ++ subs.map fun sub => (sub.1, pfx ++ sub.2.1, sub.2.2) := by
  induction subs generalizing builder with
  | nil => exact (List.append_nil _).symm
  | cons sub subs ih =>
    rw [List.foldl_cons, ih, RouterBuilder.add, List.append_assoc]
    rfl

/-- Which registrations `buildTree` accepts, in their order. -/
def acceptances (pcre : Pcre) (pre : Str) : MethodTrees Ctrl → List (Route Ctrl) → List Bool
  | _, [] => []
  | raw, r :: routes =>
    let s := MethodTrees.insert pcre (pre ++ r.2.1) r.1 r.2.2 raw
    decide (s.2 = .accepted) :: acceptances pcre pre s.1 routes

/-- The accepted registrations are those whose controllers the router keeps. -/
theorem buildTree_acceptances (pcre : Pcre) (pre : Str) (builder : RouterBuilder Ctrl) :
    let router := (Router.buildTree pcre pre builder).1
    let bits := acceptances pcre pre [] builder.routes
    router.valid = bits.all id ∧
      router.controllers = ((bits.zip builder.routes).filter (·.1)).map (·.2.2.2) := by
  have loop : ∀ (routes : List (Route Ctrl)) (st : BuildState Ctrl),
      let st' := routes.foldl (BuildState.add pcre pre) st
      let bits := acceptances pcre pre st.raw routes
      st'.success = (st.success && bits.all id) ∧
        st'.controllers = st.controllers ++ ((bits.zip routes).filter (·.1)).map (·.2.2.2) := by
    intro routes
    induction routes with
    | nil => simp [acceptances]
    | cons r routes ih =>
      intro st
      have later := ih (BuildState.add pcre pre st r)
      simp only [List.foldl_cons, acceptances]
      by_cases accepted : (MethodTrees.insert pcre (pre ++ r.2.1) r.1 r.2.2 st.raw).2 = .accepted
      · simp only [BuildState.add, accepted, if_true] at later ⊢
        simpa using later
      · simp only [BuildState.add, accepted, if_false] at later ⊢
        simpa [accepted] using later
  obtain ⟨success, controllers⟩ := loop builder.routes {}
  exact ⟨success.trans (Bool.true_and _), controllers⟩

/-! ## Static prefixes -/

/-- An accepted prefix whose segments are all static. -/
structure StaticPrefix (P : Str) : Prop where
  pattern : subRoutePattern P = true
  static : ∀ part ∈ pieces '/' P, normalStatic part = true

theorem pieces_append (c : Char) (s t : Str) :
    pieces c (s ++ c :: t) = pieces c s ++ pieces c t := by
  induction hn : s.length using Nat.strong_induction_on generalizing s with
  | _ n ih =>
    by_cases present : c ∈ s
    · obtain ⟨seg, rest, rfl, free⟩ := List.eq_append_cons_of_mem present
      have shorter : rest.length < n := by
        rw [← hn, List.length_append, List.length_cons]
        omega
      rw [List.append_assoc, List.cons_append, pieces_append_cons free, pieces_append_cons free,
        ih rest.length shorter rest rfl, List.append_assoc]
    · rw [pieces_append_cons present, pieces_of_not_mem present]

namespace StaticPrefix

variable {P : Str} (pfx : StaticPrefix P)

include pfx

theorem route : isSubRoute P = true := by
  have pattern := pfx.pattern
  simp only [subRoutePattern, upToDollar, Bool.or_eq_true, Bool.and_eq_true, beq_iff_eq] at pattern
  rcases pattern with whole | ⟨newline, whole⟩
  · exact whole
  · have route : isRoute P = true := by
      apply isRoute_of_routePattern
      simp only [isSubRoute, Bool.and_eq_true] at whole
      simp only [routePattern, upToDollar, newline, whole.1, beq_self_eq_true, Bool.and_self,
        Bool.or_true]
    rw [isSubRoute, route, newline]
    decide

theorem isRoute : P.head? = some '/' ∧ P.IsChain NotSlashes ∧ P.getLast? ≠ some '/' := by
  have route := pfx.route
  simp only [isSubRoute, Cppmhd.isRoute, Bool.and_eq_true, beq_iff_eq, decide_eq_true_eq, bne_iff_ne]
    at route
  exact ⟨route.1.1, route.1.2, route.2⟩

/-- The segments make up the prefix. -/
theorem join : (pieces '/' P).flatMap (fun part => '/' :: part) = P := by
  obtain ⟨rooted, chain, last⟩ := pfx.isRoute
  have joined := join_pieces rooted chain
  rwa [if_neg last, List.append_nil] at joined

theorem free : PARAM_CHAR ∉ P := by
  rw [← pfx.join, List.mem_flatMap]
  rintro ⟨part, member, colon⟩
  rcases List.mem_cons.mp colon with same | inside
  · exact absurd same (by decide)
  · exact ((plain_of_normalStatic (pfx.static part member)).1 _ inside).2 rfl

theorem route_append {path : Str} (route : Cppmhd.isRoute path = true) :
    routePattern (P ++ path) = true := by
  obtain ⟨rooted, chain, last⟩ := pfx.isRoute
  simp only [Cppmhd.isRoute, Bool.and_eq_true, beq_iff_eq, decide_eq_true_eq] at route
  have whole : Cppmhd.isRoute (P ++ path) = true := by
    simp only [Cppmhd.isRoute, Bool.and_eq_true, beq_iff_eq, decide_eq_true_eq]
    refine ⟨by rw [List.head?_append, rooted]; rfl, List.isChain_append.mpr ⟨chain, route.2, ?_⟩⟩
    intro a ha b hb
    rintro ⟨rfl, rfl⟩
    exact last ha
  simp only [routePattern, upToDollar, whole, Bool.true_or]

end StaticPrefix

/-! ## The parser -/

/-- The second state has the prefix in front of its texts. -/
structure Shifted (P : Str) (st st' : PartState) : Prop where
  i : st'.i = st.i
  calced : st'.calced = P ++ st.calced
  full : st'.full = P ++ st.full
  params : st'.params = st.params
  log : st.log = [] → st'.log = []

theorem Shifted.emplace {P : Str} {st st' : PartState} (shifted : Shifted P st st') (m : Param)
    (i : ℕ) : Shifted P (st.emplace m i) (st'.emplace m i) where
  i := rfl
  calced := by simp only [PartState.emplace, shifted.calced, List.append_assoc]
  full := by simp only [PartState.emplace, shifted.full, List.append_assoc]
  params := by simp only [PartState.emplace, shifted.params]
  log := shifted.log

/-- A round that logs an error keeps what it has of the state. -/
theorem Shifted.failed {P : Str} {st st' : PartState} (shifted : Shifted P st st') {i i' : ℕ}
    (same : i' = i) (e e' : RouteError) : Shifted P { st with i := i, log := st.log ++ [e] }
      { st' with i := i', log := st'.log ++ [e'] } where
  i := same
  calced := shifted.calced
  full := shifted.full
  params := shifted.params
  log := by simp

theorem parsePart_shifted (pcre : Pcre) (path path' : Str) {P : Str} {st st' : PartState}
    (shifted : Shifted P st st') (part : Str) :
    Shifted P (parsePart pcre path st part) (parsePart pcre path' st' part) := by
  have names : ∀ name, st'.nameOr name = st.nameOr name := by
    intro name
    rw [PartState.nameOr, PartState.nameOr, shifted.i]
  unfold parsePart
  split_ifs with static
  · exact ⟨shifted.i, by simp [shifted.calced], by simp [shifted.full], shifted.params, shifted.log⟩
  · split
    · simp only [names]
      exact shifted.emplace _ _
    · split
      · simp only [names]
        split
        · exact shifted.emplace _ _
        · exact shifted.failed rfl _ _
      · exact shifted.failed shifted.i _ _

theorem foldl_parsePart_shifted (pcre : Pcre) (path path' : Str) {P : Str} (parts : List Str)
    {st st' : PartState} (shifted : Shifted P st st') :
    Shifted P (parts.foldl (parsePart pcre path) st) (parts.foldl (parsePart pcre path') st') := by
  induction parts generalizing st st' with
  | nil => exact shifted
  | cons part parts ih => exact ih (parsePart_shifted pcre path path' shifted part)

/-- Static segments only write the texts. -/
theorem foldl_normalStatic (pcre : Pcre) (path : Str) (parts : List Str)
    (static : ∀ part ∈ parts, normalStatic part = true) (st : PartState) :
    parts.foldl (parsePart pcre path) st =
      { st with calced := st.calced ++ parts.flatMap fun part => '/' :: part
                full := st.full ++ parts.flatMap fun part => '/' :: part } := by
  induction parts generalizing st with
  | nil => simp
  | cons part parts ih =>
    have here : parsePart pcre path st part =
        { st with calced := st.calced ++ '/' :: part, full := st.full ++ '/' :: part } := by
      rw [parsePart, if_pos (static part List.mem_cons_self)]
    rw [List.foldl_cons, here, ih fun s hs => static s (List.mem_cons_of_mem part hs)]
    simp

/-- The mounted path has the same parameters, and the prefix in front of its texts. -/
theorem parsePathSegment_mounted {P : Str} (pfx : StaticPrefix P) {path : Str} {p : PathParser}
    (parsed : parsePathSegment pcre path = .ok p) :
    ∃ p', parsePathSegment pcre (P ++ path) = .ok p' ∧ p'.params = p.params ∧
      p'.calced = P ++ p.calced := by
  obtain ⟨route, log, params, calced⟩ := parsePathSegment_ok parsed
  have rooted : ∃ rest, path = '/' :: rest := by
    simp only [isRoute, Bool.and_eq_true, beq_iff_eq] at route
    exact List.head?_eq_some_iff.mp route.1
  obtain ⟨rest, rfl⟩ := rooted
  have cut : pieces '/' (P ++ '/' :: rest) = pieces '/' P ++ pieces '/' ('/' :: rest) := by
    rw [pieces_append]
    exact congrArg _ (pieces_append '/' [] rest).symm
  have start : Shifted P {} ((pieces '/' P).foldl (parsePart pcre (P ++ '/' :: rest)) {}) := by
    rw [foldl_normalStatic pcre _ _ pfx.static, pfx.join]
    exact ⟨rfl, (List.append_nil P).symm, (List.append_nil P).symm, rfl, fun _ => rfl⟩
  have shifted := foldl_parsePart_shifted pcre ('/' :: rest) (P ++ '/' :: rest)
    (pieces '/' ('/' :: rest)) start
  rw [← List.foldl_append, ← cut] at shifted
  unfold parsePathSegment
  rw [if_pos (pfx.route_append route), split_char, Option.getD_some, List.nil_append]
  dsimp only
  rw [if_pos (shifted.log log)]
  refine ⟨_, rfl, shifted.params.trans params.symm, ?_⟩
  rw [calced, List.getLast?_append_of_ne_nil P (List.cons_ne_nil '/' rest)]
  split <;> simp [shifted.calced]

/-! ## The trees -/

/-- The second tree stores the routes of the first under the prefix. -/
structure Mounted (P : Str) (tree tree' : RawTree Ctrl) : Prop where
  plain : tree.WellFormed
  wellFormed : tree'.WellFormed
  entries : tree'.entries = prepend (lits P) tree.entries

theorem mounted_empty (P : Str) : Mounted P ({} : RawTree Ctrl) {} := by
  have empty : RawTree.entries ({} : RawTree Ctrl) = ∅ := by
    simp [RawTree.entries, RawNode.entries]
  exact ⟨Or.inl rfl, Or.inl rfl, by rw [empty, prepend_empty]⟩

/-- The two registrations have the same verdict, up to the text of a refusal. -/
theorem mounted_addRoute {P : Str} (pfx : StaticPrefix P) {tree tree' : RawTree Ctrl}
    (mounted : Mounted P tree tree') {path : Str} (parses : ∃ p, parsePathSegment pcre path = .ok p)
    (ctrl : Ctrl) :
    ((tree'.addRoute pcre (P ++ path) ctrl).2 = .accepted ↔
      (tree.addRoute pcre path ctrl).2 = .accepted) ∧
    Mounted P (tree.addRoute pcre path ctrl).1 (tree'.addRoute pcre (P ++ path) ctrl).1 := by
  obtain ⟨p, parsed⟩ := parses
  obtain ⟨p', parsed', params, calced⟩ := parsePathSegment_mounted pfx parsed
  obtain ⟨plain, here⟩ := addRoute_spec mounted.plain parsed ctrl
  obtain ⟨wellFormed, there⟩ := addRoute_spec mounted.wellFormed parsed' ctrl
  rw [calced, params, mounted.entries] at there
  by_cases free : Free tree.entries p.calced
  · obtain ⟨accepted, table⟩ := here.of_free free
    obtain ⟨accepted', table'⟩ := there.of_free ((free_prepend_lits pfx.free _ _).mpr free)
    refine ⟨by rw [accepted, accepted'], plain, wellFormed, ?_⟩
    rw [table', table, resolve_prepend_lits pfx.free, prepend_insert]
  · obtain ⟨⟨log, refused⟩, table⟩ := here.of_not_free free
    obtain ⟨⟨log', refused'⟩, table'⟩ :=
      there.of_not_free fun ok => free ((free_prepend_lits pfx.free _ _).mp ok)
    refine ⟨by rw [refused, refused']; exact ⟨nofun, nofun⟩, plain, wellFormed, ?_⟩
    rw [table', table]

/-- All trees of the methods are mounted. -/
def TreesMounted (P : Str) (trees trees' : MethodTrees Ctrl) : Prop :=
  ∀ m, Mounted P (trees.tree m) (trees'.tree m)

theorem insert_mounted {P : Str} (pfx : StaticPrefix P) {trees trees' : MethodTrees Ctrl}
    (mounted : TreesMounted P trees trees') {path : Str}
    (parses : ∃ p, parsePathSegment pcre path = .ok p) (mth : HttpMethod) (ctrl : Ctrl) :
    ((MethodTrees.insert pcre (P ++ path) mth ctrl trees').2 = .accepted ↔
      (MethodTrees.insert pcre path mth ctrl trees).2 = .accepted) ∧
    TreesMounted P (MethodTrees.insert pcre path mth ctrl trees).1
      (MethodTrees.insert pcre (P ++ path) mth ctrl trees').1 := by
  have here := mounted_addRoute pfx (mounted mth) parses ctrl
  rw [insert_verdict, insert_verdict]
  refine ⟨here.1, ?_⟩
  intro m
  rw [insert_tree, insert_tree]
  by_cases same : mth = m
  · subst same
    rw [if_pos rfl, if_pos rfl]
    exact here.2
  · rw [if_neg same, if_neg same]
    exact mounted m

theorem acceptances_mounted {P : Str} (pfx : StaticPrefix P) (routes : List (Route Ctrl))
    (parses : ∀ r ∈ routes, ∃ p, parsePathSegment pcre r.2.1 = .ok p) {trees trees' : MethodTrees Ctrl}
    (mounted : TreesMounted P trees trees') :
    acceptances pcre P trees' routes = acceptances pcre [] trees routes := by
  induction routes generalizing trees trees' with
  | nil => rfl
  | cons r routes ih =>
    obtain ⟨verdict, later⟩ := insert_mounted pfx mounted (parses r List.mem_cons_self) r.1 r.2.2
    rw [acceptances, acceptances]
    simp only [List.nil_append, verdict]
    rw [ih (fun s hs => parses s (List.mem_cons_of_mem r hs)) later]

theorem addRoutes_mounted {P : Str} (pfx : StaticPrefix P) (m : HttpMethod)
    (routes : List (Route Ctrl)) (parses : ∀ r ∈ routes, ∃ p, parsePathSegment pcre r.2.1 = .ok p)
    {tree tree' : RawTree Ctrl} (mounted : Mounted P tree tree') :
    Mounted P (tree.addRoutes pcre (routesOf [] m routes)) (tree'.addRoutes pcre (routesOf P m routes)) := by
  induction routes generalizing tree tree' with
  | nil => exact mounted
  | cons r routes ih =>
    have later := fun s hs => parses s (List.mem_cons_of_mem r hs)
    rw [routesOf_cons, routesOf_cons]
    by_cases same : r.1 = m
    · rw [if_pos same, if_pos same]
      exact ih later (mounted_addRoute pfx mounted (parses r List.mem_cons_self) r.2.2).2
    · rw [if_neg same, if_neg same]
      exact ih later mounted

/-! ## Mounted routers -/

/-- Sub-routes and the prefix argument of a router build the same router. -/
theorem buildTree_addSubRoutes (pcre : Pcre) {P : Str} (pattern : subRoutePattern P = true)
    (sub : RouterBuilder Ctrl) :
    (Router.buildTree pcre [] (RouterBuilder.addSubRoutes {} P sub).1).1 =
        (Router.buildTree pcre P sub).1 ∧
      ∀ trees, acceptances pcre [] trees (RouterBuilder.addSubRoutes {} P sub).1.routes =
        acceptances pcre P trees sub.routes := by
  have routes : (RouterBuilder.addSubRoutes {} P sub).1.routes =
      sub.routes.map fun sub => (sub.1, P ++ sub.2.1, sub.2.2) := by
    rw [RouterBuilder.addSubRoutes, if_pos pattern]
    exact foldl_add_routes P sub.routes {}
  constructor
  · simp only [Router.buildTree, routes, List.foldl_map]
    rfl
  · intro trees
    rw [routes]
    induction sub.routes generalizing trees with
    | nil => rfl
    | cons r subs ih =>
      rw [List.map_cons, acceptances, acceptances]
      dsimp only [List.nil_append]
      rw [ih]

/-- A router whose routes are mounted under a static prefix accepts the routes that the plain one
accepts, serves a request behind the prefix as the plain one serves the request, and serves no other
request. -/
theorem mounting_is_prefixing (pcre : Pcre) {P : Str} (pfx : StaticPrefix P)
    (sub : RouterBuilder Ctrl) (parses : ∀ r ∈ sub.routes, ∃ p, parsePathSegment pcre r.2.1 = .ok p) :
    let plain := (Router.buildTree pcre [] sub).1
    let mountedBuilder := (RouterBuilder.addSubRoutes {} P sub).1
    let mounted := (Router.buildTree pcre [] mountedBuilder).1
    mounted = (Router.buildTree pcre P sub).1 ∧
    acceptances pcre P [] sub.routes = acceptances pcre [] [] sub.routes ∧
    acceptances pcre [] [] mountedBuilder.routes = acceptances pcre [] [] sub.routes ∧
    mounted.valid = plain.valid ∧
    (∀ m p params, (mounted.forward pcre m (P ++ p) params).ctrl = (plain.forward pcre m p params).ctrl ∧
      (mounted.forward pcre m (P ++ p) params).params = (plain.forward pcre m p params).params) ∧
    ∀ m q params, ¬ P <+: q → (mounted.forward pcre m q params).ctrl = none := by
  intro plain mountedBuilder mounted
  obtain ⟨same, bits⟩ := buildTree_addSubRoutes pcre pfx.pattern sub
  have start : TreesMounted P ([] : MethodTrees Ctrl) [] := fun _ => mounted_empty P
  have accepted := acceptances_mounted pfx sub.routes parses start
  have entries : ∀ m, (Router.buildTree pcre P sub).1.entries m = prepend (lits P) (plain.entries m) := by
    intro m
    rw [Router.entries, Router.entries, buildTree_tree, buildTree_tree]
    exact (addRoutes_mounted pfx m sub.routes parses (mounted_empty P)).entries
  refine ⟨same, accepted, (bits []).trans accepted, ?_, ?_, ?_⟩
  · rw [show mounted = _ from same, (buildTree_acceptances pcre P sub).1,
      (buildTree_acceptances pcre [] sub).1, accepted]
  · intro m p params
    have there := forward_find pcre P sub m (P ++ p) params
    have here := forward_find pcre [] sub m p params
    rw [entries, find_lits, ← here] at there
    rw [show mounted = _ from same]
    exact Prod.ext_iff.mp there
  · intro m q params off
    have there := forward_find pcre P sub m q params
    rw [entries, find_lits_mismatch _ off] at there
    rw [show mounted = _ from same]
    exact (Prod.ext_iff.mp there).1

/-- A parameter, a catch-all and a route that conflicts with the parameter. -/
def userRoutes : RouterBuilder ℕ :=
  ⟨[(.GET, "/\x7b:id\x7d/x".toList, 1), (.POST, "/\x7b**\x7d".toList, 2), (.GET, "/me".toList, 3)]⟩

theorem mounting_is_prefixing_users :
    let plain := (Router.buildTree anyPcre [] userRoutes).1
    let mounted := (Router.buildTree anyPcre []
      (RouterBuilder.addSubRoutes {} "/api/users".toList userRoutes).1).1
    mounted.valid = plain.valid ∧
      (mounted.forward anyPcre .GET "/api/users/7/x".toList []).ctrl =
        (plain.forward anyPcre .GET "/7/x".toList []).ctrl ∧
      (mounted.forward anyPcre .GET "/api/me".toList []).ctrl = none := by
  have pfx : StaticPrefix "/api/users".toList := ⟨by decide +kernel, by decide +kernel⟩
  have parses : ∀ r ∈ userRoutes.routes, ∃ p, parsePathSegment anyPcre r.2.1 = .ok p := by
    have decided : ∀ r ∈ userRoutes.routes, (parsePathSegment anyPcre r.2.1).toOption.isSome := by
      decide +kernel
    intro r hr
    have here := decided r hr
    cases parsed : parsePathSegment anyPcre r.2.1 with
    | ok p => exact ⟨p, rfl⟩
    | error log =>
      rw [parsed] at here
      exact absurd here Bool.false_ne_true
  obtain ⟨-, -, -, valid, serves, off⟩ := mounting_is_prefixing anyPcre pfx userRoutes parses
  exact ⟨valid, (serves .GET "/7/x".toList []).1, off .GET "/api/me".toList [] (by decide)⟩

end Cppmhd
