import Cppmhd.Router.Serving

/-!
# The order of registrations

Where any two routes of a method agree on the wildcards that they share (`Agree`), every tree stores
exactly the routes' own patterns, so neither the verdicts nor the answers of `forward` depend on the
order of the registrations (`order_irrelevant`).
-/

open Words Table

namespace Cppmhd

variable {Ctrl : Type}

/-- A parsed route with its controller. -/
abbrev Parsed (Ctrl : Type) := PathParser × Ctrl

/-- The route with its own parameters. -/
def Parsed.own (r : Parsed Ctrl) : Pattern := patternOf r.1.calced r.1.params

/-- The table of the routes, each with its own parameters. -/
def ownTable (routes : List (Parsed Ctrl)) : Table Sym Ctrl :=
  {e | ∃ r ∈ routes, e = (r.own, r.2)}

/-- Each of the two routes keeps its own parameters next to the other. -/
def Agree (r r' : Parsed Ctrl) : Prop :=
  KeepsOwn {(r.own, r.2)} r'.1 ∧ KeepsOwn {(r'.own, r'.2)} r.1

/-- The second route may be registered after the first. -/
def Tolerates (r r' : Parsed Ctrl) : Prop := Compat r.own r'.1.calced

/-! ## Patterns with the same text -/

/-- A tree path is determined by its text and its wildcards. -/
theorem covers_wilds_unique {π π' : Pattern} {t : Str} (covers : Covers π t)
    (covers' : Covers π' t) {l : List Wild} (own : wilds π <+: l) (own' : wilds π' <+: l) :
    π = π' := by
  induction t generalizing π π' l with
  | nil =>
    cases π with
    | cons s π => cases s <;> exact covers.elim
    | nil =>
      cases π' with
      | nil => rfl
      | cons s π' => cases s <;> exact covers'.elim
  | cons x t ih =>
    cases π with
    | nil => exact absurd covers (List.cons_ne_nil x t)
    | cons s π =>
      cases π' with
      | nil => exact absurd covers' (List.cons_ne_nil x t)
      | cons s' π' =>
        cases s with
        | lit a =>
          obtain ⟨literal, rfl, below⟩ := covers
          cases s' with
          | wild w' => exact absurd covers'.1 literal
          | lit a' =>
            obtain ⟨-, rfl, below'⟩ := covers'
            rw [ih below below' own own']
        | wild w =>
          obtain ⟨placeholder, below⟩ := covers
          cases s' with
          | lit a' => exact absurd placeholder covers'.1
          | wild w' =>
            obtain ⟨-, below'⟩ := covers'
            rw [wilds_wild] at own own'
            cases l with
            | nil => exact absurd (List.prefix_nil.mp own) (List.cons_ne_nil _ _)
            | cons v l =>
              obtain ⟨rfl, rest⟩ := List.cons_prefix_cons.mp own
              obtain ⟨rfl, rest'⟩ := List.cons_prefix_cons.mp own'
              by_cases isCatchAll : w'.type = .CATCH_ALL
              · rw [if_pos isCatchAll] at below below'
                rw [below, below']
              · rw [if_neg isCatchAll] at below below'
                rw [ih below below' rest rest']

theorem prefix_of_upToCatchAll (params : List Param) : upToCatchAll params <+: params := by
  induction params with
  | nil => exact List.prefix_refl _
  | cons p params ih =>
    rw [upToCatchAll]
    split_ifs with isCatchAll
    · exact List.cons_prefix_cons.mpr ⟨rfl, List.nil_prefix⟩
    · exact List.cons_prefix_cons.mpr ⟨rfl, ih⟩

section Own

variable {r r' : Parsed Ctrl} (calculated : Calculated r.1.calced r.1.params)
  (calculated' : Calculated r'.1.calced r'.1.params)

include calculated in
theorem covers_own : Covers r.own r.1.calced := covers_patternOf calculated.counted.le

include calculated in
/-- A route that keeps its own parameters is stored with them. -/
theorem resolve_own {E : Table Sym Ctrl} (free : Free E r.1.calced) (keeps : KeepsOwn E r.1) :
    resolve E r.1.calced r.1.params = r.own := by
  have covers := covers_resolve free calculated.counted.le
  have kept := (keepsOwn_iff E calculated).mp keeps
  have own : wilds r.own <+: r.1.params.map Param.wild := by
    rw [Parsed.own, wilds_patternOf calculated.counted.le, calculated.counted, List.take_length]
    exact (prefix_of_upToCatchAll _).map _
  exact covers_wilds_unique covers (covers_own calculated) kept own

end Own

/-! ## Several stored routes -/

theorem free_singleton (π : Pattern) (b : Ctrl) (t : Str) :
    Free ({(π, b)} : Table Sym Ctrl) t ↔ Compat π t := by
  constructor
  · intro free
    exact free (π, b) rfl
  · rintro compat e rfl
    exact compat

theorem after_singleton_cons (s : Sym) (π : Pattern) (b : Ctrl) :
    after s ({(s :: π, b)} : Table Sym Ctrl) = {(π, b)} := by
  ext ⟨ρ, c⟩
  simp

theorem after_singleton_of_ne {s : Sym} {π : Pattern} (other : ∀ ρ, π ≠ s :: ρ) (b : Ctrl) :
    after s ({(π, b)} : Table Sym Ctrl) = ∅ := by
  apply Set.eq_empty_of_forall_notMem
  rintro ⟨ρ, c⟩ stored
  exact other ρ (congrArg Prod.fst (Set.mem_singleton_iff.mp stored)).symm

theorem wildOf_singleton_wild (w : Wild) (π : Pattern) (b : Ctrl) :
    wildOf ({(.wild w :: π, b)} : Table Sym Ctrl) = some w := by
  refine wildOf_eq_some ⟨π, b, Set.mem_singleton _⟩ ?_
  intro w' ρ c stored
  have same := congrArg Prod.fst (Set.mem_singleton_iff.mp stored)
  simp only [List.cons.injEq, Sym.wild.injEq] at same
  exact same.1

/-- What each stored route alone would make of a path, all of them together make of it. -/
theorem resolve_of_each {E : Table Sym Ctrl} (proper : Proper E) {t : Str} {params : List Param}
    {π : Pattern} (each : ∀ e ∈ E, resolve {e} t params = π)
    (alone : E = ∅ → resolve (∅ : Table Sym Ctrl) t params = π) : resolve E t params = π := by
  induction t generalizing E π with
  | nil =>
    by_cases empty : E = ∅
    · rw [← alone empty]
      rfl
    · obtain ⟨e, stored⟩ := Set.nonempty_iff_ne_empty.mpr empty
      rw [← each e stored]
      rfl
  | cons x t ih =>
    by_cases placeholder : x = PARAM_CHAR
    · subst placeholder
      cases wild : wildOf E with
      | none =>
        rw [resolve_fresh wild]
        by_cases empty : E = ∅
        · rw [← alone empty, resolve_empty]
        · obtain ⟨⟨ρ, b⟩, stored⟩ := Set.nonempty_iff_ne_empty.mpr empty
          have none : wildOf ({(ρ, b)} : Table Sym Ctrl) = none := by
            apply wildOf_eq_none
            intro w σ c same
            rw [proper.wildOf_eq (same ▸ stored : (.wild w :: σ, c) ∈ E)] at wild
            exact absurd wild (by simp)
          rw [← each _ stored, resolve_fresh none]
      | some w =>
        obtain ⟨ρ, b, stored⟩ := mem_of_wildOf wild
        have here := each _ stored
        rw [resolve_wild (wildOf_singleton_wild w ρ b), after_singleton_cons] at here
        rw [resolve_wild wild, ← here]
        congr 1
        apply ih (proper.after (.wild w))
        · rintro ⟨σ, c⟩ stored'
          have here' := each _ stored'
          rw [resolve_wild (wildOf_singleton_wild w σ c), after_singleton_cons, ← here] at here'
          exact (List.cons.inj here').2
        · intro empty
          exact absurd (empty ▸ stored : (ρ, b) ∈ (∅ : Table Sym Ctrl)) (Set.notMem_empty _)
    · by_cases beginning : ∃ ρ b, (.lit x :: ρ, b) ∈ E
      · obtain ⟨ρ, b, stored⟩ := beginning
        have here := each _ stored
        rw [resolve_lit placeholder, after_singleton_cons] at here
        rw [resolve_lit placeholder, ← here]
        congr 1
        apply ih (proper.after (.lit x))
        · rintro ⟨σ, c⟩ stored'
          have here' := each _ stored'
          rw [resolve_lit placeholder, after_singleton_cons, ← here] at here'
          exact (List.cons.inj here').2
        · intro empty
          exact absurd (empty ▸ stored : (ρ, b) ∈ (∅ : Table Sym Ctrl)) (Set.notMem_empty _)
      · have none : after (.lit x) E = ∅ := by
          apply Set.eq_empty_of_forall_notMem
          rintro ⟨ρ, b⟩ stored
          exact beginning ⟨ρ, b, stored⟩
        rw [resolve_lit placeholder, none]
        by_cases empty : E = ∅
        · rw [← alone empty, resolve_lit placeholder, after_empty]
        · obtain ⟨⟨ρ, b⟩, stored⟩ := Set.nonempty_iff_ne_empty.mpr empty
          have other : ∀ σ, ρ ≠ .lit x :: σ := by
            rintro σ rfl
            exact beginning ⟨σ, b, stored⟩
          rw [← each _ stored, resolve_lit placeholder, after_singleton_of_ne other]

/-! ## Two routes -/

/-- A route that would be kept next to a stored one tolerates the stored one in turn. -/
theorem compat_symm {π π' : Pattern} {t t' : Str} {params : List Param} (b : Ctrl)
    (covers : Covers π t) (covers' : Covers π' t') (compat : Compat π t')
    (kept : resolve ({(π, b)} : Table Sym Ctrl) t' params = π') : Compat π' t := by
  induction π generalizing π' t t' with
  | nil =>
    rw [show t = [] from covers]
    apply (compat_nil_iff π').mpr
    rintro rfl
    exact compat covers'
  | cons s π ih =>
    cases t with
    | nil => cases s <;> exact covers.elim
    | cons y t =>
      cases t' with
      | nil =>
        rw [← kept]
        exact List.cons_ne_nil y t
      | cons x t' =>
        cases s with
        | lit a =>
          obtain ⟨literal, rfl, below⟩ := covers
          have placeholder : x ≠ PARAM_CHAR := compat.1
          rw [resolve_lit placeholder] at kept
          subst kept
          refine ⟨literal, ?_⟩
          rintro rfl
          rw [after_singleton_cons]
          rw [after_singleton_cons] at covers'
          exact ih below covers'.2.2 (compat.2 rfl) rfl
        | wild w =>
          obtain ⟨rfl, below⟩ := covers
          obtain ⟨rfl, isParam, rest⟩ := compat
          have goesOn : w.type ≠ .CATCH_ALL := by
            rw [isParam]
            decide
          rw [resolve_wild (wildOf_singleton_wild w π b), after_singleton_cons] at kept
          subst kept
          obtain ⟨-, below'⟩ := covers'
          rw [if_neg goesOn] at below below'
          exact ⟨rfl, isParam, ih below below' rest rfl⟩

theorem Agree.symm {r r' : Parsed Ctrl} (agree : Agree r r') : Agree r' r := ⟨agree.2, agree.1⟩

theorem Tolerates.symm {r r' : Parsed Ctrl} (tolerates : Tolerates r r') (agree : Agree r r')
    (calculated : Calculated r.1.calced r.1.params)
    (calculated' : Calculated r'.1.calced r'.1.params) : Tolerates r' r := by
  have free : Free ({(r.own, r.2)} : Table Sym Ctrl) r'.1.calced :=
    (free_singleton _ _ _).mpr tolerates
  exact compat_symm r.2 (covers_own calculated) (covers_own calculated') tolerates
    (resolve_own calculated' free agree.1)

/-! ## Many routes -/

/-- What the parser makes of a route, with its controller. -/
def parsedOf (pcre : Pcre) (r : Str × Ctrl) : Parsed Ctrl :=
  match parsePathSegment pcre r.1 with
  | .ok p => (p, r.2)
  | .error _ => ({}, r.2)

theorem parsedOf_ok {pcre : Pcre} {r : Str × Ctrl} {p : PathParser}
    (parsed : parsePathSegment pcre r.1 = .ok p) : parsedOf pcre r = (p, r.2) := by
  rw [parsedOf, parsed]

theorem free_ownTable (routes : List (Parsed Ctrl)) (r : Parsed Ctrl) :
    Free (ownTable routes) r.1.calced ↔ ∀ d ∈ routes, Tolerates d r := by
  constructor
  · intro free d hd
    exact free (d.own, d.2) ⟨d, hd, rfl⟩
  · rintro all e ⟨d, hd, rfl⟩
    exact all d hd

theorem ownTable_append_singleton (routes : List (Parsed Ctrl)) (r : Parsed Ctrl) :
    ownTable (routes ++ [r]) = insert (r.own, r.2) (ownTable routes) := by
  apply Set.Subset.antisymm
  · rintro e ⟨d, hd, rfl⟩
    rcases List.mem_append.mp hd with old | new
    · exact Or.inr ⟨d, old, rfl⟩
    · rw [List.mem_singleton.mp new]
      exact Or.inl rfl
  · rintro e (rfl | ⟨d, hd, rfl⟩)
    · exact ⟨r, List.mem_append_right _ (List.mem_singleton_self r), rfl⟩
    · exact ⟨d, List.mem_append_left _ hd, rfl⟩

/-- Next to routes it agrees with a route is accepted when they tolerate it, and keeps its own
parameters. -/
theorem addRoute_own {pcre : Pcre} {tree : RawTree Ctrl} (wellFormed : tree.WellFormed)
    {done : List (Parsed Ctrl)} (table : tree.entries = ownTable done) {r : Str × Ctrl}
    {p : PathParser} (parsed : parsePathSegment pcre r.1 = .ok p)
    (agree : ∀ d ∈ done, Agree d (p, r.2)) :
    ((tree.addRoute pcre r.1 r.2).2 = .accepted ↔ ∀ d ∈ done, Tolerates d (p, r.2)) ∧
      ((∀ d ∈ done, Tolerates d (p, r.2)) →
        (tree.addRoute pcre r.1 r.2).1.entries = ownTable (done ++ [(p, r.2)])) := by
  have registered := (addRoute_spec wellFormed parsed r.2).2
  have calculated := parsePathSegment_calculated parsed
  have proper : Proper (ownTable done) := table ▸ wellFormed.proper
  rw [table] at registered
  have accepted : (∀ d ∈ done, Tolerates d (p, r.2)) →
      (tree.addRoute pcre r.1 r.2).2 = .accepted ∧
        (tree.addRoute pcre r.1 r.2).1.entries = ownTable (done ++ [(p, r.2)]) := by
    intro tolerated
    obtain ⟨accepted, grown⟩ := registered.of_free ((free_ownTable done (p, r.2)).mpr tolerated)
    have kept : resolve (ownTable done) p.calced p.params = Parsed.own (p, r.2) := by
      apply resolve_of_each proper
      · rintro e ⟨d, hd, rfl⟩
        have free : Free ({(d.own, d.2)} : Table Sym Ctrl) p.calced :=
          (free_singleton _ _ _).mpr (tolerated d hd)
        exact resolve_own (r := (p, r.2)) calculated free (agree d hd).1
      · intro _
        exact resolve_empty _ _
    refine ⟨accepted, ?_⟩
    rw [grown, kept, ownTable_append_singleton]
  refine ⟨⟨?_, fun tolerated => (accepted tolerated).1⟩, fun tolerated => (accepted tolerated).2⟩
  intro verdict
  apply (free_ownTable done (p, r.2)).mp
  by_contra conflict
  obtain ⟨⟨log, refused⟩, -⟩ := registered.of_not_free conflict
  rw [verdict] at refused
  exact absurd refused nofun

theorem accepts_own {pcre : Pcre} (routes : List (Str × Ctrl)) {tree : RawTree Ctrl}
    (wellFormed : tree.WellFormed) {done : List (Parsed Ctrl)} (table : tree.entries = ownTable done)
    (parses : ∀ r ∈ routes, ∃ p, parsePathSegment pcre r.1 = .ok p)
    (agree : (done ++ routes.map (parsedOf pcre)).Pairwise Agree) :
    (tree.Accepts pcre routes ↔
        (∀ d ∈ done, ∀ r ∈ routes.map (parsedOf pcre), Tolerates d r) ∧
          (routes.map (parsedOf pcre)).Pairwise Tolerates) ∧
      (tree.Accepts pcre routes →
        (tree.addRoutes pcre routes).entries = ownTable (done ++ routes.map (parsedOf pcre))) := by
  induction routes generalizing tree done with
  | nil =>
    refine ⟨by simp [RawTree.Accepts], fun _ => ?_⟩
    have same : tree.addRoutes pcre [] = tree := rfl
    rw [same, table, List.map_nil, List.append_nil]
  | cons r routes ih =>
    obtain ⟨p, parsed⟩ := parses r List.mem_cons_self
    rw [List.map_cons, parsedOf_ok parsed] at agree ⊢
    have agreeHere : ∀ d ∈ done, Agree d (p, r.2) := fun d hd =>
      (List.pairwise_append.mp agree).2.2 d hd _ List.mem_cons_self
    obtain ⟨verdict, grown⟩ := addRoute_own wellFormed table parsed agreeHere
    have split : done ++ (p, r.2) :: routes.map (parsedOf pcre) =
        done ++ [(p, r.2)] ++ routes.map (parsedOf pcre) := by
      rw [List.append_assoc, List.singleton_append]
    have below := fun tolerated => ih (wellFormed.addRoute r.1 r.2) (grown tolerated)
      (fun s hs => parses s (List.mem_cons_of_mem r hs)) (split ▸ agree)
    have step : tree.addRoutes pcre (r :: routes) =
        (tree.addRoute pcre r.1 r.2).1.addRoutes pcre routes := rfl
    rw [RawTree.Accepts, verdict, step, split]
    constructor
    · constructor
      · rintro ⟨tolerated, rest⟩
        obtain ⟨others, pairwise⟩ := (below tolerated).1.mp rest
        refine ⟨?_, List.pairwise_cons.mpr ⟨?_, pairwise⟩⟩
        · intro d hd r' hr'
          rcases List.mem_cons.mp hr' with rfl | hr'
          · exact tolerated d hd
          · exact others d (List.mem_append_left _ hd) r' hr'
        · exact others _ (List.mem_append_right _ (List.mem_singleton_self _))
      · rintro ⟨tolerated, pairwise⟩
        obtain ⟨first, pairwise⟩ := List.pairwise_cons.mp pairwise
        have here : ∀ d ∈ done, Tolerates d (p, r.2) := fun d hd =>
          tolerated d hd _ List.mem_cons_self
        refine ⟨here, (below here).1.mpr ⟨?_, pairwise⟩⟩
        intro d hd r' hr'
        rcases List.mem_append.mp hd with old | new
        · exact tolerated d old r' (List.mem_cons_of_mem _ hr')
        · rw [List.mem_singleton.mp new]
          exact first r' hr'
    · rintro ⟨tolerated, rest⟩
      exact (below tolerated).2 rest

/-! ## Built routers -/

theorem parses_of_accepts {pcre : Pcre} (routes : List (Str × Ctrl)) {tree : RawTree Ctrl}
    (accepts : tree.Accepts pcre routes) :
    ∀ r ∈ routes, ∃ p, parsePathSegment pcre r.1 = .ok p := by
  induction routes generalizing tree with
  | nil => simp
  | cons r routes ih =>
    intro s hs
    rcases List.mem_cons.mp hs with rfl | hs
    · cases parsed : parsePathSegment pcre s.1 with
      | ok p => exact ⟨p, rfl⟩
      | error log =>
        have verdict := accepts.1
        rw [addRoute_unparsed parsed] at verdict
        exact absurd verdict nofun
    · exact ih accepts.2 s hs

/-- Any two registrations of one method agree on the wildcards that their paths share. -/
def Agreeing (pcre : Pcre) (pre : Str) (routes : List (Route Ctrl)) : Prop :=
  routes.Pairwise fun r r' => r.1 = r'.1 →
    Agree (parsedOf pcre (pre ++ r.2.1, r.2.2)) (parsedOf pcre (pre ++ r'.2.1, r'.2.2))

theorem Agreeing.routesOf {pcre : Pcre} {pre : Str} {routes : List (Route Ctrl)}
    (agreeing : Agreeing pcre pre routes) (m : HttpMethod) :
    ((routesOf pre m routes).map (parsedOf pcre)).Pairwise Agree := by
  rw [Cppmhd.routesOf, List.map_map, List.pairwise_map, List.pairwise_filter]
  apply List.Pairwise.imp _ agreeing
  intro r r' agree hr hr'
  apply agree
  rw [of_decide_eq_true hr, of_decide_eq_true hr']

/-- One method: acceptance and the table carry over to another order. -/
theorem accepts_perm {pcre : Pcre} {routes routes' : List (Str × Ctrl)}
    (perm : routes.Perm routes') (agree : (routes.map (parsedOf pcre)).Pairwise Agree)
    (accepts : RawTree.Accepts pcre {} routes) :
    RawTree.Accepts pcre {} routes' ∧
      (RawTree.addRoutes pcre {} routes').entries = (RawTree.addRoutes pcre {} routes).entries := by
  have parses := parses_of_accepts routes accepts
  have parses' : ∀ r ∈ routes', ∃ p, parsePathSegment pcre r.1 = .ok p := fun r hr =>
    parses r (perm.mem_iff.mpr hr)
  have mapped := perm.map (parsedOf pcre)
  have agree' : (routes'.map (parsedOf pcre)).Pairwise Agree := mapped.pairwise agree Agree.symm
  have empty : RawTree.entries ({} : RawTree Ctrl) = ownTable [] := by
    rw [entries_empty]
    exact (Set.eq_empty_of_forall_notMem fun e h => by simp [ownTable] at h).symm
  have own := accepts_own routes (Or.inl rfl) empty parses (by simpa using agree)
  have own' := accepts_own routes' (Or.inl rfl) empty parses' (by simpa using agree')
  have calculated : ∀ r ∈ routes.map (parsedOf pcre), Calculated r.1.calced r.1.params := by
    intro r hr
    obtain ⟨s, hs, rfl⟩ := List.mem_map.mp hr
    obtain ⟨p, parsed⟩ := parses s hs
    rw [parsedOf_ok parsed]
    exact parsePathSegment_calculated parsed
  -- tolerance is symmetric between routes that agree, so it survives the permutation
  have tolerated : (routes.map (parsedOf pcre)).Pairwise fun r r' =>
      Tolerates r r' ∧ Tolerates r' r := by
    have both := agree.and (own.1.mp accepts).2
    apply both.imp_of_mem
    intro r r' hr hr' h
    exact ⟨h.2, h.2.symm h.1 (calculated r hr) (calculated r' hr')⟩
  have tolerated' := mapped.pairwise tolerated fun h => ⟨h.2, h.1⟩
  have accepts' : RawTree.Accepts pcre {} routes' :=
    own'.1.mpr ⟨by simp, tolerated'.imp And.left⟩
  refine ⟨accepts', ?_⟩
  rw [own.2 accepts, own'.2 accepts', List.nil_append, List.nil_append]
  apply Set.Subset.antisymm
  · rintro e ⟨r, hr, rfl⟩
    exact ⟨r, mapped.mem_iff.mpr hr, rfl⟩
  · rintro e ⟨r, hr, rfl⟩
    exact ⟨r, mapped.mem_iff.mp hr, rfl⟩

/-- A router whose registrations agree on shared wildcards is the same in every order. -/
theorem order_irrelevant (pcre : Pcre) (pre : Str) (builder : RouterBuilder Ctrl)
    (valid : (Router.buildTree pcre pre builder).1.valid = true)
    (agreeing : Agreeing pcre pre builder.routes) (routes' : List (Route Ctrl))
    (perm : builder.routes.Perm routes') :
    (Router.buildTree pcre pre ⟨routes'⟩).1.valid = true ∧ ∀ m path params,
      let r := (Router.buildTree pcre pre builder).1.forward pcre m path params
      let r' := (Router.buildTree pcre pre ⟨routes'⟩).1.forward pcre m path params
      r'.ctrl = r.ctrl ∧ r'.params = r.params := by
  rw [buildTree_valid] at valid
  have same := fun m => accepts_perm ((perm.filter _).map _) (agreeing.routesOf m) (valid m)
  constructor
  · rw [buildTree_valid]
    exact fun m => (same m).1
  · intro m path params r r'
    have lookup := forward_find pcre pre builder m path params
    have lookup' := forward_find pcre pre ⟨routes'⟩ m path params
    have tables : (Router.buildTree pcre pre ⟨routes'⟩).1.entries m =
        (Router.buildTree pcre pre builder).1.entries m := by
      rw [Router.entries, Router.entries, buildTree_tree, buildTree_tree]
      exact (same m).2
    rw [tables, ← lookup, Prod.mk.injEq] at lookup'
    exact lookup'

/-- The routes of `nestedRoutes` in the other order. -/
def nestedSwapped : List (Route ℕ) :=
  [(.GET, "/\x7b:name\x7d/x".toList, 2), (.GET, "/\x7b:name\x7d".toList, 1)]

theorem sharedWilds_empty (t : Str) : sharedWilds (∅ : Table Sym Ctrl) t = [] := by
  induction t with
  | nil => rfl
  | cons x t ih =>
    by_cases placeholder : x = PARAM_CHAR
    · simp only [sharedWilds, placeholder, if_true, wildOf_empty]
    · simp only [sharedWilds, placeholder, if_false, after_empty, ih]

theorem sharedWilds_behind (π : Pattern) (w : Wild) (b : Ctrl) (t : Str) :
    sharedWilds ({(.lit '/' :: .wild w :: π, b)} : Table Sym Ctrl) ('/' :: PARAM_CHAR :: t) =
      w :: sharedWilds {(π, b)} t := by
  simp only [sharedWilds, after_singleton_cons, wildOf_singleton_wild, if_true]
  rw [if_neg (by decide)]

/-- All wildcards of the route are shared and its own. -/
theorem keepsOwn_of_shared {E : Table Sym Ctrl} {p : PathParser}
    (all : sharedWilds E p.calced = p.params.map Param.wild) : KeepsOwn E p := by
  constructor
  · exact all ▸ List.prefix_refl _
  · rw [all, List.length_map, Nat.sub_self, List.take_zero]
    exact List.nil_prefix

theorem order_irrelevant_nested :
    (Router.buildTree anyPcre [] ⟨nestedSwapped⟩).1.valid = true := by
  have first : parsedOf anyPcre ("/\x7b:name\x7d".toList, 1) = (plainRoute "name".toList, 1) :=
    parsedOf_ok (by decide +kernel)
  have second : parsedOf anyPcre ("/\x7b:name\x7d/x".toList, 2) =
      (⟨[plainParam "name".toList], ['/', PARAM_CHAR, '/', 'x'],
        '/' :: (plainParam "name".toList).format ++ ['/', 'x']⟩, 2) :=
    parsedOf_ok (by decide +kernel)
  have ended : sharedWilds ({([], 1)} : Table Sym ℕ) ['/', 'x'] = [] := by
    rw [sharedWilds, if_neg (by decide), after_singleton_of_ne (fun ρ => (List.cons_ne_nil _ _).symm),
      sharedWilds_empty]
  have agreeing : Agreeing anyPcre [] nestedRoutes.routes := by
    apply List.pairwise_pair.mpr
    intro _
    show Agree (parsedOf anyPcre ("/\x7b:name\x7d".toList, 1))
      (parsedOf anyPcre ("/\x7b:name\x7d/x".toList, 2))
    rw [first, second]
    constructor
    · apply keepsOwn_of_shared
      have own : Parsed.own (plainRoute "name".toList, 1) =
          [.lit '/', .wild (plainParam "name".toList).wild] := by decide +kernel
      rw [own, sharedWilds_behind, ended]
      rfl
    · apply keepsOwn_of_shared
      have own : Parsed.own ((⟨[plainParam "name".toList], ['/', PARAM_CHAR, '/', 'x'],
          '/' :: (plainParam "name".toList).format ++ ['/', 'x']⟩, 2) : Parsed ℕ) =
          .lit '/' :: .wild (plainParam "name".toList).wild :: [.lit '/', .lit 'x'] := by
        decide +kernel
      have calced : (plainRoute "name".toList).calced = ['/', PARAM_CHAR] := by decide +kernel
      rw [own, calced, sharedWilds_behind]
      rfl
  exact (order_irrelevant anyPcre [] nestedRoutes (by decide +kernel) agreeing nestedSwapped
    (List.Perm.swap _ _ _)).1

/-- Both orders are accepted in full, but they bind the segment under different names. -/
theorem order_matters :
    let routes : List (Route ℕ) :=
      [(.GET, "/\x7b:a\x7d/x".toList, 1), (.GET, "/\x7b:b\x7d/y".toList, 2)]
    (Router.buildTree anyPcre [] ⟨routes⟩).1.valid = true ∧ routes.Perm routes.reverse ∧
      ((Router.buildTree anyPcre [] ⟨routes⟩).1.forward anyPcre .GET "/v/y".toList []).params =
        [("a".toList, "v".toList)] ∧
      ((Router.buildTree anyPcre [] ⟨routes.reverse⟩).1.forward anyPcre .GET "/v/y".toList
        []).params = [("b".toList, "v".toList)] :=
  ⟨by decide +kernel, (List.reverse_perm _).symm, by decide +kernel, by decide +kernel⟩

end Cppmhd
