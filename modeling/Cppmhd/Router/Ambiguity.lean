import Cppmhd.Router.Order

/-!
# Requests that two routes could answer

A request path is an instance of a route when its wildcards can be replaced so as to give the path.
Between accepted routes of one method insertion leaves no request that is an instance of two of them,
except where a last wildcard is empty or where a catch-all of one route stands at a placeholder that
the other route shares (`separate_of_tolerant`).  `conflict_detection` says exactly when none is
left.
-/

open Words Table

namespace Cppmhd

variable {Ctrl : Type} {pcre : Pcre}

/-! ## Instances -/

/-- The route with all its wildcards, also those behind a catch-all. -/
def fullPattern : Str → List Param → Pattern
  | [], _ => []
  | x :: t, params =>
    if x = PARAM_CHAR then
      match params with
      | [] => []
      | p :: params => .wild p.wild :: fullPattern t params
    else .lit x :: fullPattern t params

theorem fullPattern_lit {x : Char} (literal : x ≠ PARAM_CHAR) (t : Str) (params : List Param) :
    fullPattern (x :: t) params = .lit x :: fullPattern t params := by
  simp only [fullPattern, literal, if_false]

theorem fullPattern_wild (t : Str) (p : Param) (params : List Param) :
    fullPattern (PARAM_CHAR :: t) (p :: params) = .wild p.wild :: fullPattern t params := by
  simp only [fullPattern, if_true]

/-- The path is the route with these values for its wildcards: slash-free ones that their regex
accepts for parameters, any for catch-alls. -/
inductive Instance (pcre : Pcre) : Pattern → Str → List Str → Prop
  | done : Instance pcre [] [] []
  | lit {c : Char} {π : Pattern} {p : Str} {values : List Str} (rest : Instance pcre π p values) :
      Instance pcre (.lit c :: π) (c :: p) values
  | param {w : Wild} {π : Pattern} {seg p : Str} {values : List Str} (isParam : w.type = .PARAM)
      (free : '/' ∉ seg) (accepts : w.re.matches pcre seg = true)
      (rest : Instance pcre π p values) : Instance pcre (.wild w :: π) (seg ++ p) (seg :: values)
  | catchAll {w : Wild} {π : Pattern} {seg p : Str} {values : List Str}
      (isCatchAll : w.type = .CATCH_ALL) (rest : Instance pcre π p values) :
      Instance pcre (.wild w :: π) (seg ++ p) (seg :: values)

/-- No request is an instance of both routes, unless the last wildcard of one is bound to the empty
string. -/
def Separate (pcre : Pcre) (r r' : PathParser) : Prop :=
  ∀ p values values', Instance pcre (fullPattern r.calced r.params) p values →
    Instance pcre (fullPattern r'.calced r'.params) p values' →
    values.getLast? = some [] ∨ values'.getLast? = some []

/-- The calculated paths agree up to a placeholder where one of the routes has a catch-all. -/
def MeetsCatchAll : Str → List Param → Str → List Param → Prop
  | x :: t, params, y :: t', params' =>
    x = y ∧
      if x = PARAM_CHAR then
        match params, params' with
        | p :: params, p' :: params' =>
          p.type = .CATCH_ALL ∨ p'.type = .CATCH_ALL ∨ MeetsCatchAll t params t' params'
        | _, _ => False
      else MeetsCatchAll t params t' params'
  | _, _, _, _ => False

instance MeetsCatchAll.decidable : ∀ (t : Str) (params : List Param) (t' : Str)
    (params' : List Param), Decidable (MeetsCatchAll t params t' params')
  | x :: t, [], y :: t', params' =>
    haveI := MeetsCatchAll.decidable t [] t' params'
    decidable_of_iff (x = y ∧ x ≠ PARAM_CHAR ∧ MeetsCatchAll t [] t' params') (by
      by_cases placeholder : x = PARAM_CHAR <;> simp [MeetsCatchAll, placeholder])
  | x :: t, p :: params, y :: t', [] =>
    haveI := MeetsCatchAll.decidable t (p :: params) t' []
    decidable_of_iff (x = y ∧ x ≠ PARAM_CHAR ∧ MeetsCatchAll t (p :: params) t' []) (by
      by_cases placeholder : x = PARAM_CHAR <;> simp [MeetsCatchAll, placeholder])
  | x :: t, p :: params, y :: t', p' :: params' =>
    haveI := MeetsCatchAll.decidable t params t' params'
    haveI := MeetsCatchAll.decidable t (p :: params) t' (p' :: params')
    decidable_of_iff (x = y ∧ if x = PARAM_CHAR then
      p.type = .CATCH_ALL ∨ p'.type = .CATCH_ALL ∨ MeetsCatchAll t params t' params'
      else MeetsCatchAll t (p :: params) t' (p' :: params')) Iff.rfl
  | [], _, _, _ => inferInstanceAs (Decidable False)
  | _ :: _, _, [], _ => inferInstanceAs (Decidable False)

theorem meetsCatchAll_lit {x : Char} (literal : x ≠ PARAM_CHAR) (t t' : Str)
    (params params' : List Param) :
    MeetsCatchAll (x :: t) params (x :: t') params' ↔ MeetsCatchAll t params t' params' := by
  simp only [MeetsCatchAll, literal, if_false, true_and]

/-! ## Tolerant paths -/

/-- Neither path ends where the other does, and where they part neither has a placeholder. -/
def Tolerant : Str → Str → Prop
  | [], t' => t' ≠ []
  | _ :: _, [] => True
  | x :: t, y :: t' => if x = y then Tolerant t t' else x ≠ PARAM_CHAR ∧ y ≠ PARAM_CHAR

/-- What a stored route tolerates, its own calculated path does. -/
theorem tolerant_of_compat {π : Pattern} {t t' : Str} (covers : Covers π t) (compat : Compat π t') :
    Tolerant t t' := by
  induction π generalizing t t' with
  | nil =>
    obtain rfl : t = [] := covers
    exact compat
  | cons s π ih =>
    cases t with
    | nil => cases s <;> exact covers.elim
    | cons x t =>
      cases t' with
      | nil => trivial
      | cons y t' =>
        cases s with
        | lit a =>
          obtain ⟨literal, rfl, below⟩ := covers
          rw [Tolerant]
          split
          · next same => exact ih below (compat.2 same)
          · exact ⟨literal, compat.1⟩
        | wild w =>
          obtain ⟨rfl, isParam, compat⟩ := compat
          obtain ⟨rfl, below⟩ := covers
          rw [if_neg (by rw [isParam]; decide)] at below
          rw [Tolerant, if_pos rfl]
          exact ih below compat

/-! ## Separation -/

/-- Of the empty route only the empty path is an instance. -/
theorem Instance.of_nil {p : Str} {values : List Str} (spelled : Instance pcre [] p values) :
    p = [] ∧ values = [] := by
  cases spelled
  exact ⟨rfl, rfl⟩

/-- The empty path is an instance of the rest of a route only by an empty last wildcard. -/
theorem instance_empty {x : Char} {t : Str} {params : List Param} {values : List Str}
    (ok : Insertable (x :: t) params) (spelled : Instance pcre (fullPattern (x :: t) params) [] values) :
    values.getLast? = some [] := by
  by_cases placeholder : x = PARAM_CHAR
  · subst placeholder
    cases params with
    | nil =>
      have enough := ok.enough
      rw [List.count_cons_self, List.length_nil] at enough
      omega
    | cons p params =>
      have last : ∀ {values : List Str}, Instance pcre (fullPattern t params) [] values →
          values = [] := by
        intro values rest
        cases t with
        | nil => exact rest.of_nil.2
        | cons y t =>
          obtain rfl := ok.slash_of_placeholder
          rw [fullPattern_lit (by decide)] at rest
          cases rest
      rw [fullPattern_wild] at spelled
      generalize whole : ([] : Str) = path at spelled
      cases spelled with
      | param isParam free accepts rest | catchAll isCatchAll rest =>
        obtain ⟨rfl, rfl⟩ := List.append_eq_nil_iff.mp whole.symm
        rw [last rest]
        rfl
  · rw [fullPattern_lit placeholder] at spelled
    cases spelled

/-- Behind a wildcard a request goes on with a slash. -/
theorem instance_slash {t : Str} {p : Param} {params : List Param} {path : Str} {values : List Str}
    (ok : Insertable (PARAM_CHAR :: t) (p :: params))
    (spelled : Instance pcre (fullPattern t params) path values) :
    path = [] ∨ ∃ rest, path = '/' :: rest := by
  cases t with
  | nil => exact Or.inl spelled.of_nil.1
  | cons y t =>
    obtain rfl := ok.slash_of_placeholder
    rw [fullPattern_lit (by decide)] at spelled
    cases spelled with
    | lit rest => exact Or.inr ⟨_, rfl⟩

/-- The segment in front of a slash is determined. -/
theorem segment_unique {seg seg' rest rest' : Str} (free : '/' ∉ seg) (free' : '/' ∉ seg')
    (ends : rest = [] ∨ ∃ r, rest = '/' :: r) (ends' : rest' = [] ∨ ∃ r, rest' = '/' :: r)
    (same : seg ++ rest = seg' ++ rest') : seg = seg' ∧ rest = rest' := by
  apply List.append_inj same
  rw [← findUntilSlash_append free ends, same, findUntilSlash_append free' ends']

theorem getLast?_cons_of_empty {seg : Str} {values : List Str} (last : values.getLast? = some []) :
    (seg :: values).getLast? = some [] := by
  cases values with
  | nil => exact absurd last nofun
  | cons v values => rwa [List.getLast?_cons_cons]

/-- Tolerant paths without a catch-all at a shared placeholder, by induction on the common part. -/
theorem separate_of_tolerant {t t' : Str} {params params' : List Param} (ok : Insertable t params)
    (ok' : Insertable t' params') (tolerant : Tolerant t t')
    (apart : ¬ MeetsCatchAll t params t' params') {path : Str} {values values' : List Str}
    (spelled : Instance pcre (fullPattern t params) path values)
    (spelled' : Instance pcre (fullPattern t' params') path values') :
    values.getLast? = some [] ∨ values'.getLast? = some [] := by
  induction t generalizing t' params params' path values values' with
  | nil =>
    obtain ⟨rfl, -⟩ := spelled.of_nil
    obtain ⟨y, t', rfl⟩ := List.exists_cons_of_ne_nil (show t' ≠ [] from tolerant)
    exact Or.inr (instance_empty ok' spelled')
  | cons x t ih =>
    cases t' with
    | nil =>
      obtain ⟨rfl, -⟩ := spelled'.of_nil
      exact Or.inl (instance_empty ok spelled)
    | cons y t' =>
      rw [Tolerant] at tolerant
      split at tolerant
      · next same =>
        subst same
        by_cases placeholder : x = PARAM_CHAR
        · subst placeholder
          cases params with
          | nil => exact absurd ok.enough (by simp)
          | cons q params =>
            cases params' with
            | nil => exact absurd ok'.enough (by simp)
            | cons q' params' =>
              simp only [MeetsCatchAll, if_true, true_and, not_or] at apart
              obtain ⟨param, param', apart⟩ := apart
              rw [fullPattern_wild] at spelled spelled'
              generalize whole : path = path' at spelled'
              cases spelled with
              | catchAll isCatchAll => exact absurd isCatchAll param
              | @param _ _ seg rest values _ free _ spelled =>
                cases spelled' with
                | catchAll isCatchAll => exact absurd isCatchAll param'
                | @param _ _ seg' rest' values' _ free' _ spelled' =>
                  obtain ⟨rfl, rfl⟩ := segment_unique free free' (instance_slash ok spelled)
                    (instance_slash ok' spelled') whole
                  rcases ih ok.pop ok'.pop tolerant apart spelled spelled' with last | last
                  · exact Or.inl (getLast?_cons_of_empty last)
                  · exact Or.inr (getLast?_cons_of_empty last)
        · rw [fullPattern_lit placeholder] at spelled spelled'
          rw [meetsCatchAll_lit placeholder] at apart
          cases spelled with
          | lit rest =>
            cases spelled' with
            | lit rest' =>
              exact ih (ok.of_append (s := [x])) (ok'.of_append (s := [x])) tolerant apart rest rest'
      · next differs =>
        rw [fullPattern_lit tolerant.1] at spelled
        rw [fullPattern_lit tolerant.2] at spelled'
        cases spelled with
        | lit rest =>
          cases spelled' with
          | lit rest' => exact absurd rfl differs

/-! ## Accepted routes -/

/-- An accepted route has a place in the tree, and was free to take it. -/
theorem accepted_covers {tree : RawTree Ctrl} (wellFormed : tree.WellFormed) {r : Str × Ctrl}
    {p : PathParser} (parsed : parsePathSegment pcre r.1 = .ok p)
    (accepted : (tree.addRoute pcre r.1 r.2).2 = .accepted) :
    Free tree.entries p.calced ∧
      ∃ π, (π, r.2) ∈ (tree.addRoute pcre r.1 r.2).1.entries ∧ Covers π p.calced := by
  obtain ⟨free, table⟩ := addRoute_accepted wellFormed parsed accepted
  refine ⟨free, _, ?_, covers_resolve free (parsePathSegment_calculated parsed).counted.le⟩
  rw [table]
  exact Set.mem_insert _ _

theorem RawTree.WellFormed.addRoutes {tree : RawTree Ctrl} (wellFormed : tree.WellFormed)
    (routes : List (Str × Ctrl)) : (tree.addRoutes pcre routes).WellFormed := by
  induction routes generalizing tree with
  | nil => exact wellFormed
  | cons r routes ih => exact ih (wellFormed.addRoute r.1 r.2)

/-- Of two accepted routes the first tolerates the second. -/
theorem tolerant_of_accepted {tree : RawTree Ctrl} (wellFormed : tree.WellFormed)
    {r r' : Str × Ctrl} {p p' : PathParser} (parsed : parsePathSegment pcre r.1 = .ok p)
    (parsed' : parsePathSegment pcre r'.1 = .ok p')
    (accepted : (tree.addRoute pcre r.1 r.2).2 = .accepted) (between : List (Str × Ctrl))
    (accepted' : (((tree.addRoute pcre r.1 r.2).1.addRoutes pcre between).addRoute pcre r'.1 r'.2).2 =
      .accepted) : Tolerant p.calced p'.calced := by
  obtain ⟨-, π, stored, covers⟩ := accepted_covers wellFormed parsed accepted
  have later : RawTree.WellFormed (tree.addRoute pcre r.1 r.2).1 := wellFormed.addRoute r.1 r.2
  have free := (accepted_covers (later.addRoutes between) parsed' accepted').1
  exact tolerant_of_compat covers (free _ (entries_subset_addRoutes later between stored))

theorem accepts_split {tree : RawTree Ctrl} (before : List (Str × Ctrl)) {r : Str × Ctrl}
    {later : List (Str × Ctrl)} (accepts : tree.Accepts pcre (before ++ r :: later)) :
    ((tree.addRoutes pcre before).addRoute pcre r.1 r.2).2 = .accepted := by
  induction before generalizing tree with
  | nil => exact accepts.1
  | cons s before ih => exact ih accepts.2

theorem accepts_tolerant (routes : List (Str × Ctrl)) {tree : RawTree Ctrl}
    (wellFormed : tree.WellFormed) (accepts : tree.Accepts pcre routes) :
    (routes.map fun r => (parsedOf pcre r).1).Pairwise fun r r' => Tolerant r.calced r'.calced := by
  have parses := parses_of_accepts routes accepts
  induction routes generalizing tree with
  | nil => exact List.Pairwise.nil
  | cons r routes ih =>
    rw [List.map_cons, List.pairwise_cons]
    refine ⟨?_, ih (wellFormed.addRoute r.1 r.2) accepts.2
      fun s hs => parses s (List.mem_cons_of_mem r hs)⟩
    intro d hd
    obtain ⟨r', hr', rfl⟩ := List.mem_map.mp hd
    obtain ⟨p, parsed⟩ := parses r List.mem_cons_self
    obtain ⟨p', parsed'⟩ := parses r' (List.mem_cons_of_mem r hr')
    obtain ⟨between, later, rfl⟩ := List.append_of_mem hr'
    rw [parsedOf_ok parsed, parsedOf_ok parsed']
    exact tolerant_of_accepted wellFormed parsed parsed' accepts.1 between
      (accepts_split between accepts.2)

/-! ## The errors of refused routes -/

/-- A conflict or duplicate error for the route. -/
def RouteError.IsConflict (fullPath : Str) : RouteError → Prop
  | .wildcardConflict path | .handleExists path | .segmentConflict _ path => path = fullPath
  | _ => False

/-- Refusals are conflicts of the inserted route. -/
def Verdict.Conflicts (fullPath : Str) (verdict : Verdict) : Prop :=
  ∀ log, verdict = .refused log → ∃ e : RouteError, log = [e] ∧ e.IsConflict fullPath

theorem Verdict.Conflicts.accepted (fullPath : Str) : Verdict.Conflicts fullPath .accepted := nofun

theorem Verdict.Conflicts.undefined (fullPath : Str) : Verdict.Conflicts fullPath .undefined := nofun

theorem Verdict.Conflicts.refused {fullPath : Str} {e : RouteError} (conflict : e.IsConflict fullPath) :
    Verdict.Conflicts fullPath (.refused [e]) := by
  rintro log ⟨⟩
  exact ⟨e, rfl, conflict⟩

theorem insertChild_conflicts (node : RawNode Ctrl) (path fullPath : Str) (ctrl : Ctrl)
    (params : List Param) :
    (insertChild node path fullPath ctrl params).verdict.Conflicts fullPath := by
  induction params generalizing node path with
  | nil =>
    rw [insertChild]
    split
    · exact .accepted _
    · exact .undefined _
  | cons wild params ih =>
    rw [insertChild]
    split
    · exact .accepted _
    · split
      · exact .refused rfl
      · split
        · dsimp only
          split
          · exact ih _ _
          · exact .accepted _
        · exact .accepted _
        · exact .undefined _

theorem attach_conflicts (node : RawNode Ctrl) (path : Str) (parser : PathParser) (ctrl : Ctrl) :
    (node.attach path parser ctrl).verdict.Conflicts parser.actualFullPath := by
  unfold RawNode.attach
  split
  · exact insertChild_conflicts _ _ _ _ _
  · exact insertChild_conflicts _ _ _ _ _

theorem setHandle_conflicts (node : RawNode Ctrl) (parser : PathParser) (ctrl : Ctrl) :
    (node.setHandle parser ctrl).verdict.Conflicts parser.actualFullPath := by
  unfold RawNode.setHandle
  split
  · exact .refused rfl
  · exact .accepted _

mutual

theorem insertLoop_conflicts : ∀ (node : RawNode Ctrl) (path : Str) (parser : PathParser)
    (ctrl : Ctrl), (insertLoop node path parser ctrl).verdict.Conflicts parser.actualFullPath
  | ⟨p, indices, children, handle, type, re, name, wildchild⟩, path, parser, ctrl => by
    rw [insertLoop]
    dsimp only
    split
    · split
      · exact attach_conflicts _ _ _ _
      · exact setHandle_conflicts _ _ _
    · split
      · split
        · cases children with
          | nil => exact .undefined _
          | cons child rest =>
            dsimp only
            split
            · exact insertLoop_conflicts child _ parser ctrl
            · exact .refused rfl
        · split
          · cases children with
            | nil => exact .undefined _
            | cons child rest => exact insertLoop_conflicts child _ parser ctrl
          · split
            · next found => exact insertIndice_conflicts children indices _ parser ctrl found
            · exact attach_conflicts _ _ _ _
      · exact setHandle_conflicts _ _ _

theorem insertIndice_conflicts : ∀ (children : List (RawNode Ctrl)) (indices path : Str)
    (parser : PathParser) (ctrl : Ctrl) {r : List (RawNode Ctrl) × List Param × Verdict},
    insertIndice children indices path parser ctrl = some r →
      r.2.2.Conflicts parser.actualFullPath
  | child :: children, i :: indices, path, parser, ctrl, r, found => by
    rw [insertIndice] at found
    split at found
    · obtain rfl := Option.some.inj found
      exact insertLoop_conflicts child path parser ctrl
    · obtain ⟨r', found', rfl⟩ := Option.map_eq_some_iff.mp found
      have below := insertIndice_conflicts children indices path parser ctrl found'
      exact below
  | [], _, _, _, _, _, found => absurd found (by simp [insertIndice])
  | _ :: _, [], _, _, _, _, found => absurd found (by simp [insertIndice])

end

/-- A route that the parser accepts is refused with a conflict or duplicate error of its own. -/
theorem addRoute_conflicts {path : Str} {p : PathParser} (parsed : parsePathSegment pcre path = .ok p)
    (tree : RawTree Ctrl) (ctrl : Ctrl) :
    (tree.addRoute pcre path ctrl).2.Conflicts p.actualFullPath := by
  simp only [RawTree.addRoute, parsed, RawTree.insert]
  split
  · exact .accepted _
  · exact insertLoop_conflicts _ _ _ _

/-- A parsed route is accepted, or refused with such an error. -/
theorem verdict_cases {tree : RawTree Ctrl} (reachable : tree.Reachable pcre) {r : Str × Ctrl}
    {p : PathParser} (parsed : parsePathSegment pcre r.1 = .ok p) :
    (tree.addRoute pcre r.1 r.2).2 = .accepted ∨
      ∃ e, (tree.addRoute pcre r.1 r.2).2 = .refused [e] ∧ e.IsConflict p.actualFullPath := by
  cases verdict : (tree.addRoute pcre r.1 r.2).2 with
  | accepted => exact Or.inl rfl
  | undefined => exact absurd verdict (addRoute_defined reachable r.1 r.2)
  | refused log =>
    obtain ⟨e, rfl, conflict⟩ := addRoute_conflicts parsed tree r.2 log verdict
    exact Or.inr ⟨e, rfl, conflict⟩

/-! ## Built routers -/

/-- No request is an instance of two of the routes, apart from empty last wildcards. -/
def Unambiguous (pcre : Pcre) (routes : List (Str × Ctrl)) : Prop :=
  (routes.map fun r => (parsedOf pcre r).1).Pairwise (Separate pcre)

/-- Two of the routes that share a placeholder with a catch-all have no request in common either. -/
def CatchAllsApart (pcre : Pcre) (routes : List (Str × Ctrl)) : Prop :=
  (routes.map fun r => (parsedOf pcre r).1).Pairwise fun r r' =>
    MeetsCatchAll r.calced r.params r'.calced r'.params → Separate pcre r r'

theorem unambiguous_iff {routes : List (Str × Ctrl)} (accepts : RawTree.Accepts pcre {} routes) :
    Unambiguous pcre routes ↔ CatchAllsApart pcre routes := by
  have tolerant := accepts_tolerant routes (Or.inl rfl) accepts
  have insertable : ∀ r ∈ routes.map fun r => (parsedOf pcre r).1, Insertable r.calced r.params := by
    intro r hr
    obtain ⟨s, hs, rfl⟩ := List.mem_map.mp hr
    obtain ⟨p, parsed⟩ := parses_of_accepts routes accepts s hs
    rw [parsedOf_ok parsed]
    exact (parsePathSegment_calculated parsed).insertable
  constructor
  · intro separate
    refine List.Pairwise.imp ?_ separate
    intro r r' here _
    exact here
  · intro apart
    apply (tolerant.and apart).imp_of_mem
    rintro r r' hr hr' ⟨tolerant, apart⟩
    by_cases meets : MeetsCatchAll r.calced r.params r'.calced r'.params
    · exact apart meets
    · intro path values values' spelled spelled'
      exact separate_of_tolerant (insertable r hr) (insertable r' hr') tolerant meets spelled spelled'

/-- One of two routes that could both answer a request is refused as a conflict or duplicate, unless
they meet at a catch-all. -/
theorem ambiguous_refused {before between : List (Str × Ctrl)} {r r' : Str × Ctrl}
    {p p' : PathParser} (parsed : parsePathSegment pcre r.1 = .ok p)
    (parsed' : parsePathSegment pcre r'.1 = .ok p') (ambiguous : ¬ Separate pcre p p')
    (apart : ¬ MeetsCatchAll p.calced p.params p'.calced p'.params) :
    let tree := RawTree.addRoutes pcre {} before
    let tree' := (tree.addRoute pcre r.1 r.2).1.addRoutes pcre between
    (∃ e, (tree.addRoute pcre r.1 r.2).2 = .refused [e] ∧ e.IsConflict p.actualFullPath) ∨
      ∃ e, (tree'.addRoute pcre r'.1 r'.2).2 = .refused [e] ∧ e.IsConflict p'.actualFullPath := by
  intro tree tree'
  have reachable : tree.Reachable pcre := RawTree.Reachable.empty.addRoutes before
  have reachable' : tree'.Reachable pcre := (reachable.addRoute r.1 r.2).addRoutes between
  rcases verdict_cases reachable parsed with accepted | refused
  · rcases verdict_cases reachable' parsed' with accepted' | refused'
    · exfalso
      apply ambiguous
      intro path values values' spelled spelled'
      exact separate_of_tolerant (parsePathSegment_calculated parsed).insertable
        (parsePathSegment_calculated parsed').insertable
        (tolerant_of_accepted reachable.wellFormed parsed parsed' accepted between accepted') apart
        spelled spelled'
    · exact Or.inr refused'
  · exact Or.inl refused

/-- The routes of one method that `buildTree` accepts are unambiguous exactly when those that meet at
a catch-all are; of two ambiguous routes that do not meet at a catch-all one is refused with a
conflict or duplicate error of its own. -/
theorem conflict_detection (pcre : Pcre) (pre : Str) (builder : RouterBuilder Ctrl)
    (m : HttpMethod) :
    ((Router.buildTree pcre pre builder).1.valid = true →
      (Unambiguous pcre (routesOf pre m builder.routes) ↔
        CatchAllsApart pcre (routesOf pre m builder.routes))) ∧
    ∀ before r between r' later p p',
      routesOf pre m builder.routes = before ++ r :: between ++ r' :: later →
      parsePathSegment pcre r.1 = .ok p → parsePathSegment pcre r'.1 = .ok p' →
      ¬ Separate pcre p p' → ¬ MeetsCatchAll p.calced p.params p'.calced p'.params →
      let tree := RawTree.addRoutes pcre {} before
      let tree' := (tree.addRoute pcre r.1 r.2).1.addRoutes pcre between
      (∃ e, (tree.addRoute pcre r.1 r.2).2 = .refused [e] ∧ e.IsConflict p.actualFullPath) ∨
        ∃ e, (tree'.addRoute pcre r'.1 r'.2).2 = .refused [e] ∧ e.IsConflict p'.actualFullPath := by
  constructor
  · intro valid
    exact unambiguous_iff ((buildTree_valid pcre pre builder).mp valid m)
  · intro before r between r' later p p' _ parsed parsed' ambiguous apart
    exact ambiguous_refused parsed parsed' ambiguous apart

/-- A parameter next to a static segment. -/
def idRoute : PathParser :=
  ⟨[plainParam "id".toList], "/foo/:".toList, "/foo/".toList ++ (plainParam "id".toList).format⟩

def fooRoute : PathParser := ⟨[], "/foo/123".toList, "/foo/123".toList⟩

theorem conflict_detection_foo :
    Unambiguous anyPcre (routesOf [] .GET nestedRoutes.routes) ∧
    ((∃ e, (RawTree.addRoute anyPcre ({} : RawTree ℕ) "/foo/\x7b:id\x7d".toList 1).2 = .refused [e] ∧
        e.IsConflict idRoute.actualFullPath) ∨
      ∃ e, ((RawTree.addRoute anyPcre ({} : RawTree ℕ) "/foo/\x7b:id\x7d".toList 1).1.addRoute anyPcre
        "/foo/123".toList 2).2 = .refused [e] ∧ e.IsConflict fooRoute.actualFullPath) := by
  have parsed : parsePathSegment anyPcre "/foo/\x7b:id\x7d".toList = .ok idRoute := by decide +kernel
  have parsed' : parsePathSegment anyPcre "/foo/123".toList = .ok fooRoute := by decide +kernel
  have ambiguous : ¬ Separate anyPcre idRoute fooRoute := by
    intro separate
    have spelled : Instance anyPcre (fullPattern fooRoute.calced fooRoute.params) "/foo/123".toList [] :=
      .lit (.lit (.lit (.lit (.lit (.lit (.lit (.lit .done)))))))
    have value : Instance anyPcre [.wild (plainParam "id".toList).wild] ("123".toList ++ [])
        ["123".toList] := .param rfl (by decide) rfl .done
    have spelled' : Instance anyPcre (fullPattern idRoute.calced idRoute.params) "/foo/123".toList
        ["123".toList] := .lit (.lit (.lit (.lit (.lit value))))
    exact absurd (separate _ _ _ spelled' spelled) (by decide)
  constructor
  · refine ((conflict_detection anyPcre [] nestedRoutes .GET).1 (by decide +kernel)).mpr ?_
    apply List.pairwise_pair.mpr
    intro meets
    exact absurd meets (by decide +kernel)
  · exact (conflict_detection anyPcre [] ⟨[(.GET, "/foo/\x7b:id\x7d".toList, 1),
      (.GET, "/foo/123".toList, 2)]⟩ .GET).2 [] _ [] _ [] idRoute fooRoute rfl parsed parsed' ambiguous
        (by decide +kernel)

/-- The route of a catch-all behind `/a/`. -/
def swallowRoute : PathParser :=
  ⟨[{ type := .CATCH_ALL, pfx := [], name := "y".toList }], "/a/:".toList, "/a/\x7b**:y\x7d".toList⟩

/-- The route of a parameter in the same place. -/
def innerRoute : PathParser :=
  ⟨[plainParam "x".toList], "/a/:/b".toList,
    "/a/".toList ++ (plainParam "x".toList).format ++ "/b".toList⟩

/-- The catch-all takes the place of the parameter, and both routes could answer. -/
theorem catchAll_over_param :
    let routes : List (Route ℕ) :=
      [(.GET, "/a/\x7b:x\x7d/b".toList, 1), (.GET, "/a/\x7b**:y\x7d".toList, 2)]
    (Router.buildTree anyPcre [] ⟨routes⟩).1.valid = true ∧
      ¬ Unambiguous anyPcre (routesOf [] .GET routes) := by
  intro routes
  refine ⟨by decide +kernel, ?_⟩
  intro unambiguous
  have separate : Separate anyPcre (parsedOf anyPcre ("/a/\x7b:x\x7d/b".toList, 1)).1
      (parsedOf anyPcre ("/a/\x7b**:y\x7d".toList, 2)).1 := List.pairwise_pair.mp unambiguous
  have first : (parsedOf anyPcre ("/a/\x7b:x\x7d/b".toList, 1)).1 = innerRoute := by decide +kernel
  have second : (parsedOf anyPcre ("/a/\x7b**:y\x7d".toList, 2)).1 = swallowRoute := by
    decide +kernel
  rw [first, second] at separate
  have value : Instance anyPcre (.wild (plainParam "x".toList).wild :: fullPattern "/b".toList [])
      ("v".toList ++ "/b".toList) ["v".toList] := .param rfl (by decide) rfl (.lit (.lit .done))
  have swallowed : Instance anyPcre [.wild (swallowRoute.params.head (by decide)).wild]
      ("v/b".toList ++ []) ["v/b".toList] := .catchAll rfl .done
  have spelled : Instance anyPcre (fullPattern innerRoute.calced innerRoute.params) "/a/v/b".toList
      ["v".toList] := .lit (.lit (.lit value))
  have spelled' : Instance anyPcre (fullPattern swallowRoute.calced swallowRoute.params)
      "/a/v/b".toList ["v/b".toList] := .lit (.lit (.lit swallowed))
  exact absurd (separate _ _ _ spelled spelled') (by decide)

end Cppmhd
