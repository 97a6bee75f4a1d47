import Cppmhd.Router.Proper

/-!
# Wildcard metadata of a stored route

The node of an accepted route lies on the tree path that its calculated path spells (`Covers`).
Where wildcard nodes of earlier routes lie on that path, the insertion keeps their metadata and takes
no parameter from the queue, so the nodes it creates behind them get the parameters of earlier
segments.  `carries_own_iff` says exactly when every wildcard node of the route nevertheless carries
the route's own parameter.
-/

open Words Table

namespace Cppmhd

variable {Ctrl : Type}

/-! ## The wildcards of a route -/

/-- The metadata of the wildcard nodes of a route, in path order. -/
def wilds (π : Pattern) : List Wild :=
  π.filterMap fun
    | .wild w => some w
    | .lit _ => none

@[simp] theorem wilds_lit (c : Char) (π : Pattern) : wilds (.lit c :: π) = wilds π := rfl

@[simp] theorem wilds_wild (w : Wild) (π : Pattern) : wilds (.wild w :: π) = w :: wilds π := rfl

/-- The calculated path spells this tree path; behind a catch-all nothing is compared. -/
def Covers : Pattern → Str → Prop
  | [], t => t = []
  | .lit a :: π, x :: t => x ≠ PARAM_CHAR ∧ a = x ∧ Covers π t
  | .wild w :: π, x :: t => x = PARAM_CHAR ∧ if w.type = .CATCH_ALL then π = [] else Covers π t
  | _ :: _, [] => False

instance Covers.decidable : ∀ (π : Pattern) (t : Str), Decidable (Covers π t)
  | [], t => inferInstanceAs (Decidable (t = []))
  | .lit a :: π, x :: t =>
    haveI := Covers.decidable π t
    inferInstanceAs (Decidable (x ≠ PARAM_CHAR ∧ a = x ∧ Covers π t))
  | .wild w :: π, x :: t =>
    haveI := Covers.decidable π t
    inferInstanceAs (Decidable (x = PARAM_CHAR ∧ if w.type = .CATCH_ALL then π = [] else Covers π t))
  | .lit _ :: _, [] => inferInstanceAs (Decidable False)
  | .wild _ :: _, [] => inferInstanceAs (Decidable False)

/-- The parameters up to the first catch-all. -/
def upToCatchAll : List Param → List Param
  | [] => []
  | p :: params => p :: if p.type = .CATCH_ALL then [] else upToCatchAll params

open scoped Classical in
/-- The metadata of the wildcards that the table has on the calculated path. -/
noncomputable def sharedWilds (E : Table Sym Ctrl) : Str → List Wild
  | [] => []
  | x :: t =>
    if x = PARAM_CHAR then
      match wildOf E with
      | some w => w :: sharedWilds (after (.wild w) E) t
      | none => []
    else sharedWilds (after (.lit x) E) t

/-! ## The node of a route -/

theorem Free.after_lit {E : Table Sym Ctrl} {x : Char} {t : Str} (free : Free E (x :: t)) :
    Free (after (.lit x) E) t :=
  fun e stored => (free (.lit x :: e.1, e.2) stored).2 rfl

theorem Free.after_wild {E : Table Sym Ctrl} {w : Wild} {x : Char} {t : Str}
    (free : Free E (x :: t)) : Free (after (.wild w) E) t :=
  fun e stored => (free (.wild w :: e.1, e.2) stored).2.2

theorem covers_patternOf {t : Str} {params : List Param}
    (enough : t.count PARAM_CHAR ≤ params.length) : Covers (patternOf t params) t := by
  induction t generalizing params with
  | nil => rfl
  | cons x t ih =>
    by_cases placeholder : x = PARAM_CHAR
    · subst placeholder
      rw [List.count_cons_self] at enough
      cases params with
      | nil => exact absurd enough (by simp)
      | cons p params =>
        rw [List.length_cons, Nat.add_le_add_iff_right] at enough
        rw [patternOf_wild]
        refine ⟨rfl, ?_⟩
        have type : p.wild.type = p.type := rfl
        rw [type]
        split_ifs with isCatchAll
        · rfl
        · exact ih enough
    · rw [List.count_cons_of_ne placeholder] at enough
      rw [patternOf_lit placeholder]
      exact ⟨placeholder, rfl, ih enough⟩

/-- The stored route spells the calculated path. -/
theorem covers_resolve {E : Table Sym Ctrl} {t : Str} {params : List Param} (free : Free E t)
    (enough : t.count PARAM_CHAR ≤ params.length) : Covers (resolve E t params) t := by
  induction t generalizing E with
  | nil => rfl
  | cons x t ih =>
    by_cases placeholder : x = PARAM_CHAR
    · subst placeholder
      cases wild : wildOf E with
      | none =>
        rw [resolve_fresh wild]
        exact covers_patternOf enough
      | some w =>
        obtain ⟨π, b, stored⟩ := mem_of_wildOf wild
        have isParam : w.type ≠ .CATCH_ALL := by
          rw [(free _ stored).2.1]
          decide
        rw [List.count_cons_self] at enough
        rw [resolve_wild wild]
        refine ⟨rfl, ?_⟩
        rw [if_neg isParam]
        exact ih free.after_wild (by omega)
    · rw [List.count_cons_of_ne placeholder] at enough
      rw [resolve_lit placeholder]
      exact ⟨placeholder, rfl, ih free.after_lit enough⟩

/-- A calculated path spells at most one tree path. -/
theorem Proper.covers_unique {E : Table Sym Ctrl} (proper : Proper E) {π π' : Pattern}
    {b b' : Ctrl} (stored : (π, b) ∈ E) (stored' : (π', b') ∈ E) {t : Str} (covers : Covers π t)
    (covers' : Covers π' t) : π = π' := by
  induction t generalizing E π π' with
  | nil =>
    cases π with
    | cons s π => cases s <;> exact covers.elim
    | nil =>
      cases π' with
      | nil => rfl
      | cons s π' => cases s <;> exact covers'.elim
  | cons x t ih =>
    cases π with
    | nil => exact absurd covers (List.cons_ne_nil x t)
    | cons s π =>
      cases π' with
      | nil => exact absurd covers' (List.cons_ne_nil x t)
      | cons s' π' =>
        cases s with
        | lit a =>
          obtain ⟨literal, rfl, below⟩ := covers
          cases s' with
          | wild w' => exact absurd covers'.1 literal
          | lit a' =>
            obtain ⟨-, rfl, below'⟩ := covers'
            rw [ih (proper.after (.lit a')) stored stored' below below']
        | wild w =>
          obtain ⟨placeholder, below⟩ := covers
          cases s' with
          | lit a' => exact absurd placeholder covers'.1
          | wild w' =>
            obtain rfl := proper.here.wild_unique stored stored'
            obtain ⟨-, below'⟩ := covers'
            by_cases isCatchAll : w.type = .CATCH_ALL
            · rw [if_pos isCatchAll] at below below'
              rw [below, below']
            · rw [if_neg isCatchAll] at below below'
              rw [ih (proper.after (.wild w)) stored stored' below below']

/-! ## The metadata of a stored route -/

theorem wilds_patternOf {t : Str} {params : List Param}
    (enough : t.count PARAM_CHAR ≤ params.length) :
    wilds (patternOf t params) =
      (upToCatchAll (params.take (t.count PARAM_CHAR))).map Param.wild := by
  induction t generalizing params with
  | nil => rfl
  | cons x t ih =>
    by_cases placeholder : x = PARAM_CHAR
    · subst placeholder
      rw [List.count_cons_self] at enough ⊢
      cases params with
      | nil => exact absurd enough (by simp)
      | cons p params =>
        rw [List.length_cons, Nat.add_le_add_iff_right] at enough
        simp only [patternOf_wild, wilds_wild, List.take_succ_cons, upToCatchAll, List.map_cons]
        split_ifs with isCatchAll
        · rfl
        · rw [ih enough]
    · rw [List.count_cons_of_ne placeholder] at enough ⊢
      rw [patternOf_lit placeholder, wilds_lit, ih enough]

/-- Shared wildcards keep their metadata, the others get the first parameters of the queue. -/
theorem wilds_resolve (E : Table Sym Ctrl) {t : Str} {params : List Param}
    (enough : t.count PARAM_CHAR ≤ params.length) :
    wilds (resolve E t params) =
      sharedWilds E t ++
        (upToCatchAll (params.take (t.count PARAM_CHAR - (sharedWilds E t).length))).map
          Param.wild := by
  induction t generalizing E with
  | nil => rfl
  | cons x t ih =>
    by_cases placeholder : x = PARAM_CHAR
    · subst placeholder
      cases wild : wildOf E with
      | none =>
        rw [resolve_fresh wild, wilds_patternOf enough]
        simp only [sharedWilds, if_true, wild, List.nil_append, List.length_nil, Nat.sub_zero]
      | some w =>
        rw [List.count_cons_self] at enough ⊢
        have below := ih (after (.wild w) E) (by omega)
        have shared : sharedWilds E (PARAM_CHAR :: t) = w :: sharedWilds (after (.wild w) E) t := by
          simp only [sharedWilds, if_true, wild]
        rw [resolve_wild wild, wilds_wild, below, shared, List.length_cons, Nat.add_sub_add_right,
          List.cons_append]
    · rw [List.count_cons_of_ne placeholder] at enough ⊢
      have shared : sharedWilds E (x :: t) = sharedWilds (after (.lit x) E) t := by
        simp only [sharedWilds, if_neg placeholder]
      rw [resolve_lit placeholder, wilds_lit, ih _ enough, shared]

/-- The condition on the stored routes and the new one: the wildcards that lie on its path already
carry the route's first parameters, and the parameters from the first on agree with those behind
them. -/
structure KeepsOwn (E : Table Sym Ctrl) (p : PathParser) : Prop where
  shared : sharedWilds E p.calced <+: p.params.map Param.wild
  fresh : (upToCatchAll (p.params.take
      (p.params.length - (sharedWilds E p.calced).length))).map Param.wild <+:
    (p.params.map Param.wild).drop (sharedWilds E p.calced).length

theorem append_prefix_iff {α : Type} (a b l : List α) :
    a ++ b <+: l ↔ a <+: l ∧ b <+: l.drop a.length := by
  constructor
  · rintro ⟨r, rfl⟩
    refine ⟨⟨b ++ r, by rw [List.append_assoc]⟩, ?_⟩
    rw [List.append_assoc, List.drop_left]
    exact List.prefix_append b r
  · rintro ⟨⟨r, rfl⟩, below⟩
    rw [List.drop_left] at below
    exact (List.prefix_append_right_inj a).mpr below

theorem entries_subset_addRoutes {pcre : Pcre} {tree : RawTree Ctrl} (wellFormed : tree.WellFormed)
    (routes : List (Str × Ctrl)) : tree.entries ⊆ (tree.addRoutes pcre routes).entries := by
  induction routes generalizing tree with
  | nil => exact Set.Subset.rfl
  | cons r routes ih =>
    exact (entries_subset_addRoute wellFormed r.1 r.2).trans (ih (wellFormed.addRoute r.1 r.2))

theorem keepsOwn_iff (E : Table Sym Ctrl) {p : PathParser}
    (calculated : Calculated p.calced p.params) :
    KeepsOwn E p ↔ wilds (resolve E p.calced p.params) <+: p.params.map Param.wild := by
  have counted := calculated.counted
  rw [wilds_resolve _ counted.le, counted, append_prefix_iff]
  exact ⟨fun h => ⟨h.1, h.2⟩, fun h => ⟨h.1, h.2⟩⟩

/-- An accepted route has one node, and from then on its wildcard nodes carry the route's own
parameters exactly when the tree and the route met `KeepsOwn`. -/
theorem carries_own_iff {pcre : Pcre} {tree : RawTree Ctrl} (reachable : tree.Reachable pcre)
    {path : Str} {p : PathParser} (parsed : parsePathSegment pcre path = .ok p) {ctrl : Ctrl}
    (accepted : (tree.addRoute pcre path ctrl).2 = .accepted) (later : List (Str × Ctrl)) :
    let final := (tree.addRoute pcre path ctrl).1.addRoutes pcre later
    (∃ π, (π, ctrl) ∈ final.entries ∧ Covers π p.calced) ∧
      ((∀ π b, (π, b) ∈ final.entries → Covers π p.calced → wilds π <+: p.params.map Param.wild) ↔
        KeepsOwn tree.entries p) := by
  intro final
  have wellFormed := reachable.wellFormed
  have counted := (parsePathSegment_calculated parsed).counted
  have free := addRoute_accepted wellFormed parsed accepted
  have stored : (resolve tree.entries p.calced p.params, ctrl) ∈ final.entries := by
    apply entries_subset_addRoutes (wellFormed.addRoute path ctrl) later
    rw [free.2]
    exact Set.mem_insert _ _
  have covers := covers_resolve free.1 counted.le
  have proper : Proper final.entries :=
    ((reachable.addRoute path ctrl).addRoutes later).wellFormed.proper
  refine ⟨⟨_, stored, covers⟩, ?_⟩
  rw [keepsOwn_iff tree.entries (parsePathSegment_calculated parsed)]
  constructor
  · intro all
    exact all _ ctrl stored covers
  · intro here π b hπ coversπ
    rw [proper.covers_unique hπ stored coversπ covers]
    exact here

/-- The parameter of a segment without pattern. -/
def plainParam (name : Str) : Param :=
  { type := .PARAM, pfx := [], name, pattern := URL_REGEX_DEFAULT_PATTERN
    re := .compiled URL_REGEX_DEFAULT_PATTERN }

/-- What the parser makes of the route `/{:name}`. -/
def plainRoute (name : Str) : PathParser :=
  ⟨[plainParam name], "/:".toList, '/' :: (plainParam name).format⟩

theorem carries_own_first :
    (RawTree.addRoute anyPcre ({} : RawTree ℕ) "/\x7b:a\x7d".toList 1).2 = .accepted ∧
    ∀ π b, (π, b) ∈ ((RawTree.addRoute anyPcre ({} : RawTree ℕ) "/\x7b:a\x7d".toList 1).1.addRoutes
        anyPcre [("/\x7b:b\x7d/x".toList, 2)]).entries → Covers π (plainRoute "a".toList).calced →
      wilds π <+: (plainRoute "a".toList).params.map Param.wild := by
  have parsed : parsePathSegment anyPcre "/\x7b:a\x7d".toList = .ok (plainRoute "a".toList) := by
    decide +kernel
  have accepted : (RawTree.addRoute anyPcre ({} : RawTree ℕ) "/\x7b:a\x7d".toList 1).2 =
      .accepted := by decide +kernel
  have none : sharedWilds (RawTree.entries ({} : RawTree ℕ)) (plainRoute "a".toList).calced = [] := by
    simp [sharedWilds, wildOf_empty, plainRoute, PARAM_CHAR]
  have keeps : KeepsOwn (RawTree.entries ({} : RawTree ℕ)) (plainRoute "a".toList) := by
    constructor
    · rw [none]
      exact List.nil_prefix
    · rw [none]
      exact List.prefix_refl _
  exact ⟨accepted, (carries_own_iff .empty parsed accepted [("/\x7b:b\x7d/x".toList, 2)]).2.mpr keeps⟩

/-- The second route is accepted, but its parameter is bound under the name of the first. -/
theorem second_name_lost :
    let tree := (RawTree.addRoute anyPcre ({} : RawTree ℕ) "/\x7b:a\x7d".toList 1).1
    let r := tree.addRoute anyPcre "/\x7b:b\x7d/x".toList 2
    tree.Reachable anyPcre ∧ r.2 = .accepted ∧ ∃ p π,
      parsePathSegment anyPcre "/\x7b:b\x7d/x".toList = .ok p ∧ (π, 2) ∈ r.1.entries ∧
        Covers π p.calced ∧ ¬ wilds π <+: p.params.map Param.wild := by
  refine ⟨.addRoute _ _ .empty, by decide +kernel,
    ⟨[plainParam "b".toList], "/:/x".toList, '/' :: (plainParam "b".toList).format ++ "/x".toList⟩,
    .lit '/' :: .wild (plainParam "a".toList).wild :: lits "/x".toList, by decide +kernel, ?_,
    by decide +kernel, by decide +kernel⟩
  rw [RawTree.entries, ← RawNode.mem_listing]
  decide +kernel

end Cppmhd
