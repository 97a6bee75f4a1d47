import Cppmhd.Router.Static
import Cppmhd.Router.Metadata

/-!
# Which requests a route serves

`Spells` says that a request spells a stored route, with the values of its wildcards.  A request that
spells exactly one route is served by it unless an empty segment meets the handle of a parameter on
the way (`forward_complete`).  What `forward` answers is a route that the request spells up to such
an empty segment (`forward_sound`).
-/

open Words Table

namespace Cppmhd

variable {Ctrl : Type} {pcre : Pcre}

/-- The bindings in the order in which `forward` emplaces them. -/
def Params.emplaceAll (params : Params) (bindings : Params) : Params :=
  bindings.foldl (fun params b => params.emplace b.1 b.2) params

/-- The request spells the route: a parameter takes a segment without slash that its regex accepts,
a catch-all takes the rest. -/
inductive Spells (pcre : Pcre) : Pattern → Str → Params → Prop
  | done : Spells pcre [] [] []
  | lit {c : Char} {π : Pattern} {p : Str} {bindings : Params} (rest : Spells pcre π p bindings) :
      Spells pcre (.lit c :: π) (c :: p) bindings
  | param {w : Wild} {π : Pattern} {seg p : Str} {bindings : Params} (isParam : w.type = .PARAM)
      (free : '/' ∉ seg) (accepts : w.re.matches pcre seg = true)
      (rest : Spells pcre π p bindings) :
      Spells pcre (.wild w :: π) (seg ++ p) ((w.name, seg) :: bindings)
  | catchAll {w : Wild} {p : Str} (isCatchAll : w.type = .CATCH_ALL) :
      Spells pcre [.wild w] p [(w.name, p)]

/-- The request spells the route up to empty segments.  A parameter without segment binds its name
only if its regex accepts the empty string, and at the end of the route it leaves the next slash
and everything behind it unread. -/
inductive Serves (pcre : Pcre) : Pattern → Str → Params → Str → Prop
  | done : Serves pcre [] [] [] []
  | lit {c : Char} {π : Pattern} {p unread : Str} {bindings : Params}
      (rest : Serves pcre π p bindings unread) :
      Serves pcre (.lit c :: π) (c :: p) bindings unread
  | param {w : Wild} {π : Pattern} {seg p unread : Str} {bindings : Params}
      (isParam : w.type = .PARAM) (free : '/' ∉ seg) (nonempty : seg ≠ [])
      (accepts : w.re.matches pcre seg = true) (rest : Serves pcre π p bindings unread) :
      Serves pcre (.wild w :: π) (seg ++ p) ((w.name, seg) :: bindings) unread
  | empty {w : Wild} {π : Pattern} {p unread : Str} {bindings : Params}
      (isParam : w.type = .PARAM) (rest : Serves pcre π p bindings unread) :
      Serves pcre (.wild w :: π) p
        ((if w.re.matches pcre [] then [(w.name, [])] else []) ++ bindings) unread
  | unread {w : Wild} {p : Str} (isParam : w.type = .PARAM) :
      Serves pcre [.wild w] ('/' :: p) (if w.re.matches pcre [] then [(w.name, [])] else [])
        ('/' :: p)
  | catchAll {w : Wild} {p : Str} (isCatchAll : w.type = .CATCH_ALL) :
      Serves pcre [.wild w] p [(w.name, p)] []

/-! ## Bindings -/

@[simp] theorem emplaceAll_nil (params : Params) : params.emplaceAll [] = params := rfl

@[simp] theorem emplaceAll_cons (params : Params) (b : Str × Str) (bindings : Params) :
    params.emplaceAll (b :: bindings) = (params.emplace b.1 b.2).emplaceAll bindings := rfl

theorem emplaceAll_append (params first last : Params) :
    params.emplaceAll (first ++ last) = (params.emplaceAll first).emplaceAll last := by
  simp only [Params.emplaceAll, List.foldl_append]

theorem emplace_fresh {params : Params} {name : Str} (fresh : name ∉ params.map (·.1))
    (value : Str) : params.emplace name value = params ++ [(name, value)] := by
  have absent : params.any (·.1 == name) = false := by
    rw [List.any_eq_false]
    intro b member same
    exact fresh (List.mem_map.mpr ⟨b, member, by simpa using same⟩)
  rw [Params.emplace, absent, if_neg Bool.false_ne_true]

/-- With distinct names every binding is kept. -/
theorem emplaceAll_distinct (params bindings : Params)
    (nodup : ((params ++ bindings).map (·.1)).Nodup) :
    params.emplaceAll bindings = params ++ bindings := by
  induction bindings generalizing params with
  | nil => simp
  | cons b bindings ih =>
    have fresh : b.1 ∉ params.map (·.1) := by
      rw [List.map_append, List.map_cons, List.nodup_middle, List.nodup_cons, List.mem_append,
        not_or] at nodup
      exact nodup.1.1
    rw [emplaceAll_cons, emplace_fresh fresh, ih, List.append_assoc, List.singleton_append]
    rwa [List.append_assoc, List.singleton_append]

/-- The names on a route. -/
def names (π : Pattern) : List Str :=
  π.filterMap fun
    | .wild w => some w.name
    | .lit _ => none

theorem Serves.names_sublist {π : Pattern} {p unread : Str} {bindings : Params}
    (serves : Serves pcre π p bindings unread) : (bindings.map (·.1)).Sublist (names π) := by
  induction serves with
  | done => exact List.Sublist.refl _
  | lit rest ih => exact ih
  | param isParam free nonempty accepts rest ih => exact ih.cons_cons _
  | @empty w π p unread bindings isParam rest ih =>
    show List.Sublist _ (w.name :: names π)
    split_ifs with accepts
    · exact ih.cons_cons _
    · exact ih.cons _
  | @unread w p isParam =>
    show List.Sublist _ [w.name]
    split_ifs with accepts
    · exact List.Sublist.refl _
    · exact List.nil_sublist _
  | catchAll isCatchAll => exact List.Sublist.refl _

theorem Spells.names_eq {π : Pattern} {p : Str} {bindings : Params}
    (spells : Spells pcre π p bindings) : bindings.map (·.1) = names π := by
  induction spells with
  | done => rfl
  | lit rest ih => exact ih
  | @param w π seg p bindings isParam free accepts rest ih =>
    show w.name :: bindings.map (·.1) = w.name :: names π
    rw [ih]
  | catchAll isCatchAll => rfl

/-! ## Lookup in a proper table -/

section Lookup

variable {E : Table Sym Ctrl}

theorem Proper.valueAt_eq (proper : Proper E) {c : Ctrl} (stored : ([], c) ∈ E) :
    valueAt E = some c := by
  apply Table.valueAt_eq
  intro b
  constructor
  · intro stored'
    rw [proper.here.value_unique stored' stored]
  · intro same
    rwa [← Option.some.inj same]

theorem Proper.wildOf_eq (proper : Proper E) {w : Wild} {π : Pattern} {b : Ctrl}
    (stored : (.wild w :: π, b) ∈ E) : wildOf E = some w :=
  wildOf_eq_some ⟨π, b, stored⟩ fun _ _ _ stored' => proper.here.wild_unique stored' stored

theorem Proper.wildOf_lit (proper : Proper E) {x : Char} {π : Pattern} {b : Ctrl}
    (stored : (.lit x :: π, b) ∈ E) : wildOf E = none :=
  wildOf_eq_none fun _ _ _ stored' => proper.here.wild_alone stored' stored

end Lookup

/-! ## Soundness -/

/-- What is found is stored, and the request spells it up to empty segments. -/
def Found (pcre : Pcre) (E : Table Sym Ctrl) (path : Str) (params : Params) (c : Ctrl)
    (params' : Params) : Prop :=
  ∃ π bindings unread, (π, c) ∈ E ∧ Serves pcre π path bindings unread ∧
    params' = params.emplaceAll bindings

theorem Found.lit {E : Table Sym Ctrl} {x : Char} {t : Str} {params params' : Params} {c : Ctrl}
    (found : Found pcre (after (.lit x) E) t params c params') :
    Found pcre E (x :: t) params c params' := by
  obtain ⟨π, bindings, unread, stored, serves, bound⟩ := found
  exact ⟨.lit x :: π, bindings, unread, stored, .lit serves, bound⟩

/-- What a parameter binds for its segment. -/
def Wild.bindings (pcre : Pcre) (w : Wild) (seg : Str) : Params :=
  if seg ≠ [] ∨ w.re.matches pcre [] then [(w.name, seg)] else []

theorem bind_eq_some {w : Wild} {seg : Str} {params params' : Params}
    (bound : w.bind pcre seg params = some params') :
    params' = params.emplaceAll (w.bindings pcre seg) ∧
      (seg ≠ [] → w.re.matches pcre seg = true) := by
  rw [Wild.bind] at bound
  by_cases empty : seg = []
  · subst empty
    rw [if_pos rfl, Option.some.injEq] at bound
    refine ⟨?_, fun h => absurd rfl h⟩
    rw [← bound, Wild.bindings]
    by_cases accepts : w.re.matches pcre [] = true
    · simp [accepts]
    · simp [accepts]
  · rw [if_neg empty] at bound
    by_cases accepts : w.re.matches pcre seg = true
    · rw [if_pos accepts, Option.some.injEq] at bound
      refine ⟨?_, fun _ => accepts⟩
      rw [← bound, Wild.bindings, if_pos (Or.inl empty)]
      rfl
    · rw [if_neg accepts] at bound
      exact absurd bound (by simp)

/-- A parameter in front of a served rest. -/
theorem Serves.behind {w : Wild} {π : Pattern} {seg p unread : Str} {bindings : Params}
    (isParam : w.type = .PARAM) (free : '/' ∉ seg)
    (accepts : seg ≠ [] → w.re.matches pcre seg = true) (rest : Serves pcre π p bindings unread) :
    Serves pcre (.wild w :: π) (seg ++ p) (w.bindings pcre seg ++ bindings) unread := by
  by_cases empty : seg = []
  · subst empty
    have same : w.bindings pcre [] = if w.re.matches pcre [] then [(w.name, [])] else [] := by
      simp [Wild.bindings]
    rw [List.nil_append, same]
    exact .empty isParam rest
  · rw [Wild.bindings, if_pos (Or.inl empty)]
    exact .param isParam free empty (accepts empty) rest

theorem Found.behind {E : Table Sym Ctrl} {w : Wild} {seg p : Str} {params params₁ params' : Params}
    {c : Ctrl} (isParam : w.type = .PARAM) (free : '/' ∉ seg)
    (bound : w.bind pcre seg params = some params₁)
    (found : Found pcre (after (.wild w) E) p params₁ c params') :
    Found pcre E (seg ++ p) params c params' := by
  obtain ⟨π, bindings, unread, stored, serves, bound'⟩ := found
  obtain ⟨first, accepts⟩ := bind_eq_some bound
  refine ⟨.wild w :: π, _, unread, stored, .behind isParam free accepts serves, ?_⟩
  rw [bound', first, emplaceAll_append]

theorem findEnd_sound {E : Table Sym Ctrl} (proper : Proper E) {params params' : Params} {c : Ctrl}
    (answer : findEnd pcre E params = (some c, params')) : Found pcre E [] params c params' := by
  cases value : valueAt E with
  | some b =>
    rw [findEnd_value value, Prod.mk.injEq, Option.some.injEq] at answer
    obtain ⟨rfl, rfl⟩ := answer
    exact ⟨[], [], [], mem_of_valueAt value, .done, rfl⟩
  | none =>
    cases wild : wildOf E with
    | none =>
      rw [findEnd_none value wild] at answer
      exact absurd (congrArg Prod.fst answer) (by simp)
    | some w =>
      rw [findEnd_wild value wild] at answer
      by_cases answers : w.type = .CATCH_ALL ∨ w.re.matches pcre [] = true
      · rw [if_pos answers, Prod.mk.injEq] at answer
        obtain ⟨stored, rfl⟩ := answer
        obtain ⟨π, b, first⟩ := mem_of_wildOf wild
        have member := mem_of_valueAt stored
        rcases proper.here.wild_kind first with ⟨isCatchAll, -⟩ | ⟨isParam, -⟩
        · exact ⟨[.wild w], [(w.name, [])], [], member, .catchAll isCatchAll, rfl⟩
        · have accepts : w.re.matches pcre [] = true := by
            rcases answers with isCatchAll | accepts
            · rw [isParam] at isCatchAll
              exact absurd isCatchAll (by decide)
            · exact accepts
          refine ⟨[.wild w], _, [], member, .empty isParam .done, ?_⟩
          rw [if_pos accepts]
          rfl
      · rw [if_neg answers] at answer
        exact absurd (congrArg Prod.fst answer) (by simp)

/-- By induction on the length of the request; a parameter consumes its segment and the slash. -/
theorem find_sound {E : Table Sym Ctrl} (proper : Proper E) {path : Str} {params params' : Params}
    {c : Ctrl} (answer : find pcre E path params = (some c, params')) :
    Found pcre E path params c params' := by
  induction hlen : path.length using Nat.strong_induction_on generalizing E path params with
  | _ len ih =>
    cases path with
    | nil =>
      rw [find_nil] at answer
      exact findEnd_sound proper answer
    | cons x t =>
      cases wild : wildOf E with
      | none =>
        rw [find_plain wild] at answer
        have shorter : t.length < len := by
          rw [← hlen, List.length_cons]
          omega
        exact (ih t.length shorter (proper.after (.lit x)) answer rfl).lit
      | some w =>
        obtain ⟨π, b, first⟩ := mem_of_wildOf wild
        rcases proper.here.wild_kind first with ⟨isCatchAll, -⟩ | ⟨isParam, -⟩
        · rw [find_catchAll wild isCatchAll, Prod.mk.injEq] at answer
          obtain ⟨stored, rfl⟩ := answer
          exact ⟨[.wild w], _, [], mem_of_valueAt stored, .catchAll isCatchAll, rfl⟩
        · obtain ⟨seg, rest, whole, -, free, cut⟩ := findUntilSlash_cases (x :: t)
          have nonempty : seg ++ rest ≠ [] := whole ▸ List.cons_ne_nil x t
          rw [whole, find_param wild isParam free cut nonempty] at answer
          rw [whole]
          cases bound : w.bind pcre seg params with
          | none =>
            rw [bound] at answer
            exact absurd (congrArg Prod.fst answer) (by simp)
          | some params₁ =>
            rw [bound] at answer
            dsimp only at answer
            by_cases early : seg = [] ∧ (valueAt (after (.wild w) E)).isSome = true
            · rw [if_pos early, Prod.mk.injEq] at answer
              obtain ⟨stored, rfl⟩ := answer
              obtain ⟨rfl, -⟩ := early
              obtain rfl | ⟨rest', rfl⟩ := cut
              · exact absurd rfl nonempty
              · refine ⟨[.wild w], _, _, mem_of_valueAt stored, .unread isParam, ?_⟩
                rw [(bind_eq_some bound).1]
                simp [Wild.bindings]
            · rw [if_neg early] at answer
              obtain rfl | ⟨rest', rfl⟩ := cut
              · rw [Prod.mk.injEq] at answer
                obtain ⟨stored, rfl⟩ := answer
                apply Found.behind isParam free bound
                exact ⟨[], [], [], mem_of_valueAt stored, .done, rfl⟩
              · have shorter : rest'.length < len := by
                  have total : (x :: t).length = seg.length + (rest'.length + 1) := by
                    rw [whole, List.length_append, List.length_cons]
                  omega
                apply Found.behind isParam free bound
                apply Found.lit
                exact ih rest'.length shorter ((proper.after _).after _) answer rfl

/-! ## Completeness -/

/-- Where the request has an empty segment for a parameter in the middle of the route, that
parameter carries no handle. -/
def PassesHandles (pcre : Pcre) (E : Table Sym Ctrl) (π : Pattern) (path : Str) : Prop :=
  ∀ ρ w σ p rest bindings b, π = ρ ++ .wild w :: σ → σ ≠ [] → Spells pcre ρ p bindings →
    path = p ++ '/' :: rest → (ρ ++ [.wild w], b) ∉ E

/-- No other stored route is spelled. -/
def OnlyMatch (pcre : Pcre) (E : Table Sym Ctrl) (π : Pattern) (path : Str) : Prop :=
  ∀ π' b bindings, (π', b) ∈ E → Spells pcre π' path bindings → π' = π

section Complete

variable {E : Table Sym Ctrl} {π : Pattern}

theorem PassesHandles.after_lit {x : Char} {t : Str}
    (passes : PassesHandles pcre E (.lit x :: π) (x :: t)) :
    PassesHandles pcre (after (.lit x) E) π t := by
  intro ρ w σ p rest bindings b whole more spells path stored
  apply passes (.lit x :: ρ) w σ (x :: p) rest bindings b (by rw [whole]; rfl) more (.lit spells)
    (by rw [path]; rfl) stored

theorem PassesHandles.after_param {w : Wild} {seg t : Str} (isParam : w.type = .PARAM)
    (free : '/' ∉ seg) (accepts : w.re.matches pcre seg = true)
    (passes : PassesHandles pcre E (.wild w :: π) (seg ++ t)) :
    PassesHandles pcre (after (.wild w) E) π t := by
  intro ρ v σ p rest bindings b whole more spells path stored
  apply passes (.wild w :: ρ) v σ (seg ++ p) rest _ b (by rw [whole]; rfl) more
    (.param isParam free accepts spells) (by rw [path, List.append_assoc]) stored

theorem OnlyMatch.after_lit {x : Char} {t : Str}
    (only : OnlyMatch pcre E (.lit x :: π) (x :: t)) : OnlyMatch pcre (after (.lit x) E) π t := by
  intro π' b bindings stored spells
  have same := only (.lit x :: π') b bindings stored (.lit spells)
  exact (List.cons.inj same).2

theorem OnlyMatch.after_param {w : Wild} {seg t : Str} (isParam : w.type = .PARAM)
    (free : '/' ∉ seg) (accepts : w.re.matches pcre seg = true)
    (only : OnlyMatch pcre E (.wild w :: π) (seg ++ t)) :
    OnlyMatch pcre (after (.wild w) E) π t := by
  intro π' b bindings stored spells
  have same := only (.wild w :: π') b _ stored (.param isParam free accepts spells)
  exact (List.cons.inj same).2

/-- Where the only match goes on, no handle ends the lookup at the end of the request. -/
theorem OnlyMatch.vacant {s : Sym} (only : OnlyMatch pcre E (s :: π) []) : valueAt E = none := by
  apply valueAt_eq_none
  intro b stored
  exact absurd (only [] b [] stored .done) (List.cons_ne_nil s π).symm

/-- By induction on the spelling; the lookup follows the only match. -/
theorem find_complete (proper : Proper E) {c : Ctrl} (stored : (π, c) ∈ E) {path : Str}
    {bindings : Params} (spells : Spells pcre π path bindings) (only : OnlyMatch pcre E π path)
    (passes : PassesHandles pcre E π path) (params : Params) :
    find pcre E path params = (some c, params.emplaceAll bindings) := by
  induction spells generalizing E params with
  | done =>
    rw [find_nil, findEnd_value (proper.valueAt_eq stored)]
    rfl
  | @lit x π t bindings rest ih =>
    rw [find_plain (proper.wildOf_lit stored)]
    exact ih (proper.after (.lit x)) stored only.after_lit passes.after_lit params
  | @catchAll w path isCatchAll =>
    have wild := proper.wildOf_eq stored
    have value := (proper.after (.wild w)).valueAt_eq stored
    cases path with
    | nil =>
      rw [find_nil, findEnd_wild only.vacant wild, if_pos (Or.inl isCatchAll), value]
      rfl
    | cons x t =>
      rw [find_catchAll wild isCatchAll, value]
      rfl
  | @param w π seg p bindings isParam free accepts rest ih =>
    have wild := proper.wildOf_eq stored
    have below := ih (proper.after (.wild w)) stored (only.after_param isParam free accepts)
      (passes.after_param isParam free accepts)
    have next := proper.here.param_next isParam stored
    have bound : w.bind pcre seg params = some (params.emplace w.name seg) := by
      rw [Wild.bind]
      by_cases empty : seg = []
      · subst empty
        rw [if_pos rfl, if_pos accepts]
      · rw [if_neg empty, if_pos accepts]
    rcases next with rfl | ⟨ρ, rfl⟩
    · cases rest
      have value := (proper.after (.wild w)).valueAt_eq stored
      by_cases empty : seg = []
      · subst empty
        rw [List.append_nil, find_nil, findEnd_wild only.vacant wild, if_pos (Or.inr accepts), value]
        rfl
      · rw [find_param wild isParam free (Or.inl rfl) (by simpa using empty), bound]
        simp only [empty, false_and, if_false, value]
        rfl
    · cases rest with
      | @lit _ _ t _ rest =>
        have plain := (proper.after (.wild w)).wildOf_lit stored
        have goes : ¬ (seg = [] ∧ (valueAt (after (.wild w) E)).isSome = true) := by
          rintro ⟨rfl, handle⟩
          obtain ⟨b, value⟩ := Option.isSome_iff_exists.mp handle
          exact passes [] w (.lit '/' :: ρ) [] t [] b rfl (List.cons_ne_nil _ _) .done rfl
            (mem_of_valueAt value)
        rw [find_param wild isParam free (Or.inr ⟨t, rfl⟩) (by simp), bound]
        simp only [if_neg goes]
        rw [← find_plain plain, below (params.emplace w.name seg), emplaceAll_cons]

end Complete

/-! ## Routers -/

section Router

variable (pcre) (pre : Str) (builder : RouterBuilder Ctrl) (m : HttpMethod)

/-- The routes that a built router stores for a method. -/
def Router.entries (router : Router Ctrl) (m : HttpMethod) : Table Sym Ctrl :=
  (router.tree m).entries

theorem buildTree_wellFormed :
    RawTree.WellFormed { root := (Router.buildTree pcre pre builder).1.tree m } := by
  rw [buildTree_tree]
  have reachable : RawTree.Reachable pcre ({} : RawTree Ctrl) := .empty
  exact (reachable.addRoutes _).wellFormed

theorem buildTree_proper : Proper ((Router.buildTree pcre pre builder).1.entries m) :=
  (buildTree_wellFormed pcre pre builder m).proper

theorem forward_find (path : Str) (params : Params) :
    let r := (Router.buildTree pcre pre builder).1.forward pcre m path params
    (r.ctrl, r.params) = find pcre ((Router.buildTree pcre pre builder).1.entries m) path params := by
  rw [forward_eq]
  exact forwardLoop_tree (buildTree_wellFormed pcre pre builder m) path params

/-- The answer of `forward` is a stored route that the request spells up to empty segments. -/
theorem forward_sound (path : Str) (c : Ctrl)
    (answer : ((Router.buildTree pcre pre builder).1.forward pcre m path []).ctrl = some c) :
    ∃ π bindings unread, (π, c) ∈ (Router.buildTree pcre pre builder).1.entries m ∧
      Serves pcre π path bindings unread ∧
      ((names π).Nodup →
        ((Router.buildTree pcre pre builder).1.forward pcre m path []).params = bindings) := by
  have lookup := forward_find pcre pre builder m path []
  generalize (Router.buildTree pcre pre builder).1.forward pcre m path [] = r at answer lookup ⊢
  dsimp only at lookup
  rw [answer] at lookup
  obtain ⟨π, bindings, unread, stored, serves, bound⟩ :=
    find_sound (buildTree_proper pcre pre builder m) lookup.symm
  refine ⟨π, bindings, unread, stored, serves, ?_⟩
  intro distinct
  rw [bound, emplaceAll_distinct, List.nil_append]
  rw [List.nil_append]
  exact serves.names_sublist.nodup distinct

/-- One parameter below the root. -/
def nameRoutes : RouterBuilder ℕ := ⟨[(.GET, "/\x7b:name\x7d".toList, 1)]⟩

/-- The stored form of `/{:name}`. -/
def namePattern : List Sym := [.lit '/', .wild (plainParam "name".toList).wild]

abbrev bobRequest : Str := ['/', 'b', 'o', 'b']

theorem nameRoutes_listing :
    ((Router.buildTree anyPcre [] nameRoutes).1.tree .GET).listing = [(namePattern, 1)] := by
  decide +kernel

theorem nameRoutes_entries (e : List Sym × ℕ) :
    e ∈ (Router.buildTree anyPcre [] nameRoutes).1.entries .GET ↔ e = (namePattern, 1) := by
  rw [Router.entries, ← RawNode.mem_listing, nameRoutes_listing, List.mem_singleton]

theorem forward_sound_name :
    ∃ π bindings unread, (π, 1) ∈ (Router.buildTree anyPcre [] nameRoutes).1.entries .GET ∧
      Serves anyPcre π bobRequest bindings unread ∧ ((names π).Nodup →
        ((Router.buildTree anyPcre [] nameRoutes).1.forward anyPcre .GET bobRequest []).params =
          bindings) :=
  forward_sound anyPcre [] nameRoutes .GET bobRequest 1 (by decide +kernel)

/-- A single parameter takes no slash. -/
theorem Spells.single {w : Wild} {p : Str} {bindings : Params}
    (spells : Spells pcre [.wild w] p bindings) : w.type = .CATCH_ALL ∨ '/' ∉ p := by
  cases spells with
  | param isParam free accepts rest =>
    cases rest
    right
    rwa [List.append_nil]
  | catchAll isCatchAll => exact Or.inl isCatchAll

/-- The second slash of the request is left unread, so the request spells no route. -/
theorem slash_unread :
    ((Router.buildTree anyPcre [] nameRoutes).1.forward anyPcre .GET ['/', '/'] []).ctrl =
        some 1 ∧
      ¬ ∃ π bindings, (π, 1) ∈ (Router.buildTree anyPcre [] nameRoutes).1.entries .GET ∧
        Spells anyPcre π ['/', '/'] bindings := by
  refine ⟨by decide +kernel, ?_⟩
  rintro ⟨π, bindings, stored, spells⟩
  obtain rfl : π = namePattern := congrArg Prod.fst ((nameRoutes_entries _).mp stored)
  cases spells with
  | lit rest =>
    rcases rest.single with isCatchAll | free
    · exact absurd isCatchAll (by decide)
    · exact free (List.mem_singleton_self '/')

/-- The only route that the request spells is served, unless an empty segment meets a handle. -/
theorem forward_complete (path : Str) {π : Pattern} {c : Ctrl} {bindings : Params}
    (stored : (π, c) ∈ (Router.buildTree pcre pre builder).1.entries m)
    (spells : Spells pcre π path bindings)
    (only : OnlyMatch pcre ((Router.buildTree pcre pre builder).1.entries m) π path)
    (passes : PassesHandles pcre ((Router.buildTree pcre pre builder).1.entries m) π path) :
    ((Router.buildTree pcre pre builder).1.forward pcre m path []).ctrl = some c ∧
      ((Router.buildTree pcre pre builder).1.forward pcre m path []).params =
        Params.emplaceAll [] bindings ∧
      ((names π).Nodup →
        ((Router.buildTree pcre pre builder).1.forward pcre m path []).params = bindings) := by
  have lookup := forward_find pcre pre builder m path []
  generalize (Router.buildTree pcre pre builder).1.forward pcre m path [] = r at lookup ⊢
  dsimp only at lookup
  rw [find_complete (buildTree_proper pcre pre builder m) stored spells only passes,
    Prod.mk.injEq] at lookup
  refine ⟨lookup.1, lookup.2, ?_⟩
  intro distinct
  rw [lookup.2, emplaceAll_distinct, List.nil_append]
  rw [List.nil_append, spells.names_eq]
  exact distinct

theorem forward_complete_name :
    ((Router.buildTree anyPcre [] nameRoutes).1.forward anyPcre .GET bobRequest []).ctrl =
        some 1 ∧
      ((Router.buildTree anyPcre [] nameRoutes).1.forward anyPcre .GET bobRequest []).params =
        [("name".toList, ['b', 'o', 'b'])] := by
  have stored := (nameRoutes_entries (namePattern, 1)).mpr rfl
  have segment : Spells anyPcre [.wild (plainParam "name".toList).wild] (['b', 'o', 'b'] ++ [])
      [("name".toList, ['b', 'o', 'b'])] := .param rfl (by decide) rfl .done
  have spells : Spells anyPcre namePattern bobRequest [("name".toList, ['b', 'o', 'b'])] :=
    .lit segment
  have only : OnlyMatch anyPcre ((Router.buildTree anyPcre [] nameRoutes).1.entries .GET) namePattern
      bobRequest := by
    intro π b bindings stored' spells'
    exact congrArg Prod.fst ((nameRoutes_entries _).mp stored')
  have passes : PassesHandles anyPcre ((Router.buildTree anyPcre [] nameRoutes).1.entries .GET)
      namePattern bobRequest := by
    intro ρ w σ p rest bindings b whole more spells' path
    rcases ρ with _ | ⟨s, ρ⟩
    · exact absurd whole (by simp [namePattern])
    · have short := congrArg List.length whole
      have positive := List.length_pos_iff.mpr more
      simp only [namePattern, List.length_cons, List.length_append, List.length_nil] at short
      omega
  have served := forward_complete anyPcre [] nameRoutes .GET bobRequest stored spells only passes
  exact ⟨served.1, served.2.2 (by decide)⟩

/-- A parameter with a handle above another route. -/
def nestedRoutes : RouterBuilder ℕ :=
  ⟨[(.GET, "/\x7b:name\x7d".toList, 1), (.GET, "/\x7b:name\x7d/x".toList, 2)]⟩

theorem nestedRoutes_entries (e : List Sym × ℕ) :
    e ∈ (Router.buildTree anyPcre [] nestedRoutes).1.entries .GET ↔
      e = (namePattern, 1) ∨ e = (namePattern ++ [.lit '/', .lit 'x'], 2) := by
  have listing : ((Router.buildTree anyPcre [] nestedRoutes).1.tree .GET).listing =
      [(namePattern, 1), (namePattern ++ [.lit '/', .lit 'x'], 2)] := by decide +kernel
  rw [Router.entries, ← RawNode.mem_listing, listing, List.mem_cons, List.mem_singleton]

/-- The empty segment ends the lookup at the handle above the only route that the request spells. -/
theorem handle_above :
    ∃ π bindings, (π, 2) ∈ (Router.buildTree anyPcre [] nestedRoutes).1.entries .GET ∧
      Spells anyPcre π ['/', '/', 'x'] bindings ∧
      OnlyMatch anyPcre ((Router.buildTree anyPcre [] nestedRoutes).1.entries .GET) π
        ['/', '/', 'x'] ∧
      ((Router.buildTree anyPcre [] nestedRoutes).1.forward anyPcre .GET ['/', '/', 'x'] []).ctrl =
        some 1 := by
  have answer : ((Router.buildTree anyPcre [] nestedRoutes).1.forward anyPcre .GET
      ['/', '/', 'x'] []).ctrl = some 1 := by decide +kernel
  have table := nestedRoutes_entries
  generalize (Router.buildTree anyPcre [] nestedRoutes).1.entries .GET = E at table ⊢
  have segment : Spells anyPcre [.wild (plainParam "name".toList).wild, .lit '/', .lit 'x']
      ([] ++ ['/', 'x']) [("name".toList, [])] :=
    .param rfl List.not_mem_nil rfl (.lit (.lit .done))
  refine ⟨_, _, (table _).mpr (Or.inr rfl), .lit segment, ?_, answer⟩
  intro π b bindings stored spells
  rcases (table _).mp stored with same | same
  · obtain rfl : π = namePattern := congrArg Prod.fst same
    cases spells with
    | lit rest =>
      rcases rest.single with isCatchAll | free
      · exact absurd isCatchAll (by decide)
      · exact absurd List.mem_cons_self free
  · exact congrArg Prod.fst same

end Router

end Cppmhd
