import Cppmhd.Router.Serving

/-!
# Adding a route

A table that gains a route keeps the answers of its lookup, with their bindings, wherever the new
controller does not answer (`find_extends`).  So no accepted route takes service away or diverts a
request to a third route (`extension_keeps_service`), and a refused one changes no answer
(`refusal_keeps_service`).
-/

open Words Table

namespace Cppmhd

variable {Ctrl : Type} {pcre : Pcre}

/-- The table gains routes of one controller. -/
structure Extends (c : Ctrl) (E F : Table Sym Ctrl) : Prop where
  old : E ⊆ F
  new : ∀ e ∈ F, e ∈ E ∨ e.2 = c

/-- The answer is that of the new controller, or the one of before. -/
def Keeps (c : Ctrl) (r r' : Option Ctrl × Params) : Prop :=
  r'.1 = some c ∨ (r'.1 = r.1 ∧ (r.1.isSome → r'.2 = r.2))

theorem Keeps.same (c : Ctrl) (r : Option Ctrl × Params) : Keeps c r r := Or.inr ⟨rfl, fun _ => rfl⟩

theorem Keeps.of_values {c : Ctrl} {v v' : Option Ctrl} (values : v' = some c ∨ v' = v)
    (params : Params) : Keeps c (v, params) (v', params) := by
  rcases values with new | same
  · exact Or.inl new
  · exact Or.inr ⟨same, fun _ => rfl⟩

section Extends

variable {c : Ctrl} {E F : Table Sym Ctrl} (extend : Extends c E F)

include extend

theorem Extends.after (s : Sym) : Extends c (after s E) (after s F) :=
  ⟨fun _ stored => extend.old stored, fun e stored => extend.new (s :: e.1, e.2) stored⟩

theorem Extends.valueAt (proper : Proper E) :
    valueAt F = some c ∨ Table.valueAt F = Table.valueAt E := by
  cases value : Table.valueAt F with
  | none =>
    right
    symm
    apply valueAt_eq_none
    intro b stored
    obtain ⟨b', value'⟩ : ∃ b', Table.valueAt F = some b' := by
      rw [Table.valueAt, dif_pos ⟨b, extend.old stored⟩]
      exact ⟨_, rfl⟩
    rw [value] at value'
    cases value'
  | some b =>
    rcases extend.new _ (mem_of_valueAt value) with stored | same
    · right
      rw [proper.valueAt_eq stored]
    · left
      rw [← same]

/-- The wildcard at the beginning stays. -/
theorem Extends.wildOf_some (proper : Proper F) {w : Wild} (wild : wildOf E = some w) :
    wildOf F = some w := by
  obtain ⟨π, b, stored⟩ := mem_of_wildOf wild
  exact proper.wildOf_eq (extend.old stored)

theorem Extends.wildOf_none (wild : wildOf F = none) : wildOf E = none := by
  apply wildOf_eq_none
  intro w π b stored
  rw [wildOf, dif_pos ⟨w, π, b, extend.old stored⟩] at wild
  cases wild

/-- Behind a new wildcard only the new controller is found. -/
theorem Extends.found_new (proper : Proper F) {w : Wild} (wild : wildOf F = some w)
    (none : wildOf E = none) {x : Char} {t : Str} {params params' : Params} {b : Ctrl}
    (found : Found pcre F (x :: t) params b params') : b = c := by
  obtain ⟨π, bindings, unread, stored, serves, -⟩ := found
  rcases extend.new _ stored with old | same
  · cases π with
    | nil => cases serves
    | cons s π =>
      cases s with
      | lit y =>
        obtain ⟨ρ, b', beginning⟩ := mem_of_wildOf wild
        exact absurd stored (proper.here.wild_alone beginning)
      | wild v =>
        rw [wildOf, dif_pos ⟨v, π, b, old⟩] at none
        cases none
  · exact same

theorem findEnd_extends (properE : Proper E) (properF : Proper F) (params : Params) :
    Keeps c (findEnd pcre E params) (findEnd pcre F params) := by
  rcases extend.valueAt properE with new | same
  · rw [findEnd_value new]
    exact Or.inl rfl
  · cases value : Table.valueAt E with
    | some b =>
      rw [findEnd_value value, findEnd_value (same.trans value)]
      exact Keeps.same c _
    | none =>
      cases wild : wildOf E with
      | some w =>
        rw [findEnd_wild value wild, findEnd_wild (same.trans value) (extend.wildOf_some properF wild)]
        split
        · exact .of_values ((extend.after (.wild w)).valueAt (properE.after (.wild w))) _
        · exact Keeps.same c _
      | none =>
        rw [findEnd_none value wild]
        cases answer : (findEnd pcre F params).1 with
        | none => exact Or.inr ⟨answer, fun h => absurd h Bool.false_ne_true⟩
        | some b =>
          obtain ⟨π, bindings, unread, stored, serves, -⟩ :=
            findEnd_sound properF (Prod.ext answer rfl : findEnd pcre F params = (some b, _))
          rcases extend.new _ stored with old | same'
          · cases π with
            | nil => exact absurd (properE.valueAt_eq old) (by simp [value])
            | cons s π =>
              cases s with
              | lit y => cases serves
              | wild v =>
                rw [wildOf, dif_pos ⟨v, π, b, old⟩] at wild
                cases wild
          · left
            rw [answer]
            exact congrArg some same'

/-- By induction on the length of the request.  The lookups part where the new route brings a
wildcard, or its controller. -/
theorem find_extends (properE : Proper E) (properF : Proper F) (path : Str) (params : Params) :
    Keeps c (find pcre E path params) (find pcre F path params) := by
  induction hlen : path.length using Nat.strong_induction_on generalizing E F path params with
  | _ len ih =>
    cases path with
    | nil =>
      rw [find_nil, find_nil]
      exact findEnd_extends extend properE properF params
    | cons x t =>
      cases wild : wildOf F with
      | none =>
        have shorter : t.length < len := by
          rw [← hlen, List.length_cons]
          omega
        rw [find_plain wild, find_plain (extend.wildOf_none wild)]
        exact ih t.length shorter (extend.after (.lit x)) (properE.after (.lit x))
          (properF.after (.lit x)) t params rfl
      | some w =>
        obtain ⟨π, b, first⟩ := mem_of_wildOf wild
        cases known : wildOf E with
        | none =>
          have none : after (.lit x) E = ∅ := by
            apply Set.eq_empty_of_forall_notMem
            rintro ⟨ρ, b'⟩ stored
            exact properF.here.wild_alone first (extend.old stored)
          rw [find_plain known, none, find_empty]
          cases answer : (find pcre F (x :: t) params).1 with
          | none => exact Or.inr ⟨answer, fun h => absurd h Bool.false_ne_true⟩
          | some b' =>
            have found := find_sound properF
              (Prod.ext answer rfl : find pcre F (x :: t) params = (some b', _))
            left
            rw [answer, extend.found_new properF wild known found]
        | some w' =>
          obtain rfl : w = w' := by
            have both := extend.wildOf_some properF known
            rw [wild] at both
            exact Option.some.inj both
          have below := (extend.after (.wild w)).valueAt (properE.after (.wild w))
          rcases properF.here.wild_kind first with ⟨isCatchAll, -⟩ | ⟨isParam, -⟩
          · rw [find_catchAll wild isCatchAll, find_catchAll known isCatchAll]
            exact .of_values below _
          · obtain ⟨seg, rest, whole, -, free, cut⟩ := findUntilSlash_cases (x :: t)
            have nonempty : seg ++ rest ≠ [] := whole ▸ List.cons_ne_nil x t
            rw [whole, find_param wild isParam free cut nonempty,
              find_param known isParam free cut nonempty]
            cases w.bind pcre seg params with
            | none => exact Keeps.same c _
            | some params =>
              dsimp only
              by_cases early : seg = [] ∧ (Table.valueAt (Table.after (.wild w) F)).isSome = true
              · rw [if_pos early]
                rcases below with new | same
                · exact Or.inl new
                · rw [same] at early
                  rw [if_pos early, same]
                  exact Keeps.same c _
              · have late : ¬ (seg = [] ∧ (Table.valueAt (Table.after (.wild w) E)).isSome = true) := by
                  rintro ⟨empty, handle⟩
                  rcases below with new | same
                  · exact early ⟨empty, by rw [new]; rfl⟩
                  · exact early ⟨empty, by rw [same]; exact handle⟩
                rw [if_neg early, if_neg late]
                obtain rfl | ⟨rest', rfl⟩ := cut
                · exact .of_values below _
                · have shorter : rest'.length < len := by
                    have total := congrArg List.length whole
                    rw [List.length_append, List.length_cons, List.length_cons] at total
                    rw [List.length_cons] at hlen
                    omega
                  exact ih rest'.length shorter ((extend.after _).after _) ((properE.after _).after _)
                    ((properF.after _).after _) rest' params rfl

end Extends

/-! ## Trees -/

/-- A router that serves one method from the tree. -/
def RawTree.router (tree : RawTree Ctrl) (m : HttpMethod) : Router Ctrl :=
  { trees := [(m, buildChild tree.root)] }

theorem router_forward (pcre : Pcre) {tree : RawTree Ctrl} (wellFormed : tree.WellFormed)
    (m : HttpMethod) (path : Str) (params : Params) :
    (((tree.router m).forward pcre m path params).ctrl,
      ((tree.router m).forward pcre m path params).params) = find pcre tree.entries path params := by
  have step : (tree.router m).forward pcre m path params =
      forwardLoop pcre tree.root path params := by
    simp [Router.forward, RawTree.router, buildChild_eq]
  rw [step]
  exact forwardLoop_tree wellFormed path params

theorem extends_addRoute {tree : RawTree Ctrl} (wellFormed : tree.WellFormed) (path : Str)
    (ctrl : Ctrl) : Extends ctrl tree.entries (tree.addRoute pcre path ctrl).1.entries := by
  refine ⟨entries_subset_addRoute wellFormed path ctrl, ?_⟩
  intro e stored
  cases parsed : parsePathSegment pcre path with
  | error log =>
    rw [addRoute_unparsed parsed] at stored
    exact Or.inl stored
  | ok p =>
    rcases (addRoute_spec wellFormed parsed ctrl).2 with ⟨-, -, table⟩ | ⟨log, -, -, table⟩
    · rw [table] at stored
      rcases stored with rfl | old
      · exact Or.inr rfl
      · exact Or.inl old
    · rw [table] at stored
      exact Or.inl stored

/-- After a call of `addRoute` every request is answered as before, with the same bindings, or by the
controller of the call. -/
theorem extension_keeps_service (pcre : Pcre) {tree : RawTree Ctrl} (reachable : tree.Reachable pcre)
    (path : Str) (ctrl : Ctrl) (m : HttpMethod) (p : Str) (params : Params) :
    let r := (tree.router m).forward pcre m p params
    let r' := ((tree.addRoute pcre path ctrl).1.router m).forward pcre m p params
    (∀ c, r.ctrl = some c → (r'.ctrl = some c ∧ r'.params = r.params) ∨ r'.ctrl = some ctrl) ∧
      (r.ctrl = none → r'.ctrl = none ∨ r'.ctrl = some ctrl) := by
  intro r r'
  have before := reachable.wellFormed
  have after : RawTree.WellFormed (tree.addRoute pcre path ctrl).1 := before.addRoute path ctrl
  have kept : Keeps ctrl (find pcre _ p params) (find pcre _ p params) :=
    find_extends (extends_addRoute before path ctrl) before.proper after.proper p params
  rw [← router_forward pcre before m, ← router_forward pcre after m] at kept
  rcases kept with new | ⟨same, bindings⟩
  · exact ⟨fun _ _ => Or.inr new, fun _ => Or.inr new⟩
  · constructor
    · intro c answer
      refine Or.inl ⟨same.trans answer, bindings ?_⟩
      exact Option.isSome_of_eq_some answer
    · intro silent
      exact Or.inl (same.trans silent)

/-- A parameter behind a static route, and a request that both could answer. -/
theorem extension_keeps_foo :
    let tree := (RawTree.addRoute anyPcre ({} : RawTree ℕ) "/foo/".toList 1).1
    let r := (tree.router .GET).forward anyPcre .GET "/foo/".toList []
    let r' := ((tree.addRoute anyPcre "/foo/\x7b:id\x7d".toList 2).1.router .GET).forward anyPcre .GET
      "/foo/".toList []
    (r'.ctrl = some 1 ∧ r'.params = r.params) ∨ r'.ctrl = some 2 :=
  (extension_keeps_service anyPcre (.addRoute "/foo/".toList 1 .empty) "/foo/\x7b:id\x7d".toList 2 .GET
    "/foo/".toList []).1 1 (by decide +kernel)

/-! ## Refused calls -/

/-- A refused call leaves the table alone, whatever nodes it has split. -/
theorem entries_refused {tree : RawTree Ctrl} (wellFormed : tree.WellFormed) {path : Str} {ctrl : Ctrl}
    (refused : (tree.addRoute pcre path ctrl).2 ≠ .accepted) :
    (tree.addRoute pcre path ctrl).1.entries = tree.entries := by
  cases parsed : parsePathSegment pcre path with
  | error log => rw [addRoute_unparsed parsed]
  | ok p =>
    rcases (addRoute_spec wellFormed parsed ctrl).2 with ⟨accepted, -, -⟩ | ⟨log, -, -, table⟩
    · exact absurd accepted refused
    · exact table

/-- A refused call of `addRoute` changes the answer to no request, and no binding. -/
theorem refusal_keeps_service (pcre : Pcre) {tree : RawTree Ctrl} (reachable : tree.Reachable pcre)
    (path : Str) (ctrl : Ctrl) (refused : (tree.addRoute pcre path ctrl).2 ≠ .accepted)
    (m : HttpMethod) (p : Str) (params : Params) :
    let r := (tree.router m).forward pcre m p params
    let r' := ((tree.addRoute pcre path ctrl).1.router m).forward pcre m p params
    r'.ctrl = r.ctrl ∧ r'.params = r.params := by
  intro r r'
  have before := reachable.wellFormed
  have after : RawTree.WellFormed (tree.addRoute pcre path ctrl).1 := before.addRoute path ctrl
  have same : (r'.ctrl, r'.params) = (r.ctrl, r.params) := by
    rw [router_forward pcre after m, router_forward pcre before m, entries_refused before refused]
  exact Prod.mk.inj same

/-- The refused route splits the node of the first one in front of its parameter. -/
theorem refusal_keeps_foo :
    let tree := (RawTree.addRoute anyPcre ({} : RawTree ℕ) "/foo".toList 1).1
    let r := (tree.router .GET).forward anyPcre .GET "/foo".toList []
    let r' := ((tree.addRoute anyPcre "/f\x7b:id\x7d".toList 2).1.router .GET).forward anyPcre .GET
      "/foo".toList []
    r'.ctrl = r.ctrl ∧ r'.params = r.params :=
  refusal_keeps_service anyPcre (.addRoute "/foo".toList 1 .empty) "/f\x7b:id\x7d".toList 2
    (by decide +kernel) .GET "/foo".toList []

end Cppmhd
