import Cppmhd.Router.WholeMatch

/-!
# The names of a route's parameters

A wildcard has the name that its segment gives, or else the running number of the unnamed wildcards.
Nothing compares the names with each other, and `forward` keeps the first value of a name.
`names_distinct_iff` says when the names of a route are distinct, and that no segment of a request is
lost then.
-/

open Words Table

namespace Cppmhd

variable {Ctrl : Type} {pcre : Pcre}

/-! ## Given names and numbers -/

/-- The name that a segment gives to its wildcard, empty if it gives none. -/
def givenName (part : Str) : Option Str :=
  if normalStatic part then none
  else
    match matchCatchAll part with
    | some (_, name) => some name
    | none => (matchParam part).map fun g => g.2.2

/-- The given names of the wildcards of a route. -/
def givenNames (path : Str) : List Str := (pieces '/' path).filterMap givenName

/-- The names of wildcards, with numbers from `i` on for the unnamed ones. -/
def assignNames : ℕ → List Str → List Str
  | _, [] => []
  | i, given :: gs => (nameFrom i given).1 :: assignNames (nameFrom i given).2 gs

/-- The given names differ from each other and from the numbers of the unnamed wildcards. -/
def NamesApart (i : ℕ) (gs : List Str) : Prop :=
  (gs.filter (· ≠ [])).Nodup ∧ ∀ j, i ≤ j → j < i + gs.count [] → Nat.toDigits 10 j ∉ gs

theorem Read.named {i i' : ℕ} {part : Str} {piece : Piece} (read : Read pcre i part piece i') :
    piece.param.map Param.name = (givenName part).map (fun given => (nameFrom i given).1) ∧
      i' = ((givenName part).map fun given => (nameFrom i given).2).getD i := by
  cases read with
  | static static => simp [givenName, static, Piece.static]
  | catchAll other found => simp [givenName, other, found, Piece.wild]
  | param other noCatchAll found compiled =>
    simp [givenName, other, noCatchAll, found, Piece.wild]

theorem Reads.names {i : ℕ} {parts : List Str} {ps : List Piece} (reads : Reads pcre i parts ps) :
    (paramsOf ps).map Param.name = assignNames i (parts.filterMap givenName) := by
  induction reads with
  | nil => rfl
  | @cons i i' part parts piece ps read rest ih =>
    obtain ⟨name, next⟩ := read.named
    rw [paramsOf_cons, List.map_append, ih, List.filterMap_cons]
    cases given : givenName part with
    | none =>
      rw [given, Option.map_none, Option.map_eq_none_iff] at name
      rw [given, Option.map_none, Option.getD_none] at next
      rw [name, next]
      rfl
    | some g =>
      rw [given, Option.map_some, Option.map_eq_some_iff] at name
      rw [given, Option.map_some, Option.getD_some] at next
      obtain ⟨m, queued, named⟩ := name
      rw [queued, next]
      simp only [Option.toList_some, List.map_cons, named]
      rfl

theorem names_of_parsed {path : Str} {p : PathParser} (parsed : parsePathSegment pcre path = .ok p) :
    p.params.map Param.name = assignNames 1 (givenNames path) := by
  obtain ⟨-, ps, reads, rfl⟩ := parsePathSegment_ok_iff.mp parsed
  exact reads.names

theorem toDigits_injective {i j : ℕ} (same : Nat.toDigits 10 i = Nat.toDigits 10 j) : i = j := by
  rw [← Nat.ofDigitChars_ten_toDigits (n := i), same, Nat.ofDigitChars_ten_toDigits]

theorem mem_assignNames {i : ℕ} {gs : List Str} {name : Str} :
    name ∈ assignNames i gs ↔
      (name ≠ [] ∧ name ∈ gs) ∨ ∃ j, i ≤ j ∧ j < i + gs.count [] ∧ name = Nat.toDigits 10 j := by
  induction gs generalizing i with
  | nil =>
    simp only [assignNames, List.not_mem_nil, and_false, false_or, List.count_nil, false_iff]
    rintro ⟨j, low, high, -⟩
    omega
  | cons given gs ih =>
    rw [assignNames, List.mem_cons, ih]
    by_cases unnamed : given = []
    · subst unnamed
      have numbered : nameFrom i [] = (Nat.toDigits 10 i, i + 1) := rfl
      rw [numbered, List.count_cons_self, List.mem_cons]
      constructor
      · rintro (rfl | ⟨nonempty, member⟩ | ⟨j, low, high, rfl⟩)
        · exact Or.inr ⟨i, le_refl i, by omega, rfl⟩
        · exact Or.inl ⟨nonempty, Or.inr member⟩
        · exact Or.inr ⟨j, by omega, by omega, rfl⟩
      · rintro (⟨nonempty, empty | member⟩ | ⟨j, low, high, rfl⟩)
        · exact absurd empty nonempty
        · exact Or.inr (Or.inl ⟨nonempty, member⟩)
        · by_cases first : j = i
          · exact Or.inl (congrArg (Nat.toDigits 10) first)
          · exact Or.inr (Or.inr ⟨j, by omega, by omega, rfl⟩)
    · rw [nameFrom_of_ne_nil i unnamed, List.count_cons_of_ne unnamed, List.mem_cons]
      constructor
      · rintro (rfl | ⟨nonempty, member⟩ | number)
        · exact Or.inl ⟨unnamed, Or.inl rfl⟩
        · exact Or.inl ⟨nonempty, Or.inr member⟩
        · exact Or.inr number
      · rintro (⟨nonempty, rfl | member⟩ | number)
        · exact Or.inl rfl
        · exact Or.inr (Or.inl ⟨nonempty, member⟩)
        · exact Or.inr (Or.inr number)

/-- By induction on the wildcards: the first name is not among the later ones. -/
theorem nodup_assignNames_iff {i : ℕ} {gs : List Str} :
    (assignNames i gs).Nodup ↔ NamesApart i gs := by
  unfold NamesApart
  induction gs generalizing i with
  | nil => simp [assignNames]
  | cons given gs ih =>
    rw [assignNames, List.nodup_cons, ih, mem_assignNames, not_or, not_exists]
    by_cases unnamed : given = []
    · subst unnamed
      have numbered : nameFrom i [] = (Nat.toDigits 10 i, i + 1) := rfl
      have dropped : ([] :: gs).filter (· ≠ []) = gs.filter (· ≠ []) := List.filter_cons_of_neg (by simp)
      rw [numbered, List.count_cons_self, dropped]
      constructor
      · rintro ⟨⟨fresh, -⟩, distinct, apart⟩
        refine ⟨distinct, fun j low high member => ?_⟩
        have nonempty : Nat.toDigits 10 j ≠ [] := Nat.toDigits_ne_nil
        rcases List.mem_cons.mp member with empty | later
        · exact nonempty empty
        · by_cases first : j = i
          · subst first
            exact fresh ⟨nonempty, later⟩
          · exact apart j (by omega) (by omega) later
      · rintro ⟨distinct, apart⟩
        refine ⟨⟨?_, ?_⟩, distinct, fun j low high member => ?_⟩
        · rintro ⟨-, member⟩
          exact apart i (le_refl i) (by omega) (List.mem_cons_of_mem _ member)
        · rintro j ⟨low, -, same⟩
          have equal := toDigits_injective same
          omega
        · exact apart j (by omega) (by omega) (List.mem_cons_of_mem _ member)
    · have kept : (given :: gs).filter (· ≠ []) = given :: gs.filter (· ≠ []) :=
        List.filter_cons_of_pos (by simpa using unnamed)
      have member_iff : given ∈ gs.filter (· ≠ []) ↔ given ≠ [] ∧ given ∈ gs := by
        simp [unnamed]
      rw [nameFrom_of_ne_nil i unnamed, List.count_cons_of_ne unnamed, kept, List.nodup_cons, member_iff]
      constructor
      · rintro ⟨⟨fresh, other⟩, distinct, apart⟩
        refine ⟨⟨fresh, distinct⟩, fun j low high member => ?_⟩
        rcases List.mem_cons.mp member with same | later
        · exact other j ⟨low, high, same.symm⟩
        · exact apart j low high later
      · rintro ⟨⟨fresh, distinct⟩, apart⟩
        refine ⟨⟨fresh, ?_⟩, distinct, fun j low high member => ?_⟩
        · rintro j ⟨low, high, rfl⟩
          exact apart j low high List.mem_cons_self
        · exact apart j low high (List.mem_cons_of_mem _ member)

/-! ## Segments of a request -/

/-- The wildcards of a tree path with their segments of the request. -/
def segmentsAt : Pattern → Str → List (Wild × Str)
  | [], _ => []
  | .lit _ :: π, path => segmentsAt π path.tail
  | .wild w :: π, path =>
    if w.type = .CATCH_ALL then [(w, path)]
    else (w, path.takeWhile (· ≠ '/')) :: segmentsAt π (path.dropWhile (· ≠ '/'))

/-- A parameter is passed over if its segment is empty and its regex rejects that. -/
def Wild.PassedOver (pcre : Pcre) (w : Wild) (seg : Str) : Prop :=
  w.type ≠ .CATCH_ALL ∧ seg = [] ∧ w.re.matches pcre [] = false

instance (w : Wild) (seg : Str) : Decidable (w.PassedOver pcre seg) :=
  inferInstanceAs (Decidable (_ ∧ _))

/-- One binding for each wildcard that is not passed over. -/
def bindingsAt (pcre : Pcre) (π : Pattern) (path : Str) : Params :=
  ((segmentsAt π path).filter fun s => ¬ s.1.PassedOver pcre s.2).map fun s => (s.1.name, s.2)

theorem bindingsAt_cons {w : Wild} {π : Pattern} {seg rest path : Str}
    (segments : segmentsAt (.wild w :: π) path = (w, seg) :: segmentsAt π rest) :
    bindingsAt pcre (.wild w :: π) path =
      (if w.PassedOver pcre seg then [] else [(w.name, seg)]) ++ bindingsAt pcre π rest := by
  unfold bindingsAt
  rw [segments, List.filter_cons]
  by_cases here : w.PassedOver pcre seg
  · simp [here]
  · simp [here]

theorem segmentsAt_param {w : Wild} {π : Pattern} {seg rest : Str} (isParam : w.type = .PARAM)
    (free : '/' ∉ seg) (ends : rest = [] ∨ ∃ rest', rest = '/' :: rest') :
    segmentsAt (.wild w :: π) (seg ++ rest) = (w, seg) :: segmentsAt π rest := by
  obtain ⟨taken, dropped⟩ := span_append rest (all_ne_of_not_mem free) fun c head => by
    rcases ends with rfl | ⟨rest', rfl⟩
    · exact absurd head nofun
    · rw [← Option.some.inj head]
      rfl
  have noCatchAll : w.type ≠ .CATCH_ALL := by
    rw [isParam]
    decide
  rw [segmentsAt, if_neg noCatchAll, taken, dropped]

/-- The rest of a request in front of which a parameter ends. -/
theorem Serves.ends {π : Pattern} {path unread : Str} {bindings : Params}
    (serves : Serves pcre π path bindings unread) (next : π = [] ∨ ∃ ρ, π = .lit '/' :: ρ) :
    path = [] ∨ ∃ rest, path = '/' :: rest := by
  rcases next with rfl | ⟨ρ, rfl⟩
  · cases serves
    exact Or.inl rfl
  · cases serves
    exact Or.inr ⟨_, rfl⟩

/-- What a served request binds, by induction on the tree path. -/
theorem Serves.segments {E : Table Sym Ctrl} (proper : Proper E) {π : Pattern} {c : Ctrl}
    (stored : (π, c) ∈ E) {path unread : Str} {bindings : Params}
    (serves : Serves pcre π path bindings unread) :
    (segmentsAt π path).map Prod.fst = wilds π ∧ bindings = bindingsAt pcre π path := by
  induction serves generalizing E with
  | done => exact ⟨rfl, rfl⟩
  | @lit x π p unread bindings rest ih => exact ih (proper.after (.lit x)) stored
  | @param w π seg p unread bindings isParam free nonempty accepts rest ih =>
    obtain ⟨listed, bound⟩ := ih (proper.after (.wild w)) stored
    have next := Serves.ends rest (proper.here.param_next isParam stored)
    have segments := segmentsAt_param (π := π) isParam free next
    have bound_here : ¬ w.PassedOver pcre seg := fun passed => nonempty passed.2.1
    rw [bindingsAt_cons segments, segments, if_neg bound_here, List.map_cons, listed, bound]
    exact ⟨rfl, rfl⟩
  | @empty w π p unread bindings isParam rest ih =>
    obtain ⟨listed, bound⟩ := ih (proper.after (.wild w)) stored
    have next := Serves.ends rest (proper.here.param_next isParam stored)
    have segments := segmentsAt_param (π := π) isParam List.not_mem_nil next
    rw [List.nil_append] at segments
    rw [bindingsAt_cons segments, segments, List.map_cons, listed, bound]
    cases accepts : w.re.matches pcre [] with
    | true => simp [Wild.PassedOver, accepts]
    | false => simp [Wild.PassedOver, accepts, isParam]
  | @unread w p isParam =>
    have segments := segmentsAt_param (π := []) isParam List.not_mem_nil (Or.inr ⟨p, rfl⟩)
    rw [List.nil_append] at segments
    rw [bindingsAt_cons segments, segments]
    cases accepts : w.re.matches pcre [] with
    | true => simp [Wild.PassedOver, accepts, segmentsAt, bindingsAt, wilds]
    | false => simp [Wild.PassedOver, accepts, isParam, segmentsAt, bindingsAt, wilds]
  | @catchAll w p isCatchAll =>
    simp [segmentsAt, bindingsAt, Wild.PassedOver, isCatchAll, wilds]

theorem names_eq_wilds (π : Pattern) : names π = (wilds π).map Wild.name := by
  induction π with
  | nil => rfl
  | cons s π ih =>
    cases s with
    | lit c => exact ih
    | wild w => exact congrArg (w.name :: ·) ih

/-- The parameters of an accepted route have distinct names if and only if the given ones are apart from
each other and from the numbers.  A request that is served through its own parameters then has one
binding for each of them that is not passed over. -/
theorem names_distinct_iff {path : Str} {p : PathParser} (parsed : parsePathSegment pcre path = .ok p) :
    ((p.params.map Param.name).Nodup ↔ NamesApart 1 (givenNames path)) ∧
      ∀ (tree : RawTree Ctrl) (request : Str) (c : Ctrl), tree.Reachable pcre →
        (forwardLoop pcre tree.root request []).ctrl = some c →
          ∃ π unread, (π, c) ∈ tree.entries ∧
            Serves pcre π request (bindingsAt pcre π request) unread ∧
            (segmentsAt π request).map Prod.fst = wilds π ∧
            (wilds π <+: p.params.map Param.wild → (p.params.map Param.name).Nodup →
              (forwardLoop pcre tree.root request []).params = bindingsAt pcre π request) := by
  refine ⟨by rw [names_of_parsed parsed, nodup_assignNames_iff], ?_⟩
  intro tree request c reachable served
  have wellFormed := reachable.wellFormed
  have lookup := @forwardLoop_tree Ctrl pcre tree wellFormed request []
  rw [served] at lookup
  obtain ⟨π, bindings, unread, stored, serves, bound⟩ := find_sound wellFormed.proper lookup.symm
  obtain ⟨listed, rfl⟩ := serves.segments wellFormed.proper stored
  refine ⟨π, unread, stored, serves, listed, fun own distinct => ?_⟩
  have parts : names π <+: p.params.map Param.name := by
    have named := own.map Wild.name
    rwa [List.map_map, ← names_eq_wilds] at named
  rw [bound, emplaceAll_distinct, List.nil_append]
  rw [List.nil_append]
  exact serves.names_sublist.nodup (parts.sublist.nodup distinct)

/-- A named parameter and one without name. -/
theorem names_distinct_numbered :
    ∃ p, parsePathSegment anyPcre "/\x7b:a\x7d/\x7b\x7d".toList = .ok p ∧
      p.params.map Param.name = ["a".toList, "1".toList] ∧ (p.params.map Param.name).Nodup := by
  have parsed : parsePathSegment anyPcre "/\x7b:a\x7d/\x7b\x7d".toList =
      .ok ⟨[plainParam "a".toList, plainParam "1".toList], "/:/:".toList,
        '/' :: (plainParam "a".toList).format ++ '/' :: (plainParam "1".toList).format⟩ := by
    decide +kernel
  refine ⟨_, parsed, rfl, (@names_distinct_iff ℕ anyPcre _ _ parsed).1.mpr ?_⟩
  have given : givenNames "/\x7b:a\x7d/\x7b\x7d".toList = ["a".toList, []] := by decide +kernel
  rw [given]
  exact ⟨by decide, by decide⟩

/-- A route may repeat a name, and then the second segment is lost.  An empty segment is passed over
where the pattern rejects it. -/
theorem name_repeated :
    (∃ p, parsePathSegment anyPcre "/\x7b:a\x7d/\x7b:a\x7d".toList = .ok p ∧
      ¬ (p.params.map Param.name).Nodup) ∧
    (let tree := (RawTree.addRoute anyPcre ({} : RawTree ℕ) "/\x7b:a\x7d/\x7b:a\x7d".toList 1).1
      let r := forwardLoop anyPcre tree.root "/x/y".toList []
      r.ctrl = some 1 ∧ r.params = [("a".toList, "x".toList)]) ∧
    let tree := (RawTree.addRoute digitPcre ({} : RawTree ℕ) "/a/\x7b\\d+:n\x7d/b".toList 1).1
    let r := forwardLoop digitPcre tree.root "/a//b".toList []
    r.ctrl = some 1 ∧ r.params = [] := by
  refine ⟨⟨⟨[plainParam "a".toList, plainParam "a".toList], "/:/:".toList,
    '/' :: (plainParam "a".toList).format ++ '/' :: (plainParam "a".toList).format⟩, ?_, ?_⟩, ?_, ?_⟩
  · decide +kernel
  · decide
  · exact ⟨by decide +kernel, by decide +kernel⟩
  · exact ⟨by decide +kernel, by decide +kernel⟩

end Cppmhd
