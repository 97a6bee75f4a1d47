import Cppmhd.Router.Walk

/-!
# Lookup in a table

`find` looks a request up in a table of routes.  On a valid tree `forward` returns what `find`
returns on the table of the tree, with the same bindings (`forwardLoop_find`), so neither depends on
how the nodes are split.  Only the redirect flag does.
-/

open Words Table

namespace Cppmhd

variable {Ctrl : Type} {pcre : Pcre}

/-- The segment of a parameter with this metadata. -/
def Wild.bind (pcre : Pcre) (w : Wild) (segment : Str) (params : Params) : Option Params :=
  if segment = [] then
    some (if w.re.matches pcre [] then params.emplace w.name segment else params)
  else if w.re.matches pcre segment then some (params.emplace w.name segment)
  else none

theorem bindParam_eq (w : RouterNode Ctrl) (segment : Str) (params : Params) :
    bindParam pcre w segment params = w.wild.bind pcre segment params := rfl

/-- The lookup at the end of the request. -/
noncomputable def findEnd (pcre : Pcre) (E : Table Sym Ctrl) (params : Params) :
    Option Ctrl × Params :=
  match valueAt E, wildOf E with
  | some c, _ => (some c, params)
  | none, none => (none, params)
  | none, some w =>
    if w.type = .CATCH_ALL ∨ w.re.matches pcre [] then
      (valueAt (after (.wild w) E), params.emplace w.name [])
    else (none, params)

/-- The lookup of a request in a table of routes. -/
noncomputable def find (pcre : Pcre) (E : Table Sym Ctrl) (path : Str) (params : Params) :
    Option Ctrl × Params :=
  match path with
  | [] => findEnd pcre E params
  | x :: t =>
    match wildOf E with
    | none => find pcre (after (.lit x) E) t params
    | some w =>
      let below := after (.wild w) E
      if w.type = .CATCH_ALL then (valueAt below, params.emplace w.name (x :: t))
      else
        let slash := findUntilSlash (x :: t)
        match w.bind pcre ((x :: t).take slash) params with
        | none => (none, params)
        | some params =>
          if slash = 0 ∧ (valueAt below).isSome then (valueAt below, params)
          else
            match _h : (x :: t).drop slash with
            | [] => (valueAt below, params)
            | y :: rest => find pcre (after (.lit y) below) rest params
termination_by path.length
decreasing_by
  · simp
  · have shorter := congrArg List.length _h
    rw [List.length_drop, List.length_cons, List.length_cons] at shorter
    rw [List.length_cons]
    omega

/-! ## Equations -/

theorem findEnd_value {E : Table Sym Ctrl} {c : Ctrl} (value : valueAt E = some c)
    (params : Params) : findEnd pcre E params = (some c, params) := by
  rw [findEnd, value]

theorem findEnd_none {E : Table Sym Ctrl} (value : valueAt E = none) (plain : wildOf E = none)
    (params : Params) : findEnd pcre E params = (none, params) := by
  rw [findEnd, value, plain]

theorem findEnd_wild {E : Table Sym Ctrl} {w : Wild} (value : valueAt E = none)
    (wild : wildOf E = some w) (params : Params) :
    findEnd pcre E params =
      if w.type = .CATCH_ALL ∨ w.re.matches pcre [] then
        (valueAt (after (.wild w) E), params.emplace w.name [])
      else (none, params) := by
  rw [findEnd, value, wild]

theorem find_nil (E : Table Sym Ctrl) (params : Params) :
    find pcre E [] params = findEnd pcre E params := by
  rw [find]

theorem find_plain {E : Table Sym Ctrl} (plain : wildOf E = none) (x : Char) (t : Str)
    (params : Params) : find pcre E (x :: t) params = find pcre (after (.lit x) E) t params := by
  rw [find, plain]

theorem find_catchAll {E : Table Sym Ctrl} {w : Wild} (wild : wildOf E = some w)
    (isCatchAll : w.type = .CATCH_ALL) (x : Char) (t : Str) (params : Params) :
    find pcre E (x :: t) params =
      (valueAt (after (.wild w) E), params.emplace w.name (x :: t)) := by
  rw [find, wild]
  exact if_pos isCatchAll

section Param

variable {E : Table Sym Ctrl} {w : Wild} (wild : wildOf E = some w) (isParam : w.type = .PARAM)
  {seg rest : Str} (free : '/' ∉ seg) {params params' : Params}

include wild isParam free

theorem find_param (ends : rest = [] ∨ ∃ rest', rest = '/' :: rest')
    (nonempty : seg ++ rest ≠ []) :
    find pcre E (seg ++ rest) params =
      match w.bind pcre seg params with
      | none => (none, params)
      | some params =>
        if seg = [] ∧ (valueAt (after (.wild w) E)).isSome then
          (valueAt (after (.wild w) E), params)
        else
          match rest with
          | [] => (valueAt (after (.wild w) E), params)
          | y :: rest => find pcre (after (.lit y) (after (.wild w) E)) rest params := by
  obtain ⟨x, t, whole⟩ := List.exists_cons_of_ne_nil nonempty
  have cut : findUntilSlash (seg ++ rest) = seg.length := findUntilSlash_append free ends
  have slash : findUntilSlash (x :: t) = seg.length := whole ▸ cut
  have notCatchAll : w.type ≠ .CATCH_ALL := by
    rw [isParam]
    decide
  have zero : seg.length = 0 ↔ seg = [] := List.length_eq_zero_iff
  rw [whole, find, wild]
  simp only [notCatchAll, if_false, slash, zero]
  rw [← whole, List.take_left]
  cases w.bind pcre seg params with
  | none => rfl
  | some params =>
    dsimp only
    split
    · rfl
    · split
      · next past =>
        rw [cut, List.drop_left] at past
        subst past
        rfl
      · next y rest' more =>
        rw [cut, List.drop_left] at more
        subst more
        rfl

end Param

theorem find_empty (path : Str) (params : Params) :
    find pcre (∅ : Table Sym Ctrl) path params = (none, params) := by
  induction path with
  | nil => rw [find_nil, findEnd_none valueAt_empty wildOf_empty]
  | cons x t ih => rw [find_plain wildOf_empty, after_empty, ih]

theorem wildOf_lits (c : Char) (s : Str) (E : Table Sym Ctrl) :
    wildOf (prepend (lits (c :: s)) E) = none := by
  apply wildOf_eq_none
  rintro w π b ⟨ρ, head, -⟩
  simp at head

theorem find_lits (s : Str) (E : Table Sym Ctrl) (t : Str) (params : Params) :
    find pcre (prepend (lits s) E) (s ++ t) params = find pcre E t params := by
  induction s with
  | nil => simp
  | cons c s ih =>
    rw [List.cons_append, find_plain (wildOf_lits c s E), lits_cons, after_prepend_cons, ih]

/-- Nothing is found where the request does not spell the text. -/
theorem find_lits_mismatch {s : Str} (E : Table Sym Ctrl) {path : Str} (differs : ¬ s <+: path)
    (params : Params) : find pcre (prepend (lits s) E) path params = (none, params) := by
  induction s generalizing path with
  | nil => exact absurd List.nil_prefix differs
  | cons c s ih =>
    cases path with
    | nil =>
      have value : valueAt (prepend (lits (c :: s)) E) = none := by
        apply valueAt_eq_none
        rintro b ⟨ρ, head, -⟩
        simp at head
      rw [find_nil, findEnd_none value (wildOf_lits c s E)]
    | cons x t =>
      rw [find_plain (wildOf_lits c s E)]
      by_cases same : x = c
      · subst same
        rw [lits_cons, after_prepend_cons]
        apply ih
        intro begins
        exact differs (List.cons_prefix_cons.mpr ⟨rfl, begins⟩)
      · have other : Sym.lit x ≠ .lit c := by simpa using same
        rw [lits_cons, after_prepend_cons_of_ne other, find_empty]

/-! ## The table of a valid node -/

section Node

variable {n w : RawNode Ctrl}

theorem Valid.valueAt_body (valid : n.Valid) : valueAt n.body = n.handle := by
  obtain ⟨E, others, body⟩ := valid.exists_others
  have same : n.body = own n.handle ∪ E := body n.handle
  rw [same, valueAt_own_union n.handle others]

theorem Valid.wildOf_plain (valid : n.Valid) (plain : n.wildchild = false) :
    wildOf n.body = none := by
  obtain ⟨-, -, -, below⟩ := Valid.of_plain valid plain
  apply wildOf_eq_none
  rw [body_of_not_wild plain]
  rintro w π b (stored | stored)
  · exact List.cons_ne_nil _ _ stored.1
  · obtain ⟨c, member, stored⟩ := mem_childEntries.mp stored
    obtain ⟨y, ρ, -, -, head⟩ := (below c member).entry_head stored
    simp at head

/-- The routes of a plain node that begin with the first character of a child are the child's. -/
theorem Valid.after_child (valid : n.Valid) (plain : n.wildchild = false) {c : RawNode Ctrl}
    (member : c ∈ n.children) {x : Char} (head : c.path.head? = some x) :
    after (.lit x) n.body = after (.lit x) c.entries := by
  obtain ⟨-, -, -, below⟩ := Valid.of_plain valid plain
  rw [body_of_not_wild plain, after_union, after_own, Set.empty_union]
  apply Set.Subset.antisymm
  · intro e stored
    obtain ⟨d, hd, stored⟩ := mem_childEntries.mp stored
    obtain ⟨y, ρ, headD, -, same⟩ := (below d hd).entry_head stored
    rw [List.cons.injEq, Sym.lit.injEq] at same
    obtain ⟨rfl, -⟩ := same
    rw [Valid.child_unique valid plain member hd (head.trans headD.symm)]
    exact stored
  · intro e stored
    exact mem_childEntries.mpr ⟨c, member, stored⟩

theorem Valid.after_noChild (valid : n.Valid) (plain : n.wildchild = false) {x : Char}
    (absent : ∀ c ∈ n.children, c.path.head? ≠ some x) : after (.lit x) n.body = ∅ := by
  obtain ⟨-, -, -, below⟩ := Valid.of_plain valid plain
  rw [body_of_not_wild plain]
  exact ((avoids_own x n.handle).union (avoids_children below absent)).after_eq

/-- The wildcard child of a valid node is valid. -/
theorem Valid.wildValid (valid : n.Valid) (wild : n.wildchild = true) (only : n.children = [w]) :
    w.WildValid := by
  cases valid with
  | branch path plain => exact absurd (wild.symm.trans plain) (by decide)
  | param path wild' type indices only' isParam wildPath plain leaf single slash below =>
    rw [only, List.cons.injEq] at only'
    obtain ⟨rfl, -⟩ := only'
    exact .param isParam wildPath plain leaf single slash below
  | catchAll path wild' type indices only' isCatchAll wildPath plain leaf handle =>
    rw [only, List.cons.injEq] at only'
    obtain ⟨rfl, -⟩ := only'
    exact .catchAll isCatchAll wildPath plain leaf handle

theorem Valid.only_child (valid : n.Valid) (wild : n.wildchild = true) :
    ∃ w, n.children = [w] := by
  cases valid with
  | branch path plain => exact absurd (wild.symm.trans plain) (by decide)
  | param path wild' type indices only | catchAll path wild' type indices only => exact ⟨_, only⟩

theorem Valid.wildOf_wild (valid : n.Valid) (wild : n.wildchild = true) (only : n.children = [w]) :
    wildOf n.body = some w.wild := by
  rw [body_of_wild wild only]
  exact wildOf_prepend n.handle (Valid.wildValid valid wild only).exists_entry

theorem after_wild_body (wild : n.wildchild = true) (only : n.children = [w]) :
    after (.wild w.wild) n.body = w.wildBody := by
  rw [body_of_wild wild only, after_wild_prepend]

theorem WildValid.below (valid : w.WildValid) : ∀ c ∈ w.children, c.Valid := by
  cases valid with
  | param isParam wildPath plain leaf single slash below => exact below
  | catchAll isCatchAll wildPath plain leaf handle =>
    intro c member
    rw [leaf] at member
    exact absurd member List.not_mem_nil

theorem WildValid.valueAt_wildBody (valid : w.WildValid) : valueAt w.wildBody = w.handle :=
  valueAt_own_union w.handle (childEntries_ne_nil (WildValid.below valid))

end Node

/-! ## `forward` is a lookup in the table -/

/-- The lookup in the table of the cursor's node. -/
noncomputable def Cursor.find (pcre : Pcre) (s : Cursor Ctrl) : Option Ctrl × Params :=
  Cppmhd.find pcre s.node.entries s.path s.params

theorem find_entries (n : RawNode Ctrl) (t : Str) (params : Params) :
    find pcre n.entries (n.path ++ t) params = find pcre n.body t params := by
  rw [RawNode.entries_eq, find_lits]

theorem find_descends {s s' : Cursor Ctrl} (step : Descends pcre s s') (valid : s.node.Valid) :
    s.find pcre = s'.find pcre := by
  cases step with
  | @child n c x t params plain member head =>
    have child := (Valid.of_plain valid plain).2.2.2 c member
    have plainChild : wildOf c.entries = none := by
      apply wildOf_eq_none
      intro w π b stored
      obtain ⟨y, ρ, -, -, same⟩ := child.entry_head stored
      simp at same
    show find pcre n.entries (n.path ++ x :: t) params = find pcre c.entries (x :: t) params
    rw [find_entries, find_plain (Valid.wildOf_plain valid plain), find_plain plainChild,
      Valid.after_child valid plain member head]
  | @param n w c seg rest params params' wild only isParam free bound goes next =>
    have wildValid := Valid.wildValid valid wild only
    have member : c ∈ w.children := next ▸ List.mem_singleton_self c
    have plainChild : wildOf c.entries = none := by
      apply wildOf_eq_none
      intro w' π b stored
      obtain ⟨y, ρ, -, -, same⟩ := (WildValid.below wildValid c member).entry_head stored
      simp at same
    have below : after (.lit '/') w.wildBody = after (.lit '/') c.entries := by
      rw [RawNode.wildBody, after_union, after_own, next, childEntries_cons, childEntries_nil,
        Set.union_empty, Set.empty_union]
    rw [bindParam_eq] at bound
    show find pcre n.entries (n.path ++ (seg ++ '/' :: rest)) params =
      find pcre c.entries ('/' :: rest) params'
    rw [find_entries, find_param (Valid.wildOf_wild valid wild only) isParam free
      (Or.inr ⟨rest, rfl⟩) (by simp), bound, after_wild_body wild only,
      WildValid.valueAt_wildBody wildValid, find_plain plainChild]
    simp only [if_neg goes, below]

theorem findEnd_body {n : RawNode Ctrl} (valid : n.Valid) (path : Str) (params : Params) :
    findEnd pcre n.body params =
      ((exactMatch pcre n path params).ctrl, (exactMatch pcre n path params).params) := by
  have value := Valid.valueAt_body valid
  cases handle : n.handle with
  | some c =>
    rw [findEnd_value (value.trans handle), exactMatch_handle pcre (by simp [handle]), handle]
  | none =>
    have vacant := value.trans handle
    cases wild : n.wildchild with
    | false =>
      rw [findEnd_none vacant (Valid.wildOf_plain valid wild),
        exactMatch_unanswered pcre handle (by simp [wild]) (by simp [wild])]
      split <;> rfl
    | true =>
      obtain ⟨w, only⟩ := Valid.only_child valid wild
      have child := Valid.wildValid valid wild only
      have kind : w.type = .CATCH_ALL ∨ w.type = .PARAM := by
        cases child with
        | param isParam => exact Or.inr isParam
        | catchAll isCatchAll => exact Or.inl isCatchAll
      rw [findEnd_wild vacant (Valid.wildOf_wild valid wild only), after_wild_body wild only,
        WildValid.valueAt_wildBody child]
      by_cases answers : w.AnswersEmpty pcre
      · rw [exactMatch_answered pcre handle wild only answers]
        exact if_pos (answers.imp id And.right)
      · have quiet : ¬ (w.wild.type = .CATCH_ALL ∨ w.wild.re.matches pcre [] = true) := by
          rintro (h | h)
          · exact answers (Or.inl h)
          · rcases kind with isCatchAll | isParam
            · exact answers (Or.inl isCatchAll)
            · exact answers (Or.inr ⟨isParam, h⟩)
        rw [if_neg quiet, exactMatch_unanswered pcre handle ?_ fun _ => ⟨w, only⟩]
        · split <;> rfl
        · intro w' _ only'
          rw [only, List.cons.injEq] at only'
          exact only'.1 ▸ answers

theorem find_stops {s : Cursor Ctrl} {r : Forwarded Ctrl} (stop : Stops pcre s r)
    (valid : s.node.Valid) : s.find pcre = (r.ctrl, r.params) := by
  cases stop with
  | @mismatch n path params differs =>
    show find pcre n.entries path params = (none, params)
    rw [RawNode.entries_eq, find_lits_mismatch _ differs]
  | @exact n params =>
    have whole : find pcre n.entries (n.path ++ []) params = _ := find_entries n [] params
    rw [List.append_nil, find_nil] at whole
    show find pcre n.entries n.path params = _
    rw [whole, findEnd_body valid n.path]
  | @noChild n x t params plain absent =>
    show find pcre n.entries (n.path ++ x :: t) params = (none, params)
    rw [find_entries, find_plain (Valid.wildOf_plain valid plain),
      Valid.after_noChild valid plain absent, find_empty]
  | @catchAll n w x t params wild only isCatchAll =>
    have wildValid := Valid.wildValid valid wild only
    show find pcre n.entries (n.path ++ x :: t) params = (w.handle, params.emplace w.name (x :: t))
    rw [find_entries, find_catchAll (Valid.wildOf_wild valid wild only) isCatchAll,
      after_wild_body wild only, WildValid.valueAt_wildBody wildValid]
    rfl
  | @rejected n w seg rest params wild only isParam free ends bound =>
    have nonempty : seg ++ rest ≠ [] := by
      intro empty
      rw [(List.append_eq_nil_iff.mp empty).1, bindParam, if_pos rfl] at bound
      exact absurd bound (by simp)
    rw [bindParam_eq] at bound
    show find pcre n.entries (n.path ++ (seg ++ rest)) params = (none, params)
    rw [find_entries, find_param (Valid.wildOf_wild valid wild only) isParam free ends nonempty,
      bound]
  | @emptySegment n w rest params params' wild only isParam bound handle =>
    have wildValid := Valid.wildValid valid wild only
    rw [bindParam_eq] at bound
    show find pcre n.entries (n.path ++ ([] ++ '/' :: rest)) params = (w.handle, params')
    rw [find_entries, find_param (Valid.wildOf_wild valid wild only) isParam List.not_mem_nil
      (Or.inr ⟨rest, rfl⟩) (by simp), bound, after_wild_body wild only,
      WildValid.valueAt_wildBody wildValid]
    exact if_pos ⟨rfl, handle⟩
  | @paramEnd n w seg params params' wild only isParam free nonempty bound =>
    have wildValid := Valid.wildValid valid wild only
    have whole : n.path ++ seg = n.path ++ (seg ++ []) := by rw [List.append_nil]
    rw [bindParam_eq] at bound
    show find pcre n.entries (n.path ++ seg) params = _
    rw [whole, find_entries, find_param (Valid.wildOf_wild valid wild only) isParam free
      (Or.inl rfl) (by simpa), bound, after_wild_body wild only,
      WildValid.valueAt_wildBody wildValid]
    simp only [nonempty, false_and, if_false]
    cases handle : w.handle with
    | none => simp
    | some c => simp
  | @paramLeaf n w seg rest params params' wild only isParam free bound goes leaf =>
    have wildValid := Valid.wildValid valid wild only
    have below : after (.lit '/') w.wildBody = ∅ := by
      rw [RawNode.wildBody, after_union, after_own, leaf, childEntries_nil, after_empty,
        Set.union_empty]
    rw [bindParam_eq] at bound
    show find pcre n.entries (n.path ++ (seg ++ '/' :: rest)) params = (none, params')
    rw [find_entries, find_param (Valid.wildOf_wild valid wild only) isParam free
      (Or.inr ⟨rest, rfl⟩) (by simp), bound, after_wild_body wild only,
      WildValid.valueAt_wildBody wildValid]
    simp only [if_neg goes, below, find_empty]

/-- `forward` on a valid tree is the lookup in its table. -/
theorem forwardLoop_find {n : RouterNode Ctrl} (valid : n.Valid) (path : Str) (params : Params) :
    ((forwardLoop pcre n path params).ctrl, (forwardLoop pcre n path params).params) =
      find pcre n.entries path params := by
  obtain ⟨s', r, walk, stop⟩ := exists_walk pcre valid path params
  rw [forwardLoop_of_walk valid walk stop]
  have along : ∀ s'', Walks pcre ⟨n, path, params⟩ s'' →
      Cursor.find pcre ⟨n, path, params⟩ = s''.find pcre := by
    intro s'' walk
    induction walk with
    | refl => rfl
    | tail walk step ih => exact ih.trans (find_descends step (Walks.valid walk valid))
  rw [← find_stops stop (Walks.valid walk valid), ← along s' walk]
  rfl

/-- The same for the trees that `addRoute` builds, the untouched one included. -/
theorem forwardLoop_tree {tree : RawTree Ctrl} (wellFormed : tree.WellFormed) (path : Str)
    (params : Params) :
    ((forwardLoop pcre tree.root path params).ctrl,
      (forwardLoop pcre tree.root path params).params) = find pcre tree.entries path params := by
  rcases wellFormed with rfl | ⟨valid, -⟩
  · rw [forwardLoop_empty, entries_empty, find_empty]
  · exact forwardLoop_find valid path params

end Cppmhd
