import Cppmhd.Router.Metadata

/-!
# What an insertion consumes

`insertChild` takes a parameter from the queue at every placeholder up to a catch-all; the walk over
existing nodes takes none.  `leftover` is what then stays in the queue (`insertLoop_leftover`), and
`registered_in_full_iff` says when an accepted route has emptied it and is stored as a whole.
-/

open Words Table

namespace Cppmhd

variable {Ctrl : Type}

/-! ## The queue -/

/-- What stays in the queue after a path without any wildcard of the table on it. -/
def leftoverOf : Str → List Param → List Param
  | [], params => params
  | x :: t, params =>
    if x = PARAM_CHAR then
      match params with
      | [] => []
      | p :: params => if p.type = .CATCH_ALL then params else leftoverOf t params
    else leftoverOf t params

/-- What stays in the queue after a path. -/
noncomputable def leftover (E : Table Sym Ctrl) : Str → List Param → List Param
  | [], params => params
  | x :: t, params =>
    if x = PARAM_CHAR then
      match wildOf E with
      | some w => leftover (after (.wild w) E) t params
      | none => leftoverOf (x :: t) params
    else leftover (after (.lit x) E) t params

theorem leftoverOf_lit {x : Char} (literal : x ≠ PARAM_CHAR) (t : Str) (params : List Param) :
    leftoverOf (x :: t) params = leftoverOf t params := by
  simp only [leftoverOf, literal, if_false]

theorem leftoverOf_wild (t : Str) (p : Param) (params : List Param) :
    leftoverOf (PARAM_CHAR :: t) (p :: params) =
      if p.type = .CATCH_ALL then params else leftoverOf t params := by
  simp only [leftoverOf, if_true]

theorem leftoverOf_append {s : Str} (free : PARAM_CHAR ∉ s) (t : Str) (params : List Param) :
    leftoverOf (s ++ t) params = leftoverOf t params := by
  induction s with
  | nil => rfl
  | cons c s ih =>
    rw [List.mem_cons, not_or] at free
    rw [List.cons_append, leftoverOf_lit (Ne.symm free.1), ih free.2]

theorem leftover_lit {x : Char} (literal : x ≠ PARAM_CHAR) (E : Table Sym Ctrl) (t : Str)
    (params : List Param) : leftover E (x :: t) params = leftover (after (.lit x) E) t params := by
  simp only [leftover, literal, if_false]

theorem leftover_wild {E : Table Sym Ctrl} {w : Wild} (wild : wildOf E = some w) (t : Str)
    (params : List Param) :
    leftover E (PARAM_CHAR :: t) params = leftover (after (.wild w) E) t params := by
  simp only [leftover, if_true, wild]

theorem leftover_fresh {E : Table Sym Ctrl} (none : wildOf E = none) (t : Str)
    (params : List Param) :
    leftover E (PARAM_CHAR :: t) params = leftoverOf (PARAM_CHAR :: t) params := by
  simp only [leftover, if_true, none]

theorem leftover_empty (t : Str) (params : List Param) :
    leftover (∅ : Table Sym Ctrl) t params = leftoverOf t params := by
  induction t with
  | nil => rfl
  | cons x t ih =>
    by_cases placeholder : x = PARAM_CHAR
    · subst placeholder
      exact leftover_fresh wildOf_empty t params
    · rw [leftover_lit placeholder, leftoverOf_lit placeholder, after_empty, ih]

theorem leftover_prepend_lits {s : Str} (free : PARAM_CHAR ∉ s) (E : Table Sym Ctrl) (t : Str)
    (params : List Param) :
    leftover (prepend (lits s) E) (s ++ t) params = leftover E t params := by
  induction s with
  | nil => rw [lits_nil, Words.Table.prepend_nil, List.nil_append]
  | cons c s ih =>
    rw [List.mem_cons, not_or] at free
    rw [List.cons_append, leftover_lit (Ne.symm free.1), lits_cons, after_prepend_cons, ih free.2]

/-! ## Insertion -/

/-- `insertChild` consumes the path up to a catch-all. -/
theorem insertChild_leftover (params : List Param) (node : RawNode Ctrl) (t fullPath : Str)
    (ctrl : Ctrl) (accepted : (insertChild node t fullPath ctrl params).verdict = .accepted) :
    (insertChild node t fullPath ctrl params).params = leftoverOf t params := by
  induction params generalizing node t with
  | nil =>
    by_cases wild : PARAM_CHAR ∈ t
    · obtain ⟨pre, rest, rfl, free⟩ := List.eq_append_cons_of_mem wild
      rw [insertChild, findWildcard_append free] at accepted
      cases accepted
    · rw [insertChild_static wild, ← List.append_nil t, leftoverOf_append wild]
      rfl
  | cons p params ih =>
    by_cases wild : PARAM_CHAR ∈ t
    · obtain ⟨pre, rest, rfl, free⟩ := List.eq_append_cons_of_mem wild
      have vacant : node.children = [] := by
        by_contra occupied
        have pos := List.length_pos_iff.mpr occupied
        simp only [insertChild, findWildcard_append free, if_pos pos] at accepted
        cases accepted
      rw [leftoverOf_append free, leftoverOf_wild]
      cases type : p.type with
      | PARAM =>
        rw [if_neg (by decide)]
        cases rest with
        | nil =>
          rw [insertChild_paramEnd fullPath ctrl params vacant free type]
          rfl
        | cons x rest =>
          rw [insertChild_paramNext fullPath ctrl params vacant free type] at accepted ⊢
          exact ih _ _ accepted
      | CATCH_ALL =>
        rw [if_pos rfl, insertChild_catchAll fullPath ctrl params vacant free type]
      | UNKNOWN | ROOT | STATIC =>
        simp only [insertChild, findWildcard_append free, vacant, List.length_nil, lt_irrefl, if_false,
          type] at accepted
        cases accepted
    · rw [insertChild_static wild, ← List.append_nil t, leftoverOf_append wild]
      rfl

/-- The insertion below `n` leaves of the queue what the table of `n` says. -/
def LeaveSpec (ctrl : Ctrl) (n : RawNode Ctrl) : Prop :=
  ∀ (parser : PathParser) (t : Str), Insertable t parser.params → t.head? = n.path.head? →
    (insertLoop n t parser ctrl).verdict = .accepted →
      (insertLoop n t parser ctrl).params = leftover n.entries t parser.params

section Walk

variable {n w : RawNode Ctrl} {parser : PathParser} {ctrl : Ctrl}

theorem leftover_entries (valid : n.Valid) (t : Str) (params : List Param) :
    leftover n.entries (n.path ++ t) params = leftover n.body t params := by
  rw [n.entries_eq, leftover_prepend_lits valid.staticPath.noParam]

theorem setHandle_leftover (n : RawNode Ctrl) (parser : PathParser) (ctrl : Ctrl) :
    (n.setHandle parser ctrl).params = parser.params := by
  unfold RawNode.setHandle
  split <;> rfl

theorem attach_leftover (valid : n.Valid) (plain : n.wildchild = false) {x : Char} {t : Str}
    (absent : ∀ c ∈ n.children, c.path.head? ≠ some x)
    (accepted : (n.attach (x :: t) parser ctrl).verdict = .accepted) :
    (n.attach (x :: t) parser ctrl).params = leftover n.body (x :: t) parser.params := by
  by_cases placeholder : x = PARAM_CHAR
  · subst placeholder
    rw [leftover_fresh (Valid.wildOf_plain valid plain)]
    rw [RawNode.attach, List.head?_cons, if_neg (by simp)] at accepted ⊢
    exact insertChild_leftover _ _ _ _ _ accepted
  · rw [leftover_lit placeholder, Valid.after_noChild valid plain absent, leftover_empty,
      ← leftoverOf_lit placeholder]
    rw [RawNode.attach, List.head?_cons, if_pos (by simpa using placeholder)] at accepted ⊢
    exact insertChild_leftover _ _ _ _ _ accepted

/-- The walk at a node: it ends inside the path, at its end, or goes on behind it. -/
theorem leaveSpec_of_below (valid : n.Valid)
    (behind : ∀ (parser : PathParser) (x : Char) (t : Str), Insertable (x :: t) parser.params →
      (insertLoop n (n.path ++ x :: t) parser ctrl).verdict = .accepted →
        (insertLoop n (n.path ++ x :: t) parser ctrl).params =
          leftover n.body (x :: t) parser.params) :
    LeaveSpec ctrl n := by
  intro parser t ok head accepted
  cases leaves head with
  | behind rest =>
    rw [leftover_entries valid]
    cases rest with
    | nil =>
      rw [List.append_nil, insertLoop_here]
      exact setHandle_leftover n parser ctrl
    | cons x t => exact behind parser x t ok.of_append accepted
  | @inside pre s rest y path nonempty differs length =>
    have split := split_valid valid path nonempty rest
    have kept := leftover_entries split rest parser.params
    rw [split_entries path, split_path] at kept
    rw [kept]
    rw [insertLoop_split n parser ctrl path length] at accepted ⊢
    cases rest with
    | nil =>
      rw [if_pos rfl]
      exact setHandle_leftover _ parser ctrl
    | cons x t =>
      rw [if_neg (List.cons_ne_nil x t)] at accepted ⊢
      exact attach_leftover split rfl (split_absent path _ (Ne.symm differs)) accepted

/-- The walk over the children of a plain node. -/
theorem branch_leftover (valid : n.Valid) (plain : n.wildchild = false)
    (walk : ∀ c ∈ n.children, LeaveSpec ctrl c) {x : Char} {t : Str}
    (ok : Insertable (x :: t) parser.params)
    (accepted : (insertLoop n (n.path ++ x :: t) parser ctrl).verdict = .accepted) :
    (insertLoop n (n.path ++ x :: t) parser ctrl).params = leftover n.body (x :: t) parser.params := by
  obtain ⟨type, indexed, nodup, below⟩ := Valid.of_plain valid plain
  rw [insertLoop_below n parser ctrl plain (by rw [type]; decide)] at accepted ⊢
  rcases insertIndice_cases indexed (x :: t) parser ctrl with
    ⟨none, absent⟩ | ⟨before, c, after, children, head, found⟩
  · rw [none] at accepted ⊢
    exact attach_leftover valid plain absent accepted
  · rw [found] at accepted ⊢
    have member : c ∈ n.children := by
      rw [children]
      exact List.mem_append_right _ List.mem_cons_self
    have literal : x ≠ PARAM_CHAR := (below c member).head_literal head
    rw [leftover_lit literal, Valid.after_child valid plain member head, ← leftover_lit literal]
    exact walk c member parser (x :: t) ok head.symm accepted

/-- The walk through a parameter node. -/
theorem param_leftover (valid : w.WildValid) (isParam : w.type = .PARAM)
    (walk : ∀ c ∈ w.children, LeaveSpec ctrl c) {t : Str}
    (ok : Insertable (PARAM_CHAR :: t) parser.params)
    (accepted : (insertLoop w (PARAM_CHAR :: t) parser ctrl).verdict = .accepted) :
    (insertLoop w (PARAM_CHAR :: t) parser ctrl).params = leftover w.wildBody t parser.params := by
  cases valid with
  | catchAll isCatchAll => exact absurd (isParam.symm.trans isCatchAll) (by decide)
  | param isParam wildPath plain leaf single slash below =>
    have rest : Insertable t parser.params := ok.of_append (s := [PARAM_CHAR])
    have behind : ∀ t, w.path ++ t = PARAM_CHAR :: t := by
      intro t
      rw [wildPath]
      rfl
    cases t with
    | nil =>
      have step := insertLoop_here w parser ctrl
      rw [wildPath] at step
      rw [step]
      exact setHandle_leftover w parser ctrl
    | cons x t =>
      obtain rfl := ok.slash_of_placeholder
      rw [leftover_lit (by decide), RawNode.wildBody]
      cases children : w.children with
      | nil =>
        have step := insertLoop_paramLeaf w parser ctrl (x := '/') (t := t) plain children
        rw [behind] at step
        rw [step, RawNode.attach, List.head?_cons, if_pos (by decide)] at accepted ⊢
        rw [childEntries_nil, Set.union_empty, after_own, leftover_empty,
          ← leftoverOf_lit (x := '/') (by decide)]
        exact insertChild_leftover _ _ _ _ _ accepted
      | cons c others =>
        have only : w.children = [c] := only_of_single single children
        have member : c ∈ w.children := only ▸ List.mem_singleton_self c
        have step := insertLoop_param w parser ctrl (t := t) plain isParam only
        rw [behind] at step
        rw [step] at accepted ⊢
        rw [← children, only, childEntries_cons, childEntries_nil, Set.union_empty, after_union,
          after_own, Set.empty_union, ← leftover_lit (x := '/') (by decide)]
        exact walk c member parser ('/' :: t) rest (slash c member).symm accepted

/-- The walk through the parameter below a node. -/
theorem wild_leftover (valid : n.Valid) (wild : n.wildchild = true) (only : n.children = [w])
    (walk : ∀ c ∈ w.children, LeaveSpec ctrl c) {x : Char} {t : Str}
    (ok : Insertable (x :: t) parser.params)
    (accepted : (insertLoop n (n.path ++ x :: t) parser ctrl).verdict = .accepted) :
    (insertLoop n (n.path ++ x :: t) parser ctrl).params = leftover n.body (x :: t) parser.params := by
  have child : w.WildValid := Valid.wildValid valid wild only
  rw [insertLoop_wild n parser ctrl wild only] at accepted ⊢
  by_cases admitted : w.admits (x :: t) = true
  · rw [if_pos admitted] at accepted ⊢
    obtain ⟨rfl, isParam⟩ := (admits_iff child ok.shaped).mp admitted
    rw [leftover_wild (Valid.wildOf_wild valid wild only), after_wild_body wild only]
    exact param_leftover child isParam walk ok accepted
  · rw [if_neg admitted] at accepted
    cases accepted

end Walk

theorem insertLoop_leftover (ctrl : Ctrl) {n : RawNode Ctrl} (valid : n.Valid) : LeaveSpec ctrl n := by
  apply RawNode.Valid.walk valid
  · intro n valid plain walk
    apply leaveSpec_of_below valid
    intro parser x t ok accepted
    exact branch_leftover valid plain walk ok accepted
  · intro n w valid wild only child walk
    apply leaveSpec_of_below valid
    intro parser x t ok accepted
    exact wild_leftover valid wild only walk ok accepted

/-- What an accepted call of `addRoute` leaves in the queue. -/
theorem insert_leftover {tree : RawTree Ctrl} (wellFormed : tree.WellFormed) {p : PathParser}
    (calculated : Calculated p.calced p.params) {ctrl : Ctrl}
    (accepted : (tree.insert p.calced p ctrl).verdict = .accepted) :
    (tree.insert p.calced p ctrl).params = leftover tree.entries p.calced p.params := by
  rcases wellFormed with rfl | ⟨valid, slash⟩
  · rw [entries_empty, leftover_empty]
    simp only [RawTree.insert, and_self, if_true]
    exact insertChild_leftover _ _ _ _ _ (insertChild_first calculated p.actualFullPath ctrl).1
  · have used : ¬ (tree.root.path = [] ∧ tree.root.indices = []) :=
      fun fresh => valid.staticPath.nonempty fresh.1
    rw [RawTree.insert, if_neg used] at accepted ⊢
    exact insertLoop_leftover ctrl valid p p.calced calculated.insertable
      (calculated.rooted.trans slash.symm) accepted

/-! ## Whole routes -/

/-- The root-to-node spelling of a stored route. -/
def spelling (π : Pattern) : Str :=
  π.map fun
    | .lit c => c
    | .wild _ => PARAM_CHAR

/-- Nothing follows the first catch-all of the route. -/
def EndsAtCatchAll : Str → List Param → Prop
  | [], _ => True
  | x :: t, params =>
    if x = PARAM_CHAR then
      match params with
      | [] => True
      | p :: params => if p.type = .CATCH_ALL then t = [] else EndsAtCatchAll t params
    else EndsAtCatchAll t params

theorem endsAtCatchAll_lit {x : Char} (literal : x ≠ PARAM_CHAR) (t : Str) (params : List Param) :
    EndsAtCatchAll (x :: t) params ↔ EndsAtCatchAll t params := by
  simp only [EndsAtCatchAll, literal, if_false]

theorem endsAtCatchAll_wild (t : Str) (p : Param) (params : List Param) :
    EndsAtCatchAll (PARAM_CHAR :: t) (p :: params) ↔
      if p.type = .CATCH_ALL then t = [] else EndsAtCatchAll t params := by
  simp only [EndsAtCatchAll, if_true]

/-- A stored route that spells the calculated path refuses it. -/
theorem not_compat_spelling (π : Pattern) : ¬ Compat π (spelling π) := by
  induction π with
  | nil => exact fun compat => compat rfl
  | cons s π ih =>
    cases s with
    | lit c => exact fun compat => ih (compat.2 rfl)
    | wild w => exact fun compat => ih compat.2.2

/-- At most one parameter is taken for each placeholder. -/
theorem le_leftoverOf (t : Str) (params : List Param) :
    params.length ≤ (leftoverOf t params).length + t.count PARAM_CHAR := by
  induction t generalizing params with
  | nil => exact Nat.le_add_right _ _
  | cons x t ih =>
    by_cases placeholder : x = PARAM_CHAR
    · subst placeholder
      rw [List.count_cons_self]
      cases params with
      | nil => exact Nat.zero_le _
      | cons p params =>
        rw [leftoverOf_wild, List.length_cons]
        split_ifs with isCatchAll
        · omega
        · have below := ih params
          omega
    · rw [leftoverOf_lit placeholder, List.count_cons_of_ne placeholder]
      exact ih params

/-- Every shared wildcard leaves its parameter in the queue. -/
theorem shared_le_leftover (E : Table Sym Ctrl) (t : Str) (params : List Param) :
    params.length + (sharedWilds E t).length ≤ (leftover E t params).length + t.count PARAM_CHAR := by
  induction t generalizing E with
  | nil => exact le_rfl
  | cons x t ih =>
    by_cases placeholder : x = PARAM_CHAR
    · subst placeholder
      cases wild : wildOf E with
      | none =>
        have fresh := le_leftoverOf (PARAM_CHAR :: t) params
        rw [leftover_fresh wild]
        simpa only [sharedWilds, if_true, wild, List.length_nil, Nat.add_zero] using fresh
      | some w =>
        have below := ih (after (.wild w) E)
        rw [leftover_wild wild, List.count_cons_self]
        simp only [sharedWilds, if_true, wild, List.length_cons]
        omega
    · rw [leftover_lit placeholder, List.count_cons_of_ne placeholder]
      simp only [sharedWilds, if_neg placeholder]
      exact ih _

/-- Without a shared wildcard the table has no part in the route. -/
theorem unshared {E : Table Sym Ctrl} {t : Str} (unshared : sharedWilds E t = [])
    (params : List Param) :
    resolve E t params = patternOf t params ∧ leftover E t params = leftoverOf t params := by
  induction t generalizing E with
  | nil => exact ⟨rfl, rfl⟩
  | cons x t ih =>
    by_cases placeholder : x = PARAM_CHAR
    · subst placeholder
      cases wild : wildOf E with
      | none => exact ⟨resolve_fresh wild t params, leftover_fresh wild t params⟩
      | some w =>
        simp only [sharedWilds, if_true, wild] at unshared
        exact absurd unshared (List.cons_ne_nil _ _)
    · simp only [sharedWilds, if_neg placeholder] at unshared
      obtain ⟨stored, left⟩ := ih unshared
      rw [leftover_lit placeholder, leftoverOf_lit placeholder, patternOf_lit placeholder,
        resolve_lit placeholder, stored, left]
      exact ⟨rfl, rfl⟩

/-- A route that ends at its first catch-all takes one parameter for each placeholder. -/
theorem EndsAtCatchAll.leftoverOf_length {t : Str} {params : List Param}
    (ends : EndsAtCatchAll t params) (enough : t.count PARAM_CHAR ≤ params.length) :
    (leftoverOf t params).length + t.count PARAM_CHAR = params.length := by
  induction t generalizing params with
  | nil => rfl
  | cons x t ih =>
    by_cases placeholder : x = PARAM_CHAR
    · subst placeholder
      rw [List.count_cons_self] at enough ⊢
      cases params with
      | nil => exact absurd enough (by simp)
      | cons p params =>
        rw [List.length_cons] at enough ⊢
        rw [endsAtCatchAll_wild] at ends
        rw [leftoverOf_wild]
        split_ifs at ends ⊢ with isCatchAll
        · rw [ends]
          rfl
        · have below := ih ends (by omega)
          omega
    · rw [endsAtCatchAll_lit placeholder] at ends
      rw [List.count_cons_of_ne placeholder] at enough ⊢
      rw [leftoverOf_lit placeholder]
      exact ih ends enough

/-- A fresh route spells the calculated path unless something follows a catch-all. -/
theorem spelling_patternOf {t : Str} {params : List Param}
    (enough : t.count PARAM_CHAR ≤ params.length) :
    spelling (patternOf t params) = t ↔ EndsAtCatchAll t params := by
  induction t generalizing params with
  | nil => exact iff_of_true rfl trivial
  | cons x t ih =>
    by_cases placeholder : x = PARAM_CHAR
    · subst placeholder
      rw [List.count_cons_self] at enough
      cases params with
      | nil => exact absurd enough (by simp)
      | cons p params =>
        rw [List.length_cons, Nat.add_le_add_iff_right] at enough
        rw [endsAtCatchAll_wild, patternOf_wild]
        split_ifs with isCatchAll
        · simp [spelling, eq_comm]
        · rw [← ih enough]
          simp [spelling]
    · rw [List.count_cons_of_ne placeholder] at enough
      rw [endsAtCatchAll_lit placeholder, patternOf_lit placeholder, ← ih enough]
      simp [spelling]

/-! ## Accepted routes -/

/-- The queue is empty, the controller is stored under the whole calculated path, and every stored
route has stayed. -/
structure RegisteredInFull (pcre : Pcre) (tree : RawTree Ctrl) (path : Str) (p : PathParser)
    (ctrl : Ctrl) : Prop where
  consumed : (tree.insert p.calced p ctrl).params = []
  stored : ∃ π, (π, ctrl) ∈ (tree.addRoute pcre path ctrl).1.entries ∧ spelling π = p.calced
  kept : tree.entries ⊆ (tree.addRoute pcre path ctrl).1.entries

/-- An accepted route is registered in full exactly when the tree has no wildcard on its calculated
path and nothing follows its first catch-all. -/
theorem registered_in_full_iff {pcre : Pcre} {tree : RawTree Ctrl} (reachable : tree.Reachable pcre)
    {path : Str} {p : PathParser} (parsed : parsePathSegment pcre path = .ok p) {ctrl : Ctrl}
    (accepted : (tree.addRoute pcre path ctrl).2 = .accepted) :
    RegisteredInFull pcre tree path p ctrl ↔
      sharedWilds tree.entries p.calced = [] ∧ EndsAtCatchAll p.calced p.params := by
  have wellFormed := reachable.wellFormed
  have calculated := parsePathSegment_calculated parsed
  have counted := calculated.counted
  have left : (tree.insert p.calced p ctrl).params = leftover tree.entries p.calced p.params := by
    apply insert_leftover wellFormed calculated
    simpa only [RawTree.addRoute, parsed] using accepted
  obtain ⟨free, table⟩ := addRoute_accepted wellFormed parsed accepted
  constructor
  · rintro ⟨consumed, ⟨π, stored, spells⟩, -⟩
    have none : sharedWilds tree.entries p.calced = [] := by
      have shared := shared_le_leftover tree.entries p.calced p.params
      rw [← left, consumed, counted, List.length_nil] at shared
      exact List.length_eq_zero_iff.mp (by omega)
    refine ⟨none, ?_⟩
    rw [← spelling_patternOf counted.le, ← (unshared none p.params).1]
    rw [table] at stored
    rcases stored with new | old
    · rw [Prod.mk.injEq] at new
      rw [← new.1]
      exact spells
    · exact absurd (spells ▸ free _ old) (not_compat_spelling π)
  · rintro ⟨none, ends⟩
    obtain ⟨fresh, left'⟩ := unshared none p.params
    refine ⟨?_, ⟨_, ?_, (spelling_patternOf counted.le).mpr ends⟩,
      entries_subset_addRoute wellFormed path ctrl⟩
    · have length := ends.leftoverOf_length counted.le
      rw [left, left']
      exact List.length_eq_zero_iff.mp (by omega)
    · rw [table, fresh]
      exact Set.mem_insert _ _

/-- What the parser makes of a route that goes on behind its catch-all. -/
def editRoute : PathParser :=
  ⟨[{ type := .CATCH_ALL, pfx := [], name := "p".toList }], "/files/:/edit".toList,
    "/files/\x7b**:p\x7d/edit".toList⟩

theorem registered_in_full_name :
    RegisteredInFull anyPcre ({} : RawTree ℕ) "/\x7b:a\x7d".toList (plainRoute "a".toList) 1 := by
  have parsed : parsePathSegment anyPcre "/\x7b:a\x7d".toList = .ok (plainRoute "a".toList) := by
    decide +kernel
  refine (registered_in_full_iff .empty parsed (by decide +kernel)).mpr ⟨?_, ?_⟩
  · simp [sharedWilds, wildOf_empty, plainRoute, PARAM_CHAR]
  · simp [EndsAtCatchAll, plainRoute, plainParam]

/-- The segment behind the catch-all is dropped: the route is stored without it. -/
theorem edit_dropped :
    let tree : RawTree ℕ := {}
    let r := tree.addRoute anyPcre "/files/\x7b**:p\x7d/edit".toList 1
    tree.Reachable anyPcre ∧ r.2 = .accepted ∧
      parsePathSegment anyPcre "/files/\x7b**:p\x7d/edit".toList = .ok editRoute ∧
      ¬ RegisteredInFull anyPcre tree "/files/\x7b**:p\x7d/edit".toList editRoute 1 := by
  refine ⟨.empty, by decide +kernel, by decide +kernel, ?_⟩
  rintro ⟨-, ⟨π, stored, spells⟩, -⟩
  rw [RawTree.entries, ← RawNode.mem_listing] at stored
  have listing : ((RawTree.addRoute anyPcre ({} : RawTree ℕ) "/files/\x7b**:p\x7d/edit".toList
      1).1.root.listing.map fun e => spelling e.1) = ["/files/:".toList] := by decide +kernel
  have spelled := List.mem_map_of_mem (f := fun e => spelling e.1) stored
  rw [listing, List.mem_singleton, spells] at spelled
  exact absurd spelled (by decide)

end Cppmhd
