import Cppmhd.Router.InsertChild

/-!
# Insertion refines registration

Inserting a calculated path into a valid subtree gives a valid subtree, and on the tables it is a
registration (`insertLoop_spec`): it is accepted exactly when the path is free in the table of the
subtree, the table then gains the resolved route, and a refused insertion leaves the table as it
was, even where it has split nodes.
-/

open Words Table

namespace Cppmhd

variable {Ctrl : Type}

/-- What an insertion below a node does. -/
structure Inserted (n : RawNode Ctrl) (t : Str) (params : List Param) (ctrl : Ctrl)
    (r : Insertion Ctrl) : Prop where
  valid : r.node.Valid
  head : r.node.path.head? = n.path.head?
  table : Registered n.entries t params ctrl r.verdict r.node.entries

/-- What an insertion behind the path of a node does. -/
structure Grown (n : RawNode Ctrl) (t : Str) (params : List Param) (ctrl : Ctrl)
    (r : Insertion Ctrl) : Prop where
  valid : r.node.Valid
  path : r.node.path = n.path
  table : Registered n.body t params ctrl r.verdict r.node.body

theorem Grown.inserted {n : RawNode Ctrl} {t : Str} {params : List Param} {ctrl : Ctrl}
    {r : Insertion Ctrl} (grown : Grown n t params ctrl r) (valid : n.Valid) :
    Inserted n (n.path ++ t) params ctrl r := by
  refine ⟨grown.valid, by rw [grown.path], ?_⟩
  rw [n.entries_eq, r.node.entries_eq, grown.path]
  exact grown.table.prepend_lits valid.staticPath.noParam

/-! ## Children and their indices -/

theorem indexed_iff (indices : Str) (children : List (RawNode Ctrl)) :
    Indexed indices children ↔ indices.map some = children.map (·.path.head?) := by
  induction indices generalizing children with
  | nil =>
    cases children with
    | nil => simp
    | cons c children => simp
  | cons i indices ih =>
    cases children with
    | nil => simp
    | cons c children =>
      simp only [Indexed, List.forall₂_cons, List.map_cons, List.cons.injEq]
      rw [eq_comm, ← ih]

theorem Indexed.heads_nodup {indices : Str} {children : List (RawNode Ctrl)}
    (indexed : Indexed indices children) (nodup : indices.Nodup) :
    (children.map (·.path.head?)).Nodup := by
  rw [← (indexed_iff _ _).mp indexed]
  exact nodup.map fun a b same => Option.some.inj same

theorem childEntries_middle (before after : List (RawNode Ctrl)) (c : RawNode Ctrl) :
    childEntries (before ++ c :: after) = childEntries (before ++ after) ∪ c.entries := by
  rw [childEntries_append, childEntries_append, childEntries_cons, Set.union_comm c.entries,
    Set.union_assoc]

theorem avoids_children {children : List (RawNode Ctrl)} (below : ∀ c ∈ children, c.Valid)
    {x : Char} (absent : ∀ c ∈ children, c.path.head? ≠ some x) :
    Avoids x (childEntries children) := by
  rintro ⟨π, b⟩ stored
  obtain ⟨c, member, stored⟩ := mem_childEntries.mp stored
  obtain ⟨y, ρ, head, -, rfl⟩ := (below c member).entry_head stored
  refine Or.inr ⟨y, ρ, rfl, ?_⟩
  rintro rfl
  exact absent c member head

theorem childEntries_ne_nil {children : List (RawNode Ctrl)} (below : ∀ c ∈ children, c.Valid) :
    ∀ e ∈ childEntries children, e.1 ≠ [] := by
  rintro ⟨π, b⟩ stored
  obtain ⟨c, member, stored⟩ := mem_childEntries.mp stored
  obtain ⟨y, ρ, -, -, rfl⟩ := (below c member).entry_head stored
  exact List.cons_ne_nil _ _

/-- `insertIndice` selects the child with the first character of the path, if there is one. -/
theorem insertIndice_cases {indices : Str} {children : List (RawNode Ctrl)}
    (indexed : Indexed indices children) (path : Str) (parser : PathParser) (ctrl : Ctrl) :
    (insertIndice children indices path parser ctrl = none ∧
        ∀ c ∈ children, c.path.head? ≠ path.head?) ∨
      ∃ before child after, children = before ++ child :: after ∧
        child.path.head? = path.head? ∧
        insertIndice children indices path parser ctrl =
          some (before ++ (insertLoop child path parser ctrl).node :: after,
            (insertLoop child path parser ctrl).params,
            (insertLoop child path parser ctrl).verdict) := by
  induction indexed with
  | nil => exact Or.inl ⟨by simp only [insertIndice], by simp⟩
  | @cons i child indices children head indexed ih =>
    by_cases here : path.head? = some i
    · right
      refine ⟨[], child, children, rfl, head.trans here.symm, ?_⟩
      simp only [insertIndice, here, if_true, List.nil_append]
    · rcases ih with ⟨none, absent⟩ | ⟨before, c, after, rfl, same, found⟩
      · left
        refine ⟨by simp only [insertIndice, here, if_false, none, Option.map_none], ?_⟩
        intro c member
        rcases List.mem_cons.mp member with rfl | member
        · rw [head]
          exact Ne.symm here
        · exact absent c member
      · right
        refine ⟨child :: before, c, after, rfl, same, ?_⟩
        simp only [insertIndice, here, if_false, found, Option.map_some, List.cons_append]

/-! ## The ends of an insertion -/

section Ends

variable {n : RawNode Ctrl} {parser : PathParser} (ctrl : Ctrl)

/-- A node that keeps everything but its handle. -/
theorem RawNode.Valid.setHandle (valid : n.Valid) (b : Ctrl) :
    RawNode.Valid { n with handle := some b } := by
  cases valid with
  | branch path plain type indexed nodup live below =>
    exact .branch path plain type indexed nodup (Or.inl rfl) below
  | param path wild type indices only isParam wildPath plain leaf single slash below =>
    exact .param path wild type indices only isParam wildPath plain leaf single slash below
  | catchAll path wild type indices only isCatchAll wildPath plain leaf handle =>
    exact .catchAll path wild type indices only isCatchAll wildPath plain leaf handle

/-- The routes behind a valid node other than the one that ends at it. -/
theorem RawNode.Valid.exists_others (valid : n.Valid) :
    ∃ E : Table Sym Ctrl, (∀ e ∈ E, e.1 ≠ []) ∧
      ∀ h, RawNode.body { n with handle := h } = own h ∪ E := by
  refine ⟨if n.wildchild then wildEntries n.children else childEntries n.children, ?_, fun h => rfl⟩
  cases valid with
  | branch path plain type indexed nodup live below =>
    rw [plain, if_neg Bool.false_ne_true]
    exact childEntries_ne_nil below
  | param path wild type indices only | catchAll path wild type indices only =>
    rw [wild, if_pos rfl, only, wildEntries_singleton]
    rintro e ⟨ρ, head, -⟩
    rw [head]
    exact List.cons_ne_nil _ _

theorem setHandle_spec (valid : n.Valid) :
    Grown n [] parser.params ctrl (n.setHandle parser ctrl) := by
  obtain ⟨E, others, body⟩ := valid.exists_others
  have before : n.body = own n.handle ∪ E := body n.handle
  cases handle : n.handle with
  | none =>
    have step : n.setHandle parser ctrl = ⟨{ n with handle := some ctrl }, parser.params, .accepted⟩ := by
      rw [RawNode.setHandle, handle, if_neg (by simp)]
    rw [step]
    refine ⟨valid.setHandle ctrl, rfl, ?_⟩
    rw [before, body, handle]
    exact registered_vacant others
  | some b =>
    have step : n.setHandle parser ctrl =
        ⟨n, parser.params, .refused [.handleExists parser.actualFullPath]⟩ := by
      rw [RawNode.setHandle, handle, if_pos (by simp)]
    rw [step]
    refine ⟨valid, rfl, ?_⟩
    rw [before, handle]
    exact registered_occupied b _

/-- A new wildcard below a valid leaf. -/
theorem insertChild_graft (valid : n.Valid) (leaf : n.children = []) {rest : Str}
    {params : List Param} (ok : Insertable (PARAM_CHAR :: rest) params) (fullPath : Str) :
    Grown n (PARAM_CHAR :: rest) params ctrl
      (insertChild n (PARAM_CHAR :: rest) fullPath ctrl params) := by
  cases valid with
  | param path wild type indices only | catchAll path wild type indices only =>
    rw [leaf] at only
    exact absurd only (List.cons_ne_nil _ _).symm
  | branch path plain type indexed nodup live below =>
    have indices : n.indices = [] := by
      rw [leaf] at indexed
      exact List.forall₂_nil_right_iff.mp indexed
    cases params with
    | nil =>
      have enough := ok.enough
      rw [List.count_cons_self, List.length_nil] at enough
      omega
    | cons p params =>
      obtain ⟨w, left, step, child, stored⟩ := insertChild_wild (insertChild_fresh ctrl params) leaf
        List.not_mem_nil fullPath ok
      rw [List.nil_append, List.length_nil] at step
      have kept : (n.setWild (PARAM_CHAR :: rest) 0 p w).path = n.path := by
        rw [setWild_path, if_neg (lt_irrefl 0)]
      rw [step]
      refine ⟨.ofWild (kept.symm ▸ path) (setWild_wildchild ..)
        (setWild_type _ _ _ _ _ (ok.queued p List.mem_cons_self)) (by simp [indices])
        (by rw [setWild_children, leaf, List.nil_append]) child, kept, ?_⟩
      have after : (n.setWild (PARAM_CHAR :: rest) 0 p w).body =
          own n.handle ∪ {(patternOf (PARAM_CHAR :: rest) (p :: params), ctrl)} := by
        rw [body_of_wild (setWild_wildchild ..) (w := w), setWild_handle, stored]
        rw [setWild_children, leaf, List.nil_append]
      rw [after, body_of_not_wild plain, leaf, childEntries_nil, Set.union_empty]
      exact registered_own n.handle _

/-- A wildcard is refused next to other children. -/
theorem insertChild_occupied (children : n.children ≠ []) {t : Str} {params : List Param}
    (enough : 0 < params.length) (fullPath : Str) :
    ∃ left log, insertChild n (PARAM_CHAR :: t) fullPath ctrl params = ⟨n, left, .refused log⟩ := by
  cases params with
  | nil => exact absurd enough (lt_irrefl 0)
  | cons p params =>
    have pos : 0 < n.children.length := List.length_pos_iff.mpr children
    refine ⟨params, [.segmentConflict p.pattern fullPath], ?_⟩
    simp only [insertChild, findWildcard, if_true, if_pos pos]

theorem not_free_children (children : n.children ≠ []) (below : ∀ c ∈ n.children, c.Valid)
    (t : Str) : ¬ Free (own n.handle ∪ childEntries n.children) (PARAM_CHAR :: t) := by
  intro free
  obtain ⟨c, cs, hc⟩ := List.exists_cons_of_ne_nil children
  have member : c ∈ n.children := hc ▸ List.mem_cons_self
  obtain ⟨π, b, stored⟩ := (below c member).exists_entry
  obtain ⟨y, ρ, -, -, rfl⟩ := (below c member).entry_head stored
  exact (free _ (Or.inr (mem_childEntries.mpr ⟨c, member, stored⟩))).1 rfl

theorem Valid.of_plain (valid : n.Valid) (plain : n.wildchild = false) :
    n.type = .STATIC ∧ Indexed n.indices n.children ∧ n.indices.Nodup ∧
      ∀ c ∈ n.children, c.Valid := by
  cases valid with
  | branch path plain type indexed nodup live below => exact ⟨type, indexed, nodup, below⟩
  | param path wild | catchAll path wild => exact absurd (wild.symm.trans plain) (by decide)

/-- The end of an insertion at a plain node without a child for the next character. -/
theorem attach_spec (valid : n.Valid) (plain : n.wildchild = false) {x : Char} {t : Str}
    (absent : ∀ c ∈ n.children, c.path.head? ≠ some x) (ok : Insertable (x :: t) parser.params) :
    Grown n (x :: t) parser.params ctrl (n.attach (x :: t) parser ctrl) := by
  obtain ⟨type, indexed, nodup, below⟩ := Valid.of_plain valid plain
  by_cases placeholder : x = PARAM_CHAR
  · subst placeholder
    have step : n.attach (PARAM_CHAR :: t) parser ctrl =
        insertChild n (PARAM_CHAR :: t) parser.actualFullPath ctrl parser.params := by
      rw [RawNode.attach, List.head?_cons, if_neg (by simp)]
    rw [step]
    by_cases leaf : n.children = []
    · exact insertChild_graft ctrl valid leaf ok _
    · have enough : 0 < parser.params.length := by
        have enough := ok.enough
        rw [List.count_cons_self] at enough
        omega
      obtain ⟨left, log, refused⟩ :=
        insertChild_occupied ctrl leaf (t := t) enough parser.actualFullPath
      rw [refused]
      refine ⟨valid, rfl, Or.inr ⟨log, rfl, ?_, rfl⟩⟩
      rw [body_of_not_wild plain]
      exact not_free_children leaf below t
  · have fresh := insertChild_fresh ctrl parser.params { type := .STATIC } (x :: t)
      parser.actualFullPath rfl rfl rfl (Or.inl rfl) (List.cons_ne_nil x t)
      (by simpa using placeholder) ok
    rw [RawNode.attach, List.head?_cons, if_pos (by simpa using placeholder)]
    generalize insertChild { type := .STATIC } (x :: t) parser.actualFullPath ctrl parser.params = r
      at fresh
    obtain ⟨accepted, child, head, entries⟩ := fresh
    have unused : x ∉ n.indices := by
      intro used
      have image : some x ∈ n.children.map (·.path.head?) := by
        rw [← (indexed_iff _ _).mp indexed]
        exact List.mem_map_of_mem used
      obtain ⟨c, member, same⟩ := List.mem_map.mp image
      exact absent c member same
    refine ⟨.branch valid.staticPath plain type ?_ ?_ (Or.inr (by simp)) ?_, rfl, ?_⟩
    · rw [List.take_succ_cons, List.take_zero]
      rw [indexed_iff] at indexed ⊢
      rw [List.map_append, List.map_append, indexed, List.map_singleton, List.map_singleton, head,
        List.head?_cons]
    · rw [List.take_succ_cons, List.take_zero]
      exact List.nodup_append_comm.mp (List.nodup_cons.mpr ⟨unused, nodup⟩)
    · intro c member
      rcases List.mem_append.mp member with old | new
      · exact below c old
      · rw [List.mem_singleton.mp new]
        exact child
    · have after : RawNode.body { n with indices := n.indices ++ (x :: t).take 1
                                         children := n.children ++ [r.node] } =
          n.body ∪ {(patternOf (x :: t) parser.params, ctrl)} := by
        have same : RawNode.wildchild { n with indices := n.indices ++ (x :: t).take 1
                                               children := n.children ++ [r.node] } = false := plain
        rw [body_of_not_wild plain, body_of_not_wild same, childEntries_append, childEntries_cons,
          childEntries_nil, Set.union_empty, entries, Set.union_assoc]
      rw [after, accepted]
      apply Avoids.registered _ placeholder
      rw [body_of_not_wild plain]
      exact (avoids_own x n.handle).union (avoids_children below absent)

end Ends

/-! ## Splits -/

section Split

variable {n : RawNode Ctrl} {pre : Str} {y : Char} {s : Str}

theorem split_path (n : RawNode Ctrl) (pre t : Str) :
    (n.split pre.length (pre ++ t)).path = pre := by
  simp only [RawNode.split, List.take_left]

theorem split_children (path : n.path = pre ++ y :: s) (t : Str) :
    (n.split pre.length (pre ++ t)).children = [{ n with path := y :: s }] := by
  simp only [RawNode.split, path, List.drop_left]

/-- The child of a split node begins with the character behind the split. -/
theorem split_absent (path : n.path = pre ++ y :: s) (t : Str) {x : Option Char}
    (differs : some y ≠ x) : ∀ c ∈ (n.split pre.length (pre ++ t)).children, c.path.head? ≠ x := by
  intro c member
  rw [split_children path, List.mem_singleton] at member
  rw [member]
  exact differs

theorem split_valid (valid : n.Valid) (path : n.path = pre ++ y :: s) (nonempty : pre ≠ [])
    (t : Str) : (n.split pre.length (pre ++ t)).Valid := by
  have static : StaticPath (pre ++ y :: s) := path ▸ valid.staticPath
  have lower := valid.setPath (static.of_append_right (List.cons_ne_nil y s))
  refine .branch ?_ rfl rfl ?_ ?_ (Or.inr ?_) ?_
  · rw [split_path]
    exact static.of_append_left nonempty
  · rw [split_children path, indexed_iff]
    simp only [RawNode.split, path, List.drop_left, List.take_succ_cons, List.take_zero,
      List.map_cons, List.map_nil, List.head?_cons]
  · simp [RawNode.split, path]
  · rw [split_children path]
    exact List.cons_ne_nil _ _
  · rw [split_children path]
    intro c member
    rw [List.mem_singleton.mp member]
    exact lower

/-- A split changes no stored route. -/
theorem split_entries (path : n.path = pre ++ y :: s) (t : Str) :
    (n.split pre.length (pre ++ t)).entries = n.entries := by
  rw [RawNode.entries_eq, body_of_not_wild rfl, split_path, split_children path,
    childEntries_cons, childEntries_nil, Set.union_empty]
  have handle : (n.split pre.length (pre ++ t)).handle = none := rfl
  rw [handle, own_none, Set.empty_union, RawNode.entries_eq, ← prepend_append, ← lits_append,
    n.entries_eq, path]
  rfl

end Split

/-! ## The walk -/

section Walk

variable (n : RawNode Ctrl) (parser : PathParser) (ctrl : Ctrl)

theorem findLongestCommonPrefix_left (s t : Str) :
    findLongestCommonPrefix (s ++ t) s = s.length := by
  induction s with
  | nil => cases t <;> rfl
  | cons c s ih => simp [findLongestCommonPrefix, ih]

/-- The walk ends inside the path of the node. -/
theorem insertLoop_split {pre s t : Str} {y : Char} (path : n.path = pre ++ y :: s)
    (ends : findLongestCommonPrefix (pre ++ t) n.path = pre.length) :
    insertLoop n (pre ++ t) parser ctrl =
      if t = [] then (n.split pre.length (pre ++ t)).setHandle parser ctrl
      else (n.split pre.length (pre ++ t)).attach t parser ctrl := by
  have inside : pre.length < n.path.length := by
    rw [path, List.length_append, List.length_cons]
    omega
  cases n
  rw [insertLoop, ends, if_pos inside, List.drop_left]
  cases t with
  | nil => simp
  | cons x t => simp

/-- The walk ends at the node. -/
theorem insertLoop_here : insertLoop n n.path parser ctrl = n.setHandle parser ctrl := by
  have whole := findLongestCommonPrefix_left n.path []
  rw [List.append_nil] at whole
  cases n
  rw [insertLoop, whole, if_neg (lt_irrefl _), if_neg (lt_irrefl _)]

/-- The walk leaves a plain node. -/
theorem insertLoop_below {x : Char} {t : Str} (plain : n.wildchild = false)
    (type : n.type ≠ .PARAM) :
    insertLoop n (n.path ++ x :: t) parser ctrl =
      match insertIndice n.children n.indices (x :: t) parser ctrl with
      | some (children, params, verdict) => ⟨{ n with children }, params, verdict⟩
      | none => n.attach (x :: t) parser ctrl := by
  have whole := findLongestCommonPrefix_left n.path (x :: t)
  have longer : n.path.length < (n.path ++ x :: t).length := by simp
  cases n
  dsimp only at plain
  subst plain
  rw [insertLoop, whole, if_neg (lt_irrefl _), if_pos longer, List.drop_left,
    if_neg Bool.false_ne_true]
  exact if_neg fun h => type h.1

/-- The walk enters a wildcard child or is refused there. -/
theorem insertLoop_wild {x : Char} {t : Str} {w : RawNode Ctrl} (wild : n.wildchild = true)
    (only : n.children = [w]) :
    insertLoop n (n.path ++ x :: t) parser ctrl =
      if w.admits (x :: t) then
        let below := insertLoop w (x :: t) parser ctrl
        ⟨{ n with children := [below.node] }, below.params, below.verdict⟩
      else ⟨n, parser.params, .refused [.wildcardConflict parser.actualFullPath]⟩ := by
  have whole := findLongestCommonPrefix_left n.path (x :: t)
  have longer : n.path.length < (n.path ++ x :: t).length := by simp
  cases n
  dsimp only at only wild
  subst only wild
  rw [insertLoop, whole, if_neg (lt_irrefl _), if_pos longer, List.drop_left, if_pos rfl]

/-- The walk leaves a parameter with a child, which the next character does not select. -/
theorem insertLoop_param {t : Str} {c : RawNode Ctrl} (plain : n.wildchild = false)
    (type : n.type = .PARAM) (only : n.children = [c]) :
    insertLoop n (n.path ++ '/' :: t) parser ctrl =
      let below := insertLoop c ('/' :: t) parser ctrl
      ⟨{ n with children := [below.node] }, below.params, below.verdict⟩ := by
  have whole := findLongestCommonPrefix_left n.path ('/' :: t)
  have longer : n.path.length < (n.path ++ '/' :: t).length := by simp
  cases n
  dsimp only at only plain
  subst only plain
  rw [insertLoop, whole, if_neg (lt_irrefl _), if_pos longer, List.drop_left,
    if_neg Bool.false_ne_true, if_pos ⟨type, rfl, rfl⟩]

/-- The walk ends behind a parameter without a child. -/
theorem insertLoop_paramLeaf {x : Char} {t : Str} (plain : n.wildchild = false)
    (leaf : n.children = []) :
    insertLoop n (n.path ++ x :: t) parser ctrl = n.attach (x :: t) parser ctrl := by
  have whole := findLongestCommonPrefix_left n.path (x :: t)
  have longer : n.path.length < (n.path ++ x :: t).length := by simp
  cases n
  dsimp only at leaf plain
  subst leaf plain
  rw [insertLoop, whole, if_neg (lt_irrefl _), if_pos longer, List.drop_left,
    if_neg Bool.false_ne_true, if_neg (fun h => absurd h.2.2 (by simp))]
  simp only [insertIndice]

end Walk

/-- A wildcard child admits exactly the placeholder of a parameter. -/
theorem admits_iff {w : RawNode Ctrl} (valid : w.WildValid) {x : Char} {t : Str}
    (shaped : Shaped (x :: t)) :
    w.admits (x :: t) = true ↔ x = PARAM_CHAR ∧ w.type = .PARAM := by
  cases valid with
  | catchAll isCatchAll => simp [RawNode.admits, isCatchAll]
  | param isParam wildPath =>
    have segment : x = PARAM_CHAR → t.length ≤ 0 ∨ t[0]? = some '/' := by
      rintro rfl
      cases t with
      | nil => exact Or.inl le_rfl
      | cons y t => exact Or.inr (congrArg some ((List.isChain_cons_cons.mp shaped).1.1 rfl))
    simp only [RawNode.admits, isParam, wildPath, Bool.and_eq_true, isPrefix_iff,
      Bool.or_eq_true, decide_eq_true_eq, beq_iff_eq, List.length_cons, List.length_nil]
    constructor
    · rintro ⟨⟨same, -⟩, -⟩
      exact ⟨(List.cons_prefix_cons.mp same).1.symm, trivial⟩
    · rintro ⟨rfl, -⟩
      refine ⟨⟨List.cons_prefix_cons.mpr ⟨rfl, List.nil_prefix⟩, by decide⟩, ?_⟩
      rcases segment rfl with h | h
      · exact Or.inl (by omega)
      · exact Or.inr (by simpa using h)

/-! ## The walk is a registration -/

/-- The walk below `n` does what an insertion must do, for every rest that begins like `n`. -/
def WalkSpec (ctrl : Ctrl) (n : RawNode Ctrl) : Prop :=
  ∀ (parser : PathParser) (t : Str), Insertable t parser.params → t.head? = n.path.head? →
    Inserted n t parser.params ctrl (insertLoop n t parser ctrl)

/-- A parameter node above one valid child. -/
theorem wildValid_child {w c : RawNode Ctrl} (isParam : w.type = .PARAM)
    (wildPath : w.path = [PARAM_CHAR]) (plain : w.wildchild = false) (indices : Str)
    (slash : c.path.head? = some '/') (valid : c.Valid) :
    RawNode.WildValid { w with indices := indices, children := [c] } := by
  refine .param isParam wildPath plain (by simp) le_rfl ?_ ?_
  · intro d member
    rw [List.mem_singleton.mp member]
    exact slash
  · intro d member
    rw [List.mem_singleton.mp member]
    exact valid

/-- The walk through a parameter node. -/
theorem insertLoop_wildSpec {ctrl : Ctrl} {w : RawNode Ctrl} (isParam : w.type = .PARAM)
    (wildPath : w.path = [PARAM_CHAR]) (plain : w.wildchild = false)
    (leaf : w.children = [] → w.indices = [] ∧ w.handle.isSome) (single : w.children.length ≤ 1)
    (slash : ∀ c ∈ w.children, c.path.head? = some '/') (below : ∀ c ∈ w.children, c.Valid)
    (walk : ∀ c ∈ w.children, WalkSpec ctrl c) (parser : PathParser) {t : Str}
    (ok : Insertable (PARAM_CHAR :: t) parser.params) :
    let r := insertLoop w (PARAM_CHAR :: t) parser ctrl
    r.node.WildValid ∧ r.node.wild = w.wild ∧
      Registered w.wildBody t parser.params ctrl r.verdict r.node.wildBody := by
  intro r
  have rest : Insertable t parser.params := by
    have whole : PARAM_CHAR :: t = [PARAM_CHAR] ++ t := rfl
    rw [whole] at ok
    exact ok.of_append
  cases t with
  | nil =>
    have here : r = w.setHandle parser ctrl := by
      have step := insertLoop_here w parser ctrl
      rwa [wildPath] at step
    have others := childEntries_ne_nil below
    cases handle : w.handle with
    | none =>
      have step : r = ⟨{ w with handle := some ctrl }, parser.params, .accepted⟩ := by
        rw [here, RawNode.setHandle, handle, if_neg (by simp)]
      rw [step]
      refine ⟨.param isParam wildPath plain (fun h => ⟨(leaf h).1, rfl⟩) single slash below, rfl, ?_⟩
      rw [RawNode.wildBody, RawNode.wildBody, handle]
      exact registered_vacant others
    | some b =>
      have step : r = ⟨w, parser.params, .refused [.handleExists parser.actualFullPath]⟩ := by
        rw [here, RawNode.setHandle, handle, if_pos (by simp)]
      rw [step]
      refine ⟨.param isParam wildPath plain leaf single slash below, rfl, ?_⟩
      rw [RawNode.wildBody, handle]
      exact registered_occupied b _
  | cons x t =>
    obtain rfl := ok.slash_of_placeholder
    cases children : w.children with
    | nil =>
      have step : r = w.attach ('/' :: t) parser ctrl := by
        have step := insertLoop_paramLeaf w parser ctrl (x := '/') (t := t) plain children
        rwa [wildPath] at step
      have fresh := insertChild_fresh ctrl parser.params { type := .STATIC } ('/' :: t)
        parser.actualFullPath rfl rfl rfl (Or.inl rfl) (List.cons_ne_nil _ t)
        (by simp [PARAM_CHAR]) rest
      rw [RawNode.attach, List.head?_cons, if_pos (by decide), children] at step
      generalize insertChild { type := .STATIC } ('/' :: t) parser.actualFullPath ctrl
        parser.params = below' at fresh step
      obtain ⟨accepted, child, head, entries⟩ := fresh
      rw [step]
      refine ⟨wildValid_child isParam wildPath plain _ head child, rfl, ?_⟩
      simp only [RawNode.wildBody, children, List.nil_append, childEntries_cons,
        childEntries_nil, Set.union_empty, accepted, entries]
      exact registered_own w.handle '/'
    | cons c rest' =>
      have only : w.children = [c] := only_of_single single children
      have member : c ∈ w.children := only ▸ List.mem_singleton_self c
      have behind : w.path ++ '/' :: t = PARAM_CHAR :: '/' :: t := by
        rw [wildPath]
        rfl
      have step := insertLoop_param w parser ctrl (t := t) plain isParam only
      rw [behind] at step
      have inner := walk c member parser ('/' :: t) rest (slash c member).symm
      have result : r = _ := step
      rw [result]
      refine ⟨wildValid_child isParam wildPath plain _ (inner.head.trans (slash c member))
        inner.valid, rfl, ?_⟩
      simp only [RawNode.wildBody, only, childEntries_cons, childEntries_nil, Set.union_empty]
      exact inner.table.union_left (avoids_own '/' w.handle) (by decide)

/-- The walk over the children of a plain node. -/
theorem insertLoop_branchSpec {ctrl : Ctrl} {n : RawNode Ctrl} (valid : n.Valid)
    (plain : n.wildchild = false) (walk : ∀ c ∈ n.children, WalkSpec ctrl c)
    (parser : PathParser) {x : Char} {t : Str} (ok : Insertable (x :: t) parser.params) :
    Grown n (x :: t) parser.params ctrl (insertLoop n (n.path ++ x :: t) parser ctrl) := by
  obtain ⟨type, indexed, nodup, below⟩ := Valid.of_plain valid plain
  rw [insertLoop_below n parser ctrl plain (by rw [type]; decide)]
  rcases insertIndice_cases indexed (x :: t) parser ctrl with
    ⟨none, absent⟩ | ⟨before, c, after, children, head, found⟩
  · rw [none]
    exact attach_spec ctrl valid plain absent ok
  · rw [found]
    have member : c ∈ n.children := by
      rw [children]
      exact List.mem_append_right _ List.mem_cons_self
    have inner := walk c member parser (x :: t) ok head.symm
    generalize insertLoop c (x :: t) parser ctrl = r at inner
    have distinct : ∀ d ∈ before ++ after, d.path.head? ≠ c.path.head? := by
      have nodup := indexed.heads_nodup nodup
      rw [children, List.map_append, List.map_cons, List.nodup_middle, List.nodup_cons,
        ← List.map_append] at nodup
      intro d hd same
      exact nodup.1 (same ▸ List.mem_map_of_mem hd)
    have belowOthers : ∀ d ∈ before ++ after, d.Valid := by
      intro d hd
      apply below
      rw [children]
      rcases List.mem_append.mp hd with h | h
      · exact List.mem_append_left _ h
      · exact List.mem_append_right _ (List.mem_cons_of_mem c h)
    have literal : x ≠ PARAM_CHAR := (below c member).head_literal head
    refine ⟨.branch valid.staticPath plain type ?_ nodup (Or.inr (by simp)) ?_, rfl, ?_⟩
    · rw [indexed_iff] at indexed ⊢
      rw [indexed, children]
      simp only [List.map_append, List.map_cons, inner.head]
    · intro d hd
      rcases List.mem_append.mp hd with h | h
      · exact belowOthers d (List.mem_append_left _ h)
      · rcases List.mem_cons.mp h with rfl | h
        · exact inner.valid
        · exact belowOthers d (List.mem_append_right _ h)
    · have same : RawNode.wildchild { n with children := before ++ r.node :: after } = false := plain
      rw [body_of_not_wild plain, body_of_not_wild same, children, childEntries_middle,
        childEntries_middle, ← Set.union_assoc, ← Set.union_assoc]
      apply inner.table.union_left _ literal
      apply (avoids_own x n.handle).union
      apply avoids_children belowOthers
      intro d hd
      rw [List.head?_cons] at head
      rw [← head]
      exact distinct d hd

/-- The walk into the wildcard child of a node. -/
theorem insertLoop_intoWild {ctrl : Ctrl} {n w : RawNode Ctrl} (path : StaticPath n.path)
    (wild : n.wildchild = true) (type : n.type ≠ .ROOT)
    (indices : n.indices = [] ∨ n.indices = ['/']) (only : n.children = [w]) (child : w.WildValid)
    (parser : PathParser) {x : Char} {t : Str} (ok : Insertable (x :: t) parser.params)
    (walk : x = PARAM_CHAR → w.type = .PARAM →
      let r := insertLoop w (x :: t) parser ctrl
      r.node.WildValid ∧ r.node.wild = w.wild ∧
        Registered w.wildBody t parser.params ctrl r.verdict r.node.wildBody) :
    Grown n (x :: t) parser.params ctrl (insertLoop n (n.path ++ x :: t) parser ctrl) := by
  rw [insertLoop_wild n parser ctrl wild only]
  by_cases admitted : w.admits (x :: t) = true
  · rw [if_pos admitted]
    obtain ⟨rfl, isParam⟩ := (admits_iff child ok.shaped).mp admitted
    obtain ⟨childValid, same, table⟩ := walk rfl isParam
    generalize insertLoop w (PARAM_CHAR :: t) parser ctrl = r at childValid same table
    have after : RawNode.body { n with children := [r.node] } =
        own n.handle ∪ prepend [.wild r.node.wild] r.node.wildBody := body_of_wild wild rfl
    refine ⟨.ofWild path wild type indices rfl childValid, rfl, ?_⟩
    rw [body_of_wild wild only, after, same]
    exact table.prepend_wild isParam n.handle child.exists_entry
  · rw [if_neg admitted]
    refine ⟨.ofWild path wild type indices only child, rfl, ?_⟩
    rw [body_of_wild wild only]
    apply registered_conflict n.handle child.exists_entry
    by_contra clash
    simp only [not_or, not_not, ne_eq] at clash
    exact admitted ((admits_iff child ok.shaped).mpr clash)

/-- Where a path leaves a node whose first character it has: behind the node, or inside it. -/
inductive Leaves (n : RawNode Ctrl) : Str → Prop
  | behind (rest : Str) : Leaves n (n.path ++ rest)
  | inside {pre s rest : Str} {y : Char} (path : n.path = pre ++ y :: s) (nonempty : pre ≠ [])
      (differs : rest.head? ≠ some y)
      (length : findLongestCommonPrefix (pre ++ rest) n.path = pre.length) : Leaves n (pre ++ rest)

theorem leaves {n : RawNode Ctrl} {t : Str} (head : t.head? = n.path.head?) : Leaves n t := by
  obtain ⟨pre, rest, below, whole, path, length, differ⟩ := findLongestCommonPrefix_cases t n.path
  subst whole
  cases below with
  | nil =>
    rw [List.append_nil] at path
    exact path ▸ .behind rest
  | cons y s =>
    have differs : rest.head? ≠ some y := fun same => differ y y same rfl rfl
    refine .inside path ?_ differs length
    rintro rfl
    rw [path] at head
    exact differs head

/-- The walk at a node: it ends inside the path, at its end, or goes on behind it. -/
theorem walkSpec_of_below {ctrl : Ctrl} {n : RawNode Ctrl} (valid : n.Valid)
    (behind : ∀ (parser : PathParser) (x : Char) (t : Str), Insertable (x :: t) parser.params →
      Grown n (x :: t) parser.params ctrl (insertLoop n (n.path ++ x :: t) parser ctrl)) :
    WalkSpec ctrl n := by
  intro parser t ok head
  cases leaves head with
  | behind rest =>
    cases rest with
    | nil =>
      rw [List.append_nil, insertLoop_here]
      have grown : Grown n [] parser.params ctrl (n.setHandle parser ctrl) :=
        setHandle_spec ctrl valid
      simpa using grown.inserted valid
    | cons x t => exact (behind parser x t ok.of_append).inserted valid
  | @inside pre s rest y path nonempty differs length =>
    have split := split_valid valid path nonempty rest
    have same := split_entries path rest
    have grown : Grown (n.split pre.length (pre ++ rest)) rest parser.params ctrl
        (insertLoop n (pre ++ rest) parser ctrl) := by
      rw [insertLoop_split n parser ctrl path length]
      cases rest with
      | nil => exact setHandle_spec ctrl split
      | cons x t =>
        rw [if_neg (List.cons_ne_nil x t)]
        exact attach_spec ctrl split rfl (split_absent path _ (Ne.symm differs)) ok.of_append
    have inserted := grown.inserted split
    rw [split_path] at inserted
    refine ⟨inserted.valid, ?_, same ▸ inserted.table⟩
    rw [inserted.head, split_path, path, List.head?_append_of_ne_nil _ nonempty]

theorem insertLoop_spec (ctrl : Ctrl) {n : RawNode Ctrl} (valid : n.Valid) : WalkSpec ctrl n := by
  induction valid with
  | @branch n path plain type indexed nodup live below walk =>
    have valid : n.Valid := .branch path plain type indexed nodup live below
    apply walkSpec_of_below valid
    intro parser x t ok
    exact insertLoop_branchSpec valid plain walk parser ok
  | @param n w path wild type indices only isParam wildPath plain leaf single slash below walk =>
    have child : w.WildValid := .param isParam wildPath plain leaf single slash below
    apply walkSpec_of_below (.ofWild path wild type indices only child)
    intro parser x t ok
    apply insertLoop_intoWild path wild type indices only child parser ok
    rintro rfl -
    exact insertLoop_wildSpec isParam wildPath plain leaf single slash below walk parser ok
  | @catchAll n w path wild type indices only isCatchAll wildPath plain leaf handle =>
    have child : w.WildValid := .catchAll isCatchAll wildPath plain leaf handle
    apply walkSpec_of_below (.ofWild path wild type indices only child)
    intro parser x t ok
    apply insertLoop_intoWild path wild type indices only child parser ok
    intro _ isParam
    rw [isCatchAll] at isParam
    exact absurd isParam (by decide)

end Cppmhd
