import Cppmhd.Router.Metadata

/-!
# The shape of the trees

What holds of every node of a tree into which a route was accepted (`RawNode.Shape`): `Valid` gives
all of it but the bound on the indices, which insertion keeps because it appends an index only
together with a child (`insertLoop_bounded`).
-/

namespace Cppmhd

variable {Ctrl : Type}

/-! ## Nodes -/

/-- The nodes of a subtree; the flag tells the children of nodes with a wildcard child. -/
inductive RawNode.Has (root : RawNode Ctrl) : RawNode Ctrl → Bool → Prop
  | root : root.Has root false
  | child {n c : RawNode Ctrl} {isWild : Bool} (has : root.Has n isWild) (member : c ∈ n.children) :
      root.Has c n.wildchild

/-- The representation invariant of a node; `isWild` for the wildcard child of its parent. -/
structure RawNode.Shape (n : RawNode Ctrl) (isWild : Bool) : Prop where
  static : isWild = false → n.path ≠ [] ∧ PARAM_CHAR ∉ n.path
  indexed : n.wildchild = false → n.type ≠ .PARAM →
    n.indices.length = n.children.length ∧
      (∀ i (h : i < n.indices.length) (h' : i < n.children.length),
        n.children[i].path.head? = some n.indices[i]) ∧ n.indices.Nodup
  wild : n.wildchild = true → ∃ w, n.children = [w] ∧ (w.type = .PARAM ∨ w.type = .CATCH_ALL)
  param : n.type = .PARAM → n.path = [PARAM_CHAR] →
    n.children.length ≤ 1 ∧ ∀ c ∈ n.children, c.path.head? = some '/'
  catchAll : isWild = true → n.type = .CATCH_ALL → n.children = [] ∧ n.handle.isSome
  leaf : n.children = [] → n.handle.isSome
  bounded : n.indices.length ≤ n.children.length
  found : ∀ c ∈ n.indices, (n.indice c).isSome

/-! ## The bound on the indices -/

/-- No node of the subtree has more indices than children. -/
inductive RawNode.Bounded : RawNode Ctrl → Prop
  | mk {n : RawNode Ctrl} (here : n.indices.length ≤ n.children.length)
      (below : ∀ c ∈ n.children, c.Bounded) : n.Bounded

theorem RawNode.Bounded.here {n : RawNode Ctrl} (bounded : n.Bounded) :
    n.indices.length ≤ n.children.length := by
  cases bounded
  assumption

theorem RawNode.Bounded.all {n : RawNode Ctrl} (bounded : n.Bounded) :
    ∀ c ∈ n.children, c.Bounded := by
  cases bounded
  assumption

/-- A node that a new child may be appended to. -/
structure RawNode.Extensible (n : RawNode Ctrl) : Prop where
  here : n.indices.length ≤ n.children.length + 1
  below : ∀ c ∈ n.children, c.Bounded

theorem RawNode.Bounded.extensible {n : RawNode Ctrl} (bounded : n.Bounded) : n.Extensible :=
  ⟨bounded.here.trans (Nat.le_succ _), bounded.all⟩

section Bounded

variable {n : RawNode Ctrl} {ctrl : Ctrl}

theorem bounded_append {child : RawNode Ctrl} (extensible : n.Extensible) (bounded : child.Bounded) :
    ∀ {m : RawNode Ctrl}, m.indices = n.indices → m.children = n.children ++ [child] → m.Bounded := by
  intro m indices children
  refine .mk ?_ ?_
  · rw [indices, children, List.length_append, List.length_singleton]
    exact extensible.here
  · intro c member
    rw [children, List.mem_append, List.mem_singleton] at member
    rcases member with old | rfl
    · exact extensible.below c old
    · exact bounded

theorem setLeaf_bounded (extensible : n.Extensible) (path : Str) : (n.setLeaf path ctrl).Bounded :=
  .mk (Nat.zero_le _) extensible.below

theorem setWild_bounded {child : RawNode Ctrl} (extensible : n.Extensible) (bounded : child.Bounded)
    (path : Str) (pos : ℕ) (p : Param) : (n.setWild path pos p child).Bounded :=
  bounded_append extensible bounded (setWild_indices ..) (setWild_children ..)

/-- The fresh nodes may carry one index too many until they get their child. -/
theorem insertChild_bounded (params : List Param) {path fullPath : Str} (extensible : n.Extensible)
    (fits : n.children = [] ∨ n.Bounded)
    (defined : (insertChild n path fullPath ctrl params).verdict ≠ .undefined) :
    (insertChild n path fullPath ctrl params).node.Bounded := by
  induction params generalizing n path with
  | nil =>
    rw [insertChild] at defined ⊢
    split at defined
    · exact setLeaf_bounded extensible path
    · exact absurd rfl defined
  | cons wild params ih =>
    rw [insertChild] at defined ⊢
    split at defined
    · exact setLeaf_bounded extensible path
    · next paramPos found =>
      split at defined
      · next occupied =>
        rw [if_pos occupied]
        rcases fits with leaf | bounded
        · rw [leaf] at occupied
          exact absurd occupied (lt_irrefl 0)
        · exact bounded
      · next free =>
        rw [if_neg free]
        split at defined
        · dsimp only at defined ⊢
          split at defined
          · next long =>
            rw [if_pos long]
            have fresh : RawNode.Extensible
                ({ type := .UNKNOWN, indices := ((path.drop paramPos).drop 1).take 1 } : RawNode Ctrl) :=
              ⟨List.length_take_le 1 _, List.forall_mem_nil _⟩
            have below := ih fresh (Or.inl rfl) defined
            apply setWild_bounded extensible
            refine .mk (Nat.zero_le _) ?_
            intro c member
            rw [List.mem_singleton.mp member]
            exact below
          · next short =>
            rw [if_neg short]
            exact setWild_bounded extensible (.mk (Nat.zero_le _) (List.forall_mem_nil _)) path paramPos wild
        · exact setWild_bounded extensible (.mk (Nat.zero_le _) (List.forall_mem_nil _)) path paramPos wild
        · exact absurd rfl defined

theorem setHandle_bounded (bounded : n.Bounded) (parser : PathParser) :
    (n.setHandle parser ctrl).node.Bounded := by
  unfold RawNode.setHandle
  split
  · exact bounded
  · exact .mk bounded.here bounded.all

/-- A new index comes with a new child. -/
theorem attach_bounded (bounded : n.Bounded) {path : Str} {parser : PathParser}
    (defined : (n.attach path parser ctrl).verdict ≠ .undefined) :
    (n.attach path parser ctrl).node.Bounded := by
  unfold RawNode.attach at defined ⊢
  split at defined
  · next literal =>
    rw [if_pos literal]
    have fresh : RawNode.Extensible ({ type := .STATIC } : RawNode Ctrl) := ⟨Nat.zero_le _, List.forall_mem_nil _⟩
    have below := insertChild_bounded _ fresh (Or.inl rfl) defined
    refine .mk ?_ ?_
    · have one := List.length_take_le 1 path
      have here := bounded.here
      rw [List.length_append, List.length_append, List.length_singleton]
      omega
    · intro c member
      rw [List.mem_append, List.mem_singleton] at member
      rcases member with old | rfl
      · exact bounded.all c old
      · exact below
  · next placeholder =>
    rw [if_neg placeholder]
    exact insertChild_bounded _ bounded.extensible (Or.inr bounded) defined

theorem split_bounded (bounded : n.Bounded) (i : ℕ) (path : Str) : (n.split i path).Bounded := by
  refine .mk (List.length_take_le 1 _) ?_
  intro c member
  rw [List.mem_singleton.mp member]
  exact .mk bounded.here bounded.all

end Bounded

/-- Another first child leaves the bound. -/
theorem replaced_bounded {n child child' : RawNode Ctrl} {rest : List (RawNode Ctrl)}
    (here : n.indices.length ≤ (child :: rest).length) (below : ∀ c ∈ child :: rest, c.Bounded)
    (children : n.children = child' :: rest) (bounded : child'.Bounded) : n.Bounded := by
  refine .mk (children ▸ here) ?_
  rw [children]
  intro c member
  rcases List.mem_cons.mp member with rfl | old
  · exact bounded
  · exact below c (List.mem_cons_of_mem child old)

mutual

theorem insertLoop_bounded : ∀ (node : RawNode Ctrl) (path : Str) (parser : PathParser) (ctrl : Ctrl),
    node.Bounded → (insertLoop node path parser ctrl).verdict ≠ .undefined →
      (insertLoop node path parser ctrl).node.Bounded
  | ⟨p, indices, children, handle, type, re, name, wildchild⟩, path, parser, ctrl, bounded, defined => by
    have here : indices.length ≤ children.length := bounded.here
    have below : ∀ c ∈ children, c.Bounded := bounded.all
    rw [insertLoop] at defined ⊢
    dsimp only at defined ⊢
    split_ifs at defined ⊢ with inside more more wild goes
    · exact attach_bounded (split_bounded bounded _ path) defined
    · exact setHandle_bounded (split_bounded bounded _ path) parser
    · cases children with
      | nil => exact absurd rfl defined
      | cons child rest =>
        dsimp only at defined ⊢
        split_ifs at defined ⊢ with admitted
        · exact replaced_bounded here below rfl
            (insertLoop_bounded child _ parser ctrl (below child List.mem_cons_self) defined)
        · exact bounded
    · cases children with
      | nil => exact absurd rfl defined
      | cons child rest =>
        exact replaced_bounded here below rfl
          (insertLoop_bounded child _ parser ctrl (below child List.mem_cons_self) defined)
    · cases found : insertIndice children indices (path.drop (findLongestCommonPrefix path p)) parser
        ctrl with
      | some r =>
        rw [found] at defined
        obtain ⟨length, bounded'⟩ :=
          insertIndice_bounded children indices _ parser ctrl below found defined
        exact .mk (here.trans length.ge) bounded'
      | none =>
        rw [found] at defined
        exact attach_bounded bounded defined
    · exact setHandle_bounded bounded parser

theorem insertIndice_bounded : ∀ (children : List (RawNode Ctrl)) (indices path : Str)
    (parser : PathParser) (ctrl : Ctrl) {r : List (RawNode Ctrl) × List Param × Verdict},
    (∀ c ∈ children, c.Bounded) → insertIndice children indices path parser ctrl = some r →
      r.2.2 ≠ .undefined → r.1.length = children.length ∧ ∀ c ∈ r.1, c.Bounded
  | child :: children, i :: indices, path, parser, ctrl, r, below, found, defined => by
    rw [insertIndice] at found
    split_ifs at found with here
    · obtain rfl := Option.some.inj found
      refine ⟨rfl, ?_⟩
      intro c member
      rcases List.mem_cons.mp member with rfl | old
      · exact insertLoop_bounded child path parser ctrl (below child List.mem_cons_self) defined
      · exact below c (List.mem_cons_of_mem child old)
    · obtain ⟨r', found', rfl⟩ := Option.map_eq_some_iff.mp found
      obtain ⟨length, bounded⟩ := insertIndice_bounded children indices path parser ctrl
        (fun c member => below c (List.mem_cons_of_mem child member)) found' defined
      refine ⟨congrArg (· + 1) length, ?_⟩
      intro c member
      rcases List.mem_cons.mp member with rfl | old
      · exact below c List.mem_cons_self
      · exact bounded c old
  | [], _, _, _, _, _, _, found, _ => absurd found (by simp [insertIndice])
  | _ :: _, [], _, _, _, _, _, found, _ => absurd found (by simp [insertIndice])

end

/-! ## Reachable trees -/

theorem RawTree.Reachable.bounded {pcre : Pcre} {tree : RawTree Ctrl}
    (reachable : tree.Reachable pcre) : tree.root.Bounded := by
  induction reachable with
  | empty => exact .mk (Nat.zero_le _) (List.forall_mem_nil _)
  | @addRoute tree path ctrl before bounded =>
    have defined := addRoute_defined before path ctrl
    cases parsed : parsePathSegment pcre path with
    | error log =>
      rw [addRoute_unparsed parsed]
      exact bounded
    | ok p =>
      simp only [RawTree.addRoute, parsed, RawTree.insert] at defined ⊢
      split_ifs at defined ⊢ with fresh
      · rcases before.wellFormed with rfl | ⟨valid, -⟩
        · apply insertChild_bounded _ bounded.extensible (Or.inr bounded)
          rw [(insertChild_first (parsePathSegment_calculated parsed) p.actualFullPath ctrl).1]
          rintro ⟨⟩
        · exact absurd fresh.1 valid.staticPath.nonempty
      · exact insertLoop_bounded _ _ _ _ bounded defined

theorem RawNode.Has.bounded {root n : RawNode Ctrl} {isWild : Bool} (has : root.Has n isWild)
    (bounded : root.Bounded) : n.Bounded := by
  induction has with
  | root => exact bounded
  | child has member ih => exact ih.all _ member

theorem RawNode.Has.valid {root n : RawNode Ctrl} {isWild : Bool} (has : root.Has n isWild)
    (valid : root.Valid) : if isWild then n.WildValid else n.Valid := by
  induction has with
  | root => exact valid
  | @child n c isWild has member ih =>
    cases isWild with
    | true =>
      have plain : n.wildchild = false := by
        cases ih <;> assumption
      rw [plain]
      exact WildValid.below ih c member
    | false =>
      cases wild : n.wildchild with
      | true =>
        obtain ⟨w, only⟩ := Valid.only_child ih wild
        rw [only, List.mem_singleton] at member
        rw [member]
        exact Valid.wildValid ih wild only
      | false => exact (Valid.of_plain ih wild).2.2.2 c member

/-! ## The invariant -/

theorem indiceOf_isSome {children : List (RawNode Ctrl)} {indices : Str}
    (bounded : indices.length ≤ children.length) {c : Char} (member : c ∈ indices) :
    (indiceOf children indices c).isSome := by
  induction indices generalizing children with
  | nil => exact absurd member List.not_mem_nil
  | cons i indices ih =>
    cases children with
    | nil => exact absurd bounded (by simp)
    | cons child children =>
      rw [indiceOf]
      split_ifs with here
      · rfl
      · apply ih (Nat.le_of_succ_le_succ bounded)
        exact (List.mem_cons.mp member).resolve_left (Ne.symm here)

theorem WildValid.kind {w : RawNode Ctrl} (valid : w.WildValid) :
    w.wildchild = false ∧ (w.type = .PARAM ∨ w.type = .CATCH_ALL) := by
  cases valid with
  | param isParam wildPath plain => exact ⟨plain, Or.inl isParam⟩
  | catchAll isCatchAll wildPath plain => exact ⟨plain, Or.inr isCatchAll⟩

theorem Valid.shape {n : RawNode Ctrl} (valid : n.Valid) (bounded : n.Bounded) : n.Shape false where
  static _ := ⟨valid.staticPath.nonempty, valid.staticPath.noParam⟩
  indexed plain _ := by
    obtain ⟨-, indexed, nodup, -⟩ := Valid.of_plain valid plain
    refine ⟨indexed.length_eq, ?_, nodup⟩
    intro i h h'
    exact indexed.get h h'
  wild wild := by
    obtain ⟨w, only⟩ := Valid.only_child valid wild
    exact ⟨w, only, (WildValid.kind (Valid.wildValid valid wild only)).2⟩
  param _ path := by
    have noParam := valid.staticPath.noParam
    rw [path] at noParam
    exact absurd (List.mem_singleton_self _) noParam
  catchAll here := absurd here Bool.false_ne_true
  leaf none := by
    cases valid with
    | branch path plain type indexed nodup live below => exact live.resolve_right (not_not.mpr none)
    | param path wild type indices only | catchAll path wild type indices only =>
      rw [none] at only
      exact absurd only (List.cons_ne_nil _ _).symm
  bounded := bounded.here
  found _ := indiceOf_isSome bounded.here

theorem WildValid.shape {w : RawNode Ctrl} (valid : w.WildValid) (bounded : w.Bounded) :
    w.Shape true where
  static here := absurd here.symm Bool.false_ne_true
  indexed _ type := by
    cases valid with
    | param isParam => exact absurd isParam type
    | catchAll isCatchAll wildPath plain leaf =>
      have none := bounded.here
      rw [leaf, List.length_nil, Nat.le_zero, List.length_eq_zero_iff] at none
      rw [none, leaf]
      exact ⟨rfl, fun i h => absurd h (Nat.not_lt_zero i), List.nodup_nil⟩
  wild wild := by
    rw [(WildValid.kind valid).1] at wild
    exact absurd wild Bool.false_ne_true
  param isParam _ := by
    cases valid with
    | param isParam wildPath plain leaf single slash => exact ⟨single, slash⟩
    | catchAll isCatchAll => exact absurd (isParam.symm.trans isCatchAll) (by decide)
  catchAll _ isCatchAll := by
    cases valid with
    | param isParam => exact absurd (isParam.symm.trans isCatchAll) (by decide)
    | catchAll isCatchAll wildPath plain leaf handle => exact ⟨leaf, handle⟩
  leaf none := by
    cases valid with
    | param isParam wildPath plain leaf => exact (leaf none).2
    | catchAll isCatchAll wildPath plain leaf handle => exact handle
  bounded := bounded.here
  found _ := indiceOf_isSome bounded.here

/-- A tree that stores a route has been inserted into. -/
theorem WellFormed.of_stored {tree : RawTree Ctrl} (wellFormed : tree.WellFormed)
    {e : Pattern × Ctrl} (stored : e ∈ tree.entries) :
    tree.root.Valid ∧ tree.root.path.head? = some '/' := by
  rcases wellFormed with rfl | valid
  · rw [entries_empty] at stored
    exact absurd stored (Set.notMem_empty e)
  · exact valid

/-- After any calls of `addRoute` of which one is accepted, every node of the tree has its shape, and
every lookup is a walk over rounds of the expected types. -/
theorem tree_shape (pcre : Pcre) (before : List (Str × Ctrl)) (r : Str × Ctrl)
    (later : List (Str × Ctrl))
    (accepted : ((RawTree.addRoutes pcre {} before).addRoute pcre r.1 r.2).2 = .accepted) :
    let tree := RawTree.addRoutes pcre {} (before ++ r :: later)
    tree.root.path.head? = some '/' ∧
      (∀ n isWild, tree.root.Has n isWild → n.Shape isWild) ∧
      ∀ path params, ∃ s' r, Walks pcre ⟨tree.root, path, params⟩ s' ∧ Stops pcre s' r ∧
        forwardLoop pcre tree.root path params = r := by
  intro tree
  have reachable : tree.Reachable pcre := RawTree.Reachable.empty.addRoutes _
  have earlier : RawTree.Reachable pcre (RawTree.addRoutes pcre {} before) :=
    RawTree.Reachable.empty.addRoutes before
  obtain ⟨e, stored⟩ : ∃ e, e ∈ tree.entries := by
    cases parsed : parsePathSegment pcre r.1 with
    | error log =>
      rw [addRoute_unparsed parsed] at accepted
      exact absurd accepted nofun
    | ok p =>
      obtain ⟨-, table⟩ := addRoute_accepted earlier.wellFormed parsed accepted
      have here : _ ∈ ((RawTree.addRoutes pcre {} before).addRoute pcre r.1 r.2).1.entries :=
        table ▸ Set.mem_insert _ _
      have whole : tree = ((RawTree.addRoutes pcre {} before).addRoute pcre r.1 r.2).1.addRoutes pcre
          later := List.foldl_append
      rw [whole]
      exact ⟨_, entries_subset_addRoutes (earlier.wellFormed.addRoute r.1 r.2) later here⟩
  obtain ⟨valid, slash⟩ := WellFormed.of_stored reachable.wellFormed stored
  refine ⟨slash, ?_, ?_⟩
  · intro n isWild has
    have kind := has.valid valid
    have bounded := has.bounded reachable.bounded
    cases isWild with
    | true => exact WildValid.shape kind bounded
    | false => exact Valid.shape kind bounded
  · intro path params
    obtain ⟨s', r, walk, stop⟩ := exists_walk pcre valid path params
    exact ⟨s', r, walk, stop, forwardLoop_of_walk valid walk stop⟩

/-- A parameter, a route that is refused next to it, and a split. -/
theorem tree_shape_foo :
    let tree := RawTree.addRoutes anyPcre ({} : RawTree ℕ)
      [("/foo/\x7b:id\x7d".toList, 1), ("/foo/\x7b**\x7d".toList, 2), ("/bar".toList, 3)]
    tree.root.path.head? = some '/' :=
  (tree_shape anyPcre [] ("/foo/\x7b:id\x7d".toList, 1)
    [("/foo/\x7b**\x7d".toList, 2), ("/bar".toList, 3)] (by decide +kernel)).1

end Cppmhd
