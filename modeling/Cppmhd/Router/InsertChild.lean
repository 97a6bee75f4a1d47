import Cppmhd.Router.Registration

/-!
# `insertChild` on fresh nodes

On a node that holds nothing yet, `insertChild` builds a valid chain of nodes that stores exactly
the rest of the calculated path, with the queued parameters as its wildcards (`insertChild_fresh`).
On a valid leaf it adds that route below the leaf (`insertChild_graft`).
-/

open Words Table

namespace Cppmhd

variable {Ctrl : Type}

/-! ## Fresh nodes -/

/-- A rest of a calculated path with the parameters that are still queued. -/
structure Insertable (t : Str) (params : List Param) : Prop where
  shaped : Shaped t
  enough : t.count PARAM_CHAR ≤ params.length
  queued : ∀ p ∈ params, p.Queued

theorem Insertable.of_append {s t : Str} {params : List Param} (ok : Insertable (s ++ t) params) :
    Insertable t params := by
  refine ⟨(List.isChain_append.mp ok.shaped).2.1, ?_, ok.queued⟩
  have enough := ok.enough
  rw [List.count_append] at enough
  omega

theorem Insertable.pop {t : Str} {p : Param} {params : List Param}
    (ok : Insertable (PARAM_CHAR :: t) (p :: params)) : Insertable t params := by
  refine ⟨ok.shaped.tail, ?_, fun q hq => ok.queued q (List.mem_cons_of_mem p hq)⟩
  have enough := ok.enough
  rw [List.count_cons_self, List.length_cons] at enough
  omega

theorem Insertable.slash_of_placeholder {x : Char} {t : Str} {params : List Param}
    (ok : Insertable (PARAM_CHAR :: x :: t) params) : x = '/' :=
  (List.isChain_cons_cons.mp ok.shaped).1.1 rfl

section SetWild

variable (node child : RawNode Ctrl) (path : Str) (pos : ℕ) (p : Param)

@[simp] theorem setWild_wildchild : (node.setWild path pos p child).wildchild = true := by
  unfold RawNode.setWild
  split <;> rfl

@[simp] theorem setWild_children :
    (node.setWild path pos p child).children = node.children ++ [child] := by
  unfold RawNode.setWild
  split <;> rfl

@[simp] theorem setWild_handle : (node.setWild path pos p child).handle = node.handle := by
  unfold RawNode.setWild
  split <;> rfl

@[simp] theorem setWild_indices : (node.setWild path pos p child).indices = node.indices := by
  unfold RawNode.setWild
  split <;> rfl

theorem setWild_type (queued : p.Queued) : (node.setWild path pos p child).type ≠ .ROOT := by
  unfold RawNode.setWild
  split
  · simp
  · rcases queued with h | ⟨h, -⟩ <;> simp [h]

theorem setWild_path : (node.setWild path pos p child).path =
    if 0 < pos then path.take pos else node.path := by
  unfold RawNode.setWild
  split <;> rfl

end SetWild

/-- `insertChild` on a node that holds nothing yet stores exactly the path. -/
def FreshSpec (ctrl : Ctrl) (params : List Param) : Prop :=
  ∀ (node : RawNode Ctrl) (t fullPath : Str), node.children = [] → node.handle = none →
    node.wildchild = false → (node.indices = [] ∨ node.indices = ['/']) → t ≠ [] →
    t.head? ≠ some PARAM_CHAR → Insertable t params →
    (insertChild node t fullPath ctrl params).verdict = .accepted ∧
      (insertChild node t fullPath ctrl params).node.Valid ∧
      (insertChild node t fullPath ctrl params).node.path.head? = t.head? ∧
      (insertChild node t fullPath ctrl params).node.entries = {(patternOf t params, ctrl)}

/-- The node of a parameter before it gets a handle or a child. -/
def paramNode (p : Param) : RawNode Ctrl :=
  { type := p.type, re := p.re, path := [PARAM_CHAR], name := p.name }

section InsertChild

variable {node : RawNode Ctrl} {pre : Str} {p : Param} (fullPath : Str) (ctrl : Ctrl)
  (params : List Param)

theorem insertChild_paramEnd (children : node.children = []) (free : PARAM_CHAR ∉ pre)
    (isParam : p.type = .PARAM) :
    insertChild node (pre ++ [PARAM_CHAR]) fullPath ctrl (p :: params) =
      ⟨node.setWild (pre ++ [PARAM_CHAR]) pre.length p { paramNode p with handle := some ctrl },
        params, .accepted⟩ := by
  simp only [insertChild, findWildcard_append free, children, List.length_nil, lt_irrefl, if_false,
    isParam, List.drop_left, List.length_singleton, paramNode]

theorem insertChild_paramNext (children : node.children = []) (free : PARAM_CHAR ∉ pre)
    (isParam : p.type = .PARAM) (x : Char) (rest : Str) :
    insertChild node (pre ++ PARAM_CHAR :: x :: rest) fullPath ctrl (p :: params) =
      let below := insertChild { type := .UNKNOWN, indices := [x] } (x :: rest) fullPath ctrl params
      ⟨node.setWild (pre ++ PARAM_CHAR :: x :: rest) pre.length p
        { paramNode p with children := [below.node] }, below.params, below.verdict⟩ := by
  have long : 1 < (PARAM_CHAR :: x :: rest).length := by simp
  simp only [insertChild, findWildcard_append free, children, List.length_nil, lt_irrefl, if_false,
    isParam, List.drop_left, if_pos long, paramNode, List.drop_succ_cons, List.drop_zero,
    List.take_succ_cons, List.take_zero]

theorem insertChild_catchAll (children : node.children = []) (free : PARAM_CHAR ∉ pre)
    (isCatchAll : p.type = .CATCH_ALL) (rest : Str) :
    insertChild node (pre ++ PARAM_CHAR :: rest) fullPath ctrl (p :: params) =
      ⟨node.setWild (pre ++ PARAM_CHAR :: rest) pre.length p
        { type := p.type, handle := some ctrl, name := p.name }, params, .accepted⟩ := by
  simp only [insertChild, findWildcard_append free, children, List.length_nil, lt_irrefl, if_false,
    isCatchAll]

end InsertChild

/-- At a placeholder `insertChild` hangs a valid wildcard below the node. -/
theorem insertChild_wild {ctrl : Ctrl} {p : Param} {params : List Param}
    (fresh : FreshSpec ctrl params) {node : RawNode Ctrl} (children : node.children = [])
    {pre rest : Str} (free : PARAM_CHAR ∉ pre) (fullPath : Str)
    (ok : Insertable (PARAM_CHAR :: rest) (p :: params)) :
    ∃ w left, insertChild node (pre ++ PARAM_CHAR :: rest) fullPath ctrl (p :: params) =
        ⟨node.setWild (pre ++ PARAM_CHAR :: rest) pre.length p w, left, .accepted⟩ ∧
      w.WildValid ∧
      prepend [.wild w.wild] w.wildBody =
        {(patternOf (PARAM_CHAR :: rest) (p :: params), ctrl)} := by
  rcases ok.queued p List.mem_cons_self with isParam | ⟨isCatchAll, noRegex⟩
  · cases rest with
    | nil =>
      refine ⟨_, _, insertChild_paramEnd fullPath ctrl params children free isParam,
        .param isParam rfl rfl (fun _ => ⟨rfl, rfl⟩) (Nat.zero_le 1) (by simp [paramNode])
          (by simp [paramNode]), ?_⟩
      simp [RawNode.wildBody, RawNode.wild, paramNode, prepend_singleton, patternOf, Param.wild]
    | cons x rest =>
      obtain rfl := ok.slash_of_placeholder
      have below := fresh { type := .UNKNOWN, indices := ['/'] } ('/' :: rest) fullPath rfl rfl rfl
        (Or.inr rfl) (List.cons_ne_nil _ _) (by simp [PARAM_CHAR]) ok.pop
      rw [insertChild_paramNext fullPath ctrl params children free isParam]
      generalize insertChild _ ('/' :: rest) fullPath ctrl params = r at below
      obtain ⟨accepted, valid, head, entries⟩ := below
      refine ⟨{ paramNode p with children := [r.node] }, r.params, by dsimp only; rw [accepted],
        .param isParam rfl rfl (by simp) le_rfl ?_ ?_, ?_⟩
      · simpa using head
      · simpa using valid
      · simp [RawNode.wildBody, RawNode.wild, paramNode, prepend_singleton, patternOf, Param.wild,
          entries, isParam]
  · refine ⟨_, _, insertChild_catchAll fullPath ctrl params children free isCatchAll rest,
      .catchAll isCatchAll rfl rfl rfl rfl, ?_⟩
    simp [RawNode.wildBody, RawNode.wild, prepend_singleton, patternOf, Param.wild, isCatchAll,
      noRegex]

theorem entries_of_setWild {node w : RawNode Ctrl} (children : node.children = []) (path : Str)
    (pos : ℕ) (p : Param) :
    (node.setWild path pos p w).entries =
      prepend (lits (node.setWild path pos p w).path)
        (own node.handle ∪ prepend [.wild w.wild] w.wildBody) := by
  rw [RawNode.entries_eq, body_of_wild (setWild_wildchild ..) (w := w), setWild_handle]
  rw [setWild_children, children, List.nil_append]

theorem setLeaf_valid {node : RawNode Ctrl} (children : node.children = [])
    (plain : node.wildchild = false) {t : Str} (static : StaticPath t) (ctrl : Ctrl) :
    (node.setLeaf t ctrl).Valid :=
  .branch static plain rfl (by simp [RawNode.setLeaf, children, Indexed]) List.nodup_nil
    (Or.inl rfl) (by simp [RawNode.setLeaf, children])

theorem setLeaf_entries {node : RawNode Ctrl} (children : node.children = [])
    (plain : node.wildchild = false) (t : Str) (ctrl : Ctrl) :
    (node.setLeaf t ctrl).entries = {(lits t, ctrl)} := by
  have same : (node.setLeaf t ctrl).wildchild = false := plain
  rw [RawNode.entries_eq, body_of_not_wild same]
  simp [RawNode.setLeaf, children, prepend_singleton]

theorem insertChild_static {t : Str} (static : PARAM_CHAR ∉ t) (node : RawNode Ctrl)
    (fullPath : Str) (ctrl : Ctrl) (params : List Param) :
    insertChild node t fullPath ctrl params = ⟨node.setLeaf t ctrl, params, .accepted⟩ := by
  have none := (findWildcard_eq_none_iff t).mpr static
  cases params <;> simp only [insertChild, none]

theorem insertChild_fresh (ctrl : Ctrl) (params : List Param) : FreshSpec ctrl params := by
  induction params with
  | nil =>
    intro node t fullPath children handle plain indices nonempty head ok
    have static : PARAM_CHAR ∉ t := List.count_eq_zero.mp (Nat.le_zero.mp ok.enough)
    rw [insertChild_static static, patternOf_static static]
    exact ⟨rfl, setLeaf_valid children plain ⟨nonempty, static, ok.shaped⟩ ctrl, rfl,
      setLeaf_entries children plain t ctrl⟩
  | cons p params fresh =>
    intro node t fullPath children handle plain indices nonempty head ok
    by_cases wild : PARAM_CHAR ∈ t
    · obtain ⟨pre, rest, rfl, free⟩ := List.eq_append_cons_of_mem wild
      have present : pre ≠ [] := by
        rintro rfl
        exact head rfl
      obtain ⟨w, left, step, child, stored⟩ :=
        insertChild_wild fresh children free fullPath ok.of_append
      have path : (node.setWild (pre ++ PARAM_CHAR :: rest) pre.length p w).path = pre := by
        rw [setWild_path, if_pos (List.length_pos_iff.mpr present), List.take_left]
      have static : StaticPath pre := ⟨present, free, (List.isChain_append.mp ok.shaped).1⟩
      rw [step]
      refine ⟨rfl, .ofWild (path.symm ▸ static) (setWild_wildchild ..)
        (setWild_type _ _ _ _ _ (ok.queued p List.mem_cons_self)) (by simpa using indices)
        (by simp [children]) child, ?_, ?_⟩
      · rw [path, List.head?_append_of_ne_nil _ present]
      · rw [entries_of_setWild children, path, handle, own_none, Set.empty_union, stored,
          prepend_singleton, patternOf_append free]
    · rw [insertChild_static wild, patternOf_static wild]
      exact ⟨rfl, setLeaf_valid children plain ⟨nonempty, wild, ok.shaped⟩ ctrl, rfl,
        setLeaf_entries children plain t ctrl⟩

end Cppmhd
