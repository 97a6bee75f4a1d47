import Cppmhd.Router.RawNodes
import Cppmhd.Router.Shape

/-!
# Insertion through pointers

`RawTree::insert` and `RawTree::insertChild` of `router.cc` as they follow pointers and assign members of
the nodes that they reach.  On a tree in memory they return what `insertLoop` and `insertChild` return
on the tree, no assertion fails, and they leave the tree that these return, in its own blocks and new
ones (`insertAt_spec`).
-/

open Heap Runs

namespace Cppmhd

variable {Ctrl : Type}

/-- The node takes what precedes its placeholder. -/
def cutAt (m : Memory (Cell Ctrl)) (node : ℕ) (path : Str) (paramPos : ℕ) (type : RouterNodeType) :
    Option (Memory (Cell Ctrl)) :=
  assignAt m node fun o =>
    if 0 < paramPos then { o with path := path.take paramPos, type := .STATIC } else { o with type }

/-- The end of `insertChild`, where no placeholder is left. -/
def setLeafAt (m : Memory (Cell Ctrl)) (node : ℕ) (path : Str) (ctrl : Ctrl) :
    Option (Memory (Cell Ctrl)) :=
  assignAt m node fun o => { o with path, handle := some ctrl, type := .STATIC, indices := [] }

/-- Source `RawTree::insertChild`: what it leaves of the queue, and how it ends. -/
def insertChildAt (m : Memory (Cell Ctrl)) (node : ℕ) (path fullPath : Str) (ctrl : Ctrl) :
    List Param → Option (Memory (Cell Ctrl) × List Param × Verdict)
  | [] =>
    match findWildcard path with
    | none => do
      let m ← setLeafAt m node path ctrl
      some (m, [], .accepted)
    -- assert(parser.params.size() >= 1)
    | some _ => none
  | wild :: params =>
    match findWildcard path with
    | none => do
      let m ← setLeafAt m node path ctrl
      some (m, wild :: params, .accepted)
    | some paramPos => do
      let o ← rawAt m node
      if 0 < o.children.length then
        some (m, params, .refused [.segmentConflict wild.pattern fullPath])
      else match wild.type with
      | .PARAM => do
        let m ← cutAt m node path paramPos wild.type
        let path := path.drop paramPos
        let m ← assignAt m node fun o => { o with wildchild := true }
        let (m, child) ← newChild m node
          { type := wild.type, re := wild.re, path := [PARAM_CHAR], name := wild.name }
        if 1 < path.length then do
          let path := path.drop 1
          let (m, nChild) ← newChild m child { type := .UNKNOWN, indices := path.take 1 }
          insertChildAt m nChild path fullPath ctrl params
        else do
          let m ← assignAt m child fun o => { o with handle := some ctrl }
          some (m, params, .accepted)
      | .CATCH_ALL => do
        let m ← cutAt m node path paramPos wild.type
        let m ← assignAt m node fun o => { o with wildchild := true }
        let (m, child) ← newChild m node { type := wild.type }
        let m ← assignAt m child fun o => { o with handle := some ctrl, name := wild.name }
        some (m, params, .accepted)
      -- assert(false)
      | _ => none

/-- The loop of `RawNode::indice`, from index `i` on, with its assertion. -/
def indexFrom (children : List ℕ) (c : Char) : Str → ℕ → Option (Option ℕ)
  | [], _ => some none
  | x :: indices, i => if x = c then children[i]?.map some else indexFrom children c indices (i + 1)

/-- Source `RawNode::indice`. -/
def RawObject.indice (o : RawObject Ctrl) (c : Char) : Option (Option ℕ) :=
  indexFrom o.children c o.indices 0

/-- The node keeps the first `i` characters of its path, and a new child gets the rest. -/
def splitAt (m : Memory (Cell Ctrl)) (node : ℕ) (path : Str) (i : ℕ) :
    Option (Memory (Cell Ctrl)) := do
  let o ← rawAt m node
  let child := m.next
  assignAt (m.alloc [.raw { o with path := o.path.drop i }]) node fun o => { o with
    path := path.take i
    indices := (o.path.drop i).take 1
    children := [child]
    handle := none
    re := .null
    type := .STATIC
    wildchild := false }

/-- The end of the walk at a node that no index leads on from. -/
def attachAt (m : Memory (Cell Ctrl)) (node : ℕ) (path : Str) (parser : PathParser) (ctrl : Ctrl) :
    Option (Memory (Cell Ctrl) × List Param × Verdict) :=
  if path.head? ≠ some PARAM_CHAR then do
    let m ← assignAt m node fun o => { o with indices := o.indices ++ path.take 1 }
    let (m, child) ← newChild m node { type := .STATIC }
    insertChildAt m child path parser.actualFullPath ctrl parser.params
  else insertChildAt m node path parser.actualFullPath ctrl parser.params

/-- The end of the walk where the whole path is consumed. -/
def setHandleAt (m : Memory (Cell Ctrl)) (node : ℕ) (parser : PathParser) (ctrl : Ctrl) :
    Option (Memory (Cell Ctrl) × List Param × Verdict) := do
  let o ← rawAt m node
  if o.handle.isSome then
    some (m, parser.params, .refused [.handleExists parser.actualFullPath])
  else do
    let m ← assignAt m node fun o => { o with handle := some ctrl }
    some (m, parser.params, .accepted)

/-- The `while (true)` loop of source `RawTree::insert`. -/
def insertAt (m : Memory (Cell Ctrl)) (node : ℕ) (path : Str) (parser : PathParser) (ctrl : Ctrl) :
    ℕ → Option (Memory (Cell Ctrl) × List Param × Verdict)
  | 0 => none
  | fuel + 1 => do
    let o ← rawAt m node
    let i := findLongestCommonPrefix path o.path
    let m ← if i < o.path.length then splitAt m node path i else some m
    let o ← rawAt m node
    if i < path.length then
      let path := path.drop i
      if o.wildchild then do
        let child ← o.children.head?
        let c ← rawAt m child
        if isPrefix path c.path && c.type != .CATCH_ALL &&
            (decide (path.length ≤ c.path.length) || path[c.path.length]? == some '/') then
          insertAt m child path parser ctrl fuel
        else some (m, parser.params, .refused [.wildcardConflict parser.actualFullPath])
      -- '/' after param
      else if o.type = .PARAM ∧ path.head? = some '/' ∧ o.children.length = 1 then do
        let child ← o.children.head?
        insertAt m child path parser ctrl fuel
      else do
        let ch ← path.head?
        match ← o.indice ch with
        | some next => insertAt m next path parser ctrl fuel
        | none => attachAt m node path parser ctrl
    else setHandleAt m node parser ctrl

section Rules

variable {m : Memory (Cell Ctrl)} {n : RawNode Ctrl} {p : ℕ} {own : Set ℕ}

/-! ## `insertChild` -/

/-- The node with what precedes its placeholder. -/
def RawNode.cut (n : RawNode Ctrl) (path : Str) (paramPos : ℕ) (type : RouterNodeType) :
    RawNode Ctrl :=
  if 0 < paramPos then { n with path := path.take paramPos, type := .STATIC } else { n with type }

theorem cut_setWild (n c : RawNode Ctrl) (path : Str) (paramPos : ℕ) (wild : Param) :
    { n.cut path paramPos wild.type with
      wildchild := true, children := (n.cut path paramPos wild.type).children ++ [c] } =
        n.setWild path paramPos wild c := by
  unfold RawNode.cut RawNode.setWild
  split_ifs <;> rfl

/-- The wildcard child is put below the node, and the rest is done there. -/
theorem setWild_spec (held : Held m n p own) (fresh : m.Fresh) (path : Str) (paramPos : ℕ)
    (wild : Param) (child : RawObject Ctrl) (leaf : child.children = []) :
    ∃ m₁ m₂ m₃ c, cutAt m p path paramPos wild.type = some m₁ ∧
      assignAt m₁ p (fun o => { o with wildchild := true }) = some m₂ ∧
      newChild m₂ p child = some (m₃, c) ∧ m₃.Fresh ∧ Held m₃ child.leaf c {c} ∧
      ∀ m' c', Becomes m₃ m' c {c} c' → Becomes m m' p own (n.setWild path paramPos wild c') := by
  obtain ⟨m₁, cut, hands₁, held₁⟩ := assignAt_spec held fresh
    (f := fun o => if 0 < paramPos then { o with path := path.take paramPos, type := .STATIC }
      else { o with type := wild.type })
    (n.cut path paramPos wild.type) (by unfold RawNode.cut; split_ifs <;> rfl)
    (fun ps => by unfold RawNode.cut RawNode.raw; split_ifs <;> rfl)
  obtain ⟨m₂, marked, hands₂, held₂⟩ := assignAt_spec held₁ hands₁.fresh
    (f := fun o => { o with wildchild := true })
    { n.cut path paramPos wild.type with wildchild := true } rfl (fun ps => rfl)
  obtain ⟨m₃, c, pushed, fresh₃, heldChild, after⟩ := newChild_spec held₂ hands₂.fresh child leaf
  refine ⟨m₁, m₂, m₃, c, cut, marked, pushed, fresh₃, heldChild, fun m' c' becomes => ?_⟩
  have whole := ((after m' c' becomes).after hands₂).after hands₁
  rwa [cut_setWild] at whole

theorem setLeafAt_spec (held : Held m n p own) (fresh : m.Fresh) (path : Str) (ctrl : Ctrl) :
    ∃ m', setLeafAt m p path ctrl = some m' ∧ Becomes m m' p own (n.setLeaf path ctrl) := by
  obtain ⟨m₁, leaf, hands, held₁⟩ := assignAt_spec held fresh
    (f := fun o => { o with path, handle := some ctrl, type := .STATIC, indices := [] })
    (n.setLeaf path ctrl) rfl (fun ps => rfl)
  exact ⟨m₁, leaf, own, hands, held₁⟩

/-- `insertChild` does in memory what it does on the tree, and fails no assertion. -/
theorem insertChildAt_spec (params : List Param) (held : Held m n p own) (fresh : m.Fresh)
    (path fullPath : Str) (ctrl : Ctrl)
    (defined : (insertChild n path fullPath ctrl params).verdict ≠ .undefined) :
    ∃ m', insertChildAt m p path fullPath ctrl params =
        some (m', (insertChild n path fullPath ctrl params).params,
          (insertChild n path fullPath ctrl params).verdict) ∧
      Becomes m m' p own (insertChild n path fullPath ctrl params).node := by
  induction params generalizing m n p own path with
  | nil =>
    rw [insertChild] at defined ⊢
    rw [insertChildAt]
    cases found : findWildcard path with
    | none =>
      obtain ⟨m', leaf, becomes⟩ := setLeafAt_spec held fresh path ctrl
      refine ⟨m', ?_, becomes⟩
      dsimp only
      rw [leaf]
      rfl
    | some paramPos =>
      rw [found] at defined
      exact absurd rfl defined
  | cons wild params ih =>
    rw [insertChild] at defined ⊢
    rw [insertChildAt]
    cases found : findWildcard path with
    | none =>
      obtain ⟨m', leaf, becomes⟩ := setLeafAt_spec held fresh path ctrl
      refine ⟨m', ?_, becomes⟩
      dsimp only
      rw [leaf]
      rfl
    | some paramPos =>
      rw [found] at defined
      dsimp only at defined ⊢
      obtain ⟨ps, read, count⟩ := held.read
      have count : (n.raw ps).children.length = n.children.length := count
      rw [read, Option.bind_eq_bind, Option.bind_some, count]
      by_cases occupied : 0 < n.children.length
      · rw [if_pos occupied, if_pos occupied]
        exact ⟨m, rfl, .refl held fresh⟩
      rw [if_neg occupied] at defined ⊢
      rw [if_neg occupied]
      cases kind : wild.type with
      | PARAM =>
        rw [kind] at defined
        dsimp only at defined ⊢
        obtain ⟨m₁, m₂, m₃, c, cut, marked, pushed, fresh₃, heldChild, after⟩ := setWild_spec held fresh
          path paramPos wild
          { type := .PARAM, re := wild.re, path := [PARAM_CHAR], name := wild.name } rfl
        rw [kind] at cut
        simp only [cut, marked, pushed, Option.bind_eq_bind, Option.bind_some]
        by_cases long : 1 < (path.drop paramPos).length
        · rw [if_pos long] at defined ⊢
          rw [if_pos long]
          obtain ⟨m₄, q, pushed₄, fresh₄, heldNext, after₄⟩ := newChild_spec heldChild fresh₃
            { type := .UNKNOWN, indices := ((path.drop paramPos).drop 1).take 1 } rfl
          obtain ⟨m', inserted, becomes⟩ := ih heldNext fresh₄ ((path.drop paramPos).drop 1) defined
          refine ⟨m', ?_, after _ _ (after₄ _ _ becomes)⟩
          rw [pushed₄, Option.bind_some]
          exact inserted
        · rw [if_neg long] at defined ⊢
          rw [if_neg long]
          obtain ⟨m₄, handled, hands₄, held₄⟩ := assignAt_spec heldChild fresh₃
            (f := fun o => { o with handle := some ctrl })
            { type := .PARAM, re := wild.re, path := [PARAM_CHAR], name := wild.name,
              handle := some ctrl } rfl (fun ps => rfl)
          refine ⟨m₄, ?_, after _ _ ⟨_, hands₄, held₄⟩⟩
          rw [handled]
          rfl
      | CATCH_ALL =>
        obtain ⟨m₁, m₂, m₃, c, cut, marked, pushed, fresh₃, heldChild, after⟩ := setWild_spec held fresh
          path paramPos wild { type := .CATCH_ALL } rfl
        rw [kind] at cut
        obtain ⟨m₄, handled, hands₄, held₄⟩ := assignAt_spec heldChild fresh₃
          (f := fun o => { o with handle := some ctrl, name := wild.name })
          { type := .CATCH_ALL, handle := some ctrl, name := wild.name } rfl (fun ps => rfl)
        refine ⟨m₄, ?_, after _ _ ⟨_, hands₄, held₄⟩⟩
        simp only [cut, marked, pushed, Option.bind_eq_bind, Option.bind_some]
        rw [handled]
        rfl
      | UNKNOWN | ROOT | STATIC =>
        rw [kind] at defined
        exact absurd rfl defined

/-! ## `insert` -/

/-- The end of the walk at a node that no index leads on from. -/
theorem attachAt_spec (held : Held m n p own) (fresh : m.Fresh) (path : Str) (parser : PathParser)
    (ctrl : Ctrl) (defined : (n.attach path parser ctrl).verdict ≠ .undefined) :
    ∃ m', attachAt m p path parser ctrl =
        some (m', (n.attach path parser ctrl).params, (n.attach path parser ctrl).verdict) ∧
      Becomes m m' p own (n.attach path parser ctrl).node := by
  rw [RawNode.attach] at defined ⊢
  rw [attachAt]
  by_cases literal : path.head? ≠ some PARAM_CHAR
  · rw [if_pos literal] at defined ⊢
    rw [if_pos literal]
    obtain ⟨m₁, indexed, hands₁, held₁⟩ := assignAt_spec held fresh
      (f := fun o => { o with indices := o.indices ++ path.take 1 })
      { n with indices := n.indices ++ path.take 1 } rfl (fun ps => rfl)
    obtain ⟨m₂, c, pushed, fresh₂, heldChild, after⟩ :=
      newChild_spec held₁ hands₁.fresh { type := .STATIC } rfl
    obtain ⟨m', inserted, becomes⟩ := insertChildAt_spec parser.params heldChild fresh₂ path
      parser.actualFullPath ctrl defined
    refine ⟨m', ?_, (after _ _ becomes).after hands₁⟩
    simp only [indexed, pushed, Option.bind_eq_bind, Option.bind_some]
    exact inserted
  · rw [if_neg literal] at defined ⊢
    rw [if_neg literal]
    exact insertChildAt_spec parser.params held fresh path parser.actualFullPath ctrl defined

theorem setHandleAt_spec (held : Held m n p own) (fresh : m.Fresh) (parser : PathParser) (ctrl : Ctrl) :
    ∃ m', setHandleAt m p parser ctrl =
        some (m', (n.setHandle parser ctrl).params, (n.setHandle parser ctrl).verdict) ∧
      Becomes m m' p own (n.setHandle parser ctrl).node := by
  obtain ⟨ps, read, -⟩ := held.read
  have handle : (n.raw ps).handle = n.handle := rfl
  rw [RawNode.setHandle, setHandleAt, read, Option.bind_eq_bind, Option.bind_some, handle]
  by_cases taken : n.handle.isSome = true
  · rw [if_pos taken, if_pos taken]
    exact ⟨m, rfl, .refl held fresh⟩
  · rw [if_neg taken, if_neg taken]
    obtain ⟨m₁, assigned, hands₁, held₁⟩ := assignAt_spec held fresh
      (f := fun o => { o with handle := some ctrl }) { n with handle := some ctrl } rfl (fun ps => rfl)
    refine ⟨m₁, ?_, own, hands₁, held₁⟩
    rw [assigned]
    rfl

/-- The node is split. -/
theorem splitAt_spec (held : Held m n p own) (fresh : m.Fresh) (path : Str) (i : ℕ) :
    ∃ m₁, splitAt m p path i = some m₁ ∧ Becomes m m₁ p own (n.split i path) := by
  have live := held.live
  rw [held_iff] at held
  obtain ⟨ps, below, here, all, outside, rfl⟩ := held
  let lower : RawNode Ctrl := { n with path := n.path.drop i }
  have first := Memory.Hands.alloc fresh live [.raw (lower.raw ps)]
  have second := Memory.Hands.store first.fresh (fun b own => ((first.live b).mp own).1)
    (Set.mem_insert_of_mem _ (Set.mem_insert p below)) [.raw ((n.split i path).raw [m.next])]
  have hands := first.trans second
  have old : ∀ b ∈ insert p below, b ≠ m.next := fun b own => (fresh.lt_next (live b own)).ne
  have other : m.next ≠ p := (old p (Set.mem_insert p below)).symm
  generalize final : (m.alloc [.raw (lower.raw ps)]).store p [.raw ((n.split i path).raw [m.next])] = m₁
    at second hands
  have moved : HeldAll m₁ lower.children ps below := by
    refine all.frame fun b own => ?_
    rw [← final, Memory.store_other (ne_of_mem_of_not_mem own outside),
      Memory.alloc_other _ _ (old b (Set.mem_insert_of_mem p own))]
  have child : Held m₁ lower m.next (insert m.next below) := by
    refine held_iff.mpr ⟨ps, below, ?_, moved, fun own => old _ (Set.mem_insert_of_mem p own) rfl, rfl⟩
    rw [← final, Memory.store_other other, Memory.alloc_self]
  refine ⟨m₁, ?_, insert m.next (insert p below), hands, ?_⟩
  · have there : (m.alloc [.raw (lower.raw ps)]).block p = some [.raw (n.raw ps)] := by
      rw [Memory.alloc_other _ _ other.symm, here]
    have read : rawAt m p = some (n.raw ps) := by
      rw [rawAt, here]
    have object : { n.raw ps with path := (n.raw ps).path.drop i } = lower.raw ps := rfl
    rw [splitAt, read, Option.bind_eq_bind, Option.bind_some, object]
    dsimp only
    rw [assignAt, rawAt, there, ← final]
    rfl
  · refine held_iff.mpr ⟨[m.next], insert m.next below, ?_, ?_, ?_, Set.insert_comm _ _ _⟩
    · rw [← final, Memory.store_self]
    · have only := heldAll_nil.append child (Set.empty_disjoint _)
      rwa [Set.empty_union] at only
    · rintro (same | inside)
      · exact other same.symm
      · exact outside inside

/-- `indice` selects the child that `insertIndice` goes on with, and its assertion holds. -/
theorem indexFrom_insertIndice {children : List (RawNode Ctrl)} {indices : Str} {all ps : List ℕ} {i : ℕ}
    (x : Char) (t : Str) (parser : PathParser) (ctrl : Ctrl) (rest : all.drop i = ps)
    (length : ps.length = children.length) (bounded : indices.length ≤ children.length) :
    (∃ before child after q, children = before ++ child :: after ∧ ps[before.length]? = some q ∧
      indexFrom all x indices i = some (some q) ∧
      insertIndice children indices (x :: t) parser ctrl =
        some (before ++ (insertLoop child (x :: t) parser ctrl).node :: after,
          (insertLoop child (x :: t) parser ctrl).params,
          (insertLoop child (x :: t) parser ctrl).verdict)) ∨
    indexFrom all x indices i = some none ∧
      insertIndice children indices (x :: t) parser ctrl = none := by
  induction indices generalizing children ps i with
  | nil =>
    refine Or.inr ⟨rfl, ?_⟩
    cases children <;> simp only [insertIndice]
  | cons y indices ih =>
    cases children with
    | nil => exact absurd bounded (by simp)
    | cons child children =>
      cases ps with
      | nil => exact absurd length (by simp)
      | cons q ps =>
        rw [indexFrom, insertIndice]
        have entry : all[i]? = some q := by
          rw [← List.head?_drop, rest]
          rfl
        by_cases same : y = x
        · left
          refine ⟨[], child, children, q, rfl, rfl, ?_, ?_⟩
          · rw [if_pos same, entry]
            rfl
          · rw [if_pos (by rw [same]; rfl)]
            rfl
        · have differs : ¬ (x :: t).head? = some y := fun head => same (Option.some.inj head).symm
          rw [if_neg same, if_neg differs]
          rcases ih (i := i + 1) (by rw [← List.tail_drop, rest, List.tail_cons])
            (Nat.succ.inj length) (Nat.le_of_succ_le_succ bounded) with
            ⟨before, c, after, q', rfl, entry', found, inserted⟩ | ⟨absent, none⟩
          · left
            refine ⟨child :: before, c, after, q', rfl, by simpa using entry', found, ?_⟩
            rw [inserted]
            rfl
          · right
            rw [none]
            exact ⟨absent, rfl⟩

/-- One round of the walk on the tree behind the path of a node. -/
def behindPath (n : RawNode Ctrl) (path : Str) (parser : PathParser) (ctrl : Ctrl) : Insertion Ctrl :=
  if n.wildchild then
    match n.children with
    | [] => ⟨n, parser.params, .undefined⟩
    | child :: rest =>
      if child.admits path then
        let below := insertLoop child path parser ctrl
        ⟨{ n with children := below.node :: rest }, below.params, below.verdict⟩
      else ⟨n, parser.params, .refused [.wildcardConflict parser.actualFullPath]⟩
  else if n.type = .PARAM ∧ path.head? = some '/' ∧ n.children.length = 1 then
    match n.children with
    | [] => ⟨n, parser.params, .undefined⟩
    | child :: rest =>
      let below := insertLoop child path parser ctrl
      ⟨{ n with children := below.node :: rest }, below.params, below.verdict⟩
  else
    match insertIndice n.children n.indices path parser ctrl with
    | some (children, params, verdict) => ⟨{ n with children }, params, verdict⟩
    | none => n.attach path parser ctrl

theorem insertLoop_eq (n : RawNode Ctrl) (path : Str) (parser : PathParser) (ctrl : Ctrl) :
    insertLoop n path parser ctrl =
      if findLongestCommonPrefix path n.path < n.path.length then
        if findLongestCommonPrefix path n.path < path.length then
          (n.split (findLongestCommonPrefix path n.path) path).attach
            (path.drop (findLongestCommonPrefix path n.path)) parser ctrl
        else (n.split (findLongestCommonPrefix path n.path) path).setHandle parser ctrl
      else if findLongestCommonPrefix path n.path < path.length then
        behindPath n (path.drop (findLongestCommonPrefix path n.path)) parser ctrl
      else n.setHandle parser ctrl := by
  obtain ⟨nodePath, indices, children, handle, type, re, name, wildchild⟩ := n
  rw [insertLoop]
  cases children <;> rfl

/-- A round behind the path of a node: what `insertAt` does there with so much fuel. -/
def behindAt (m : Memory (Cell Ctrl)) (node : ℕ) (o : RawObject Ctrl) (path : Str) (parser : PathParser)
    (ctrl : Ctrl) (fuel : ℕ) : Option (Memory (Cell Ctrl) × List Param × Verdict) :=
  if o.wildchild then do
    let child ← o.children.head?
    let c ← rawAt m child
    if isPrefix path c.path && c.type != .CATCH_ALL &&
        (decide (path.length ≤ c.path.length) || path[c.path.length]? == some '/') then
      insertAt m child path parser ctrl fuel
    else some (m, parser.params, .refused [.wildcardConflict parser.actualFullPath])
  else if o.type = .PARAM ∧ path.head? = some '/' ∧ o.children.length = 1 then do
    let child ← o.children.head?
    insertAt m child path parser ctrl fuel
  else do
    let ch ← path.head?
    match ← o.indice ch with
    | some next => insertAt m next path parser ctrl fuel
    | none => attachAt m node path parser ctrl

theorem insertAt_succ (m : Memory (Cell Ctrl)) (p : ℕ) (path : Str) (parser : PathParser) (ctrl : Ctrl)
    (fuel : ℕ) : insertAt m p path parser ctrl (fuel + 1) = (do
      let o ← rawAt m p
      let i := findLongestCommonPrefix path o.path
      let m ← if i < o.path.length then splitAt m p path i else some m
      let o ← rawAt m p
      if i < path.length then behindAt m p o (path.drop i) parser ctrl fuel
      else setHandleAt m p parser ctrl) := rfl

/-- What the walk does at `p` in memory is what it does on the tree. -/
def Inserts (m : Memory (Cell Ctrl)) (p : ℕ) (own : Set ℕ)
    (walk : ℕ → Option (Memory (Cell Ctrl) × List Param × Verdict)) (r : Insertion Ctrl) : Prop :=
  ∃ m', Returns walk (m', r.params, r.verdict) ∧ Becomes m m' p own r.node

/-- The walk goes on at a child. -/
theorem inserts_below {before after : List (RawNode Ctrl)} {q : ℕ} {here : Set ℕ}
    {walk : ℕ → Option (Memory (Cell Ctrl) × List Param × Verdict)} {below : Insertion Ctrl}
    (replace : ∀ m₂ c', Becomes m m₂ q here c' →
      Becomes m m₂ p own { n with children := before ++ c' :: after })
    (inserts : Inserts m q here walk below) :
    Inserts m p own walk
      ⟨{ n with children := before ++ below.node :: after }, below.params, below.verdict⟩ := by
  obtain ⟨m', returns, becomes⟩ := inserts
  exact ⟨m', returns, replace m' _ becomes⟩

theorem behindAt_spec (held : Held m n p own) (fresh : m.Fresh) (bounded : n.Bounded) {ps : List ℕ}
    (read : rawAt m p = some (n.raw ps)) {path : Str} (left : path ≠ []) (parser : PathParser)
    (ctrl : Ctrl) (defined : (behindPath n path parser ctrl).verdict ≠ .undefined)
    (ih : ∀ c ∈ n.children, ∀ q here, Held m c q here →
      (insertLoop c path parser ctrl).verdict ≠ .undefined →
        Inserts m q here (insertAt m q path parser ctrl) (insertLoop c path parser ctrl)) :
    Inserts m p own (behindAt m p (n.raw ps) path parser ctrl) (behindPath n path parser ctrl) := by
  have wildchild : (n.raw ps).wildchild = n.wildchild := rfl
  have type : (n.raw ps).type = n.type := rfl
  have pointers : (n.raw ps).children = ps := rfl
  obtain ⟨ps', read', count⟩ := held.read
  obtain rfl : ps' = ps := congrArg RawObject.children (Option.some.inj (read'.symm.trans read))
  unfold behindAt
  unfold behindPath at defined ⊢
  rw [wildchild, type, pointers, count]
  by_cases wild : n.wildchild = true
  · simp only [if_pos wild] at defined ⊢
    cases children : n.children with
    | nil =>
      rw [children] at defined
      exact absurd rfl defined
    | cons c after =>
      rw [children] at defined
      have whole : n.children = [] ++ c :: after := children
      obtain ⟨q, here, entry, heldC, replace⟩ := held.focus fresh read whole
      obtain ⟨psC, readC, -⟩ := heldC.read
      have first : ps'.head? = some q := by
        rw [List.head?_eq_getElem?]
        exact entry
      have admits : (isPrefix path (c.raw psC).path && (c.raw psC).type != .CATCH_ALL &&
          (decide (path.length ≤ (c.raw psC).path.length) ||
            path[(c.raw psC).path.length]? == some '/')) = c.admits path := rfl
      simp only [first, readC, admits, Option.bind_eq_bind, Option.bind_some]
      dsimp only at defined ⊢
      by_cases enters : c.admits path = true
      · simp only [if_pos enters] at defined ⊢
        exact inserts_below replace (ih c (by simp [children]) q here heldC defined)
      · simp only [if_neg enters]
        exact ⟨m, .of_all fun _ => rfl, .refl held fresh⟩
  · simp only [if_neg wild] at defined ⊢
    by_cases slash : n.type = .PARAM ∧ path.head? = some '/' ∧ n.children.length = 1
    · simp only [if_pos slash] at defined ⊢
      cases children : n.children with
      | nil =>
        rw [children] at defined
        exact absurd rfl defined
      | cons c after =>
        rw [children] at defined
        have whole : n.children = [] ++ c :: after := children
        obtain ⟨q, here, entry, heldC, replace⟩ := held.focus fresh read whole
        have first : ps'.head? = some q := by
          rw [List.head?_eq_getElem?]
          exact entry
        simp only [first, Option.bind_eq_bind, Option.bind_some]
        exact inserts_below replace (ih c (by simp [children]) q here heldC defined)
    · simp only [if_neg slash] at defined ⊢
      obtain ⟨x, t, rfl⟩ := List.exists_cons_of_ne_nil left
      have index : (n.raw ps').indice x = indexFrom ps' x n.indices 0 := rfl
      have whole : ps'.drop 0 = ps' := rfl
      simp only [List.head?_cons, Option.bind_eq_bind, Option.bind_some, index]
      rcases indexFrom_insertIndice x t parser ctrl whole count bounded.here with
        ⟨before, c, after, q, children, entry, found, inserted⟩ | ⟨absent, none⟩
      · rw [inserted] at defined
        obtain ⟨q', here, entry', heldC, replace⟩ := held.focus fresh read children
        obtain rfl : q = q' := Option.some.inj (entry.symm.trans entry')
        rw [inserted]
        simp only [found, Option.bind_some]
        exact inserts_below replace (ih c (by simp [children]) q here heldC defined)
      · rw [none] at defined
        rw [none]
        simp only [absent, Option.bind_some]
        obtain ⟨m', attached, becomes⟩ := attachAt_spec held fresh (x :: t) parser ctrl defined
        exact ⟨m', .of_all fun _ => attached, becomes⟩

/-- The index that a split leaves does not lead on. -/
theorem behindAt_split (m : Memory (Cell Ctrl)) (p : ℕ) (ps : List ℕ) (parser : PathParser) (ctrl : Ctrl)
    (fuel : ℕ) {path : Str} (splits : findLongestCommonPrefix path n.path < n.path.length)
    (behind : findLongestCommonPrefix path n.path < path.length) :
    behindAt m p ((n.split (findLongestCommonPrefix path n.path) path).raw ps)
        (path.drop (findLongestCommonPrefix path n.path)) parser ctrl fuel =
      attachAt m p (path.drop (findLongestCommonPrefix path n.path)) parser ctrl := by
  obtain ⟨pre, u, v, rfl, nodePath, length, differ⟩ := findLongestCommonPrefix_cases path n.path
  rw [length] at splits behind ⊢
  rw [nodePath, List.length_append] at splits
  rw [List.length_append] at behind
  obtain ⟨x, t, rfl⟩ := List.exists_cons_of_length_pos (l := u) (by omega)
  obtain ⟨y, w, rfl⟩ := List.exists_cons_of_length_pos (l := v) (by omega)
  have other : y ≠ x := (differ x y rfl rfl).symm
  have indices : (n.split pre.length (pre ++ x :: t)).indices = [y] := by
    simp [RawNode.split, nodePath]
  have index : ((n.split pre.length (pre ++ x :: t)).raw ps).indice x = some none := by
    have loop : ((n.split pre.length (pre ++ x :: t)).raw ps).indice x =
        indexFrom ps x (n.split pre.length (pre ++ x :: t)).indices 0 := rfl
    rw [loop, indices, indexFrom, if_neg other]
    rfl
  have plain : ((n.split pre.length (pre ++ x :: t)).raw ps).wildchild = false := rfl
  have type : ((n.split pre.length (pre ++ x :: t)).raw ps).type = .STATIC := rfl
  rw [List.drop_left]
  simp [behindAt, plain, type, index]

/-- `insert` does in memory what it does on the tree, and fails no assertion. -/
theorem insertAt_spec (held : Held m n p own) (fresh : m.Fresh) (bounded : n.Bounded) (path : Str)
    (parser : PathParser) (ctrl : Ctrl) (defined : (insertLoop n path parser ctrl).verdict ≠ .undefined) :
    Inserts m p own (insertAt m p path parser ctrl) (insertLoop n path parser ctrl) := by
  induction size : sizeOf n using Nat.strong_induction_on generalizing m n p own path with
  | _ k ih =>
    obtain ⟨ps, read, -⟩ := held.read
    have nodePath : (n.raw ps).path = n.path := rfl
    rw [insertLoop_eq] at defined ⊢
    by_cases splits : findLongestCommonPrefix path n.path < n.path.length
    · rw [if_pos splits] at defined ⊢
      obtain ⟨m₁, split, own₁, hands₁, held₁⟩ := splitAt_spec held fresh path
        (findLongestCommonPrefix path n.path)
      obtain ⟨ps₁, read₁, -⟩ := held₁.read
      by_cases behind : findLongestCommonPrefix path n.path < path.length
      · rw [if_pos behind] at defined ⊢
        obtain ⟨m', attached, becomes⟩ := attachAt_spec held₁ hands₁.fresh _ parser ctrl defined
        refine ⟨m', .succ fun fuel => ?_, becomes.after hands₁⟩
        simp only [insertAt_succ, read, nodePath, splits, split, read₁, behind, if_true,
          Option.bind_eq_bind, Option.bind_some]
        rw [behindAt_split m₁ p ps₁ parser ctrl fuel splits behind, attached]
      · rw [if_neg behind] at defined ⊢
        obtain ⟨m', ended, becomes⟩ := setHandleAt_spec held₁ hands₁.fresh parser ctrl
        refine ⟨m', .succ fun fuel => ?_, becomes.after hands₁⟩
        simp only [insertAt_succ, read, nodePath, splits, split, read₁, behind, if_true, if_false,
          Option.bind_eq_bind, Option.bind_some]
        exact ended
    · rw [if_neg splits] at defined ⊢
      by_cases behind : findLongestCommonPrefix path n.path < path.length
      · rw [if_pos behind] at defined ⊢
        have left : path.drop (findLongestCommonPrefix path n.path) ≠ [] := by
          rw [Ne, List.drop_eq_nil_iff]
          omega
        obtain ⟨m', returns, becomes⟩ := behindAt_spec held fresh bounded read left parser ctrl defined
          fun c member q here heldC definedC => ih (sizeOf c) (size ▸ sizeOf_child member) heldC fresh
            (bounded.all c member) _ definedC rfl
        refine ⟨m', returns.next fun fuel => ?_, becomes⟩
        simp only [insertAt_succ, read, nodePath, splits, behind, if_true, if_false,
          Option.bind_eq_bind, Option.bind_some]
      · rw [if_neg behind] at defined ⊢
        obtain ⟨m', ended, becomes⟩ := setHandleAt_spec held fresh parser ctrl
        refine ⟨m', .succ fun fuel => ?_, becomes⟩
        simp only [insertAt_succ, read, nodePath, splits, behind, if_false, Option.bind_eq_bind,
          Option.bind_some]
        exact ended

end Rules

/-! ## `addRoute` -/

/-- Source `RawTree::addRoute`, for the tree whose root this is. -/
def addRouteAt (pcre : Pcre) (m : Memory (Cell Ctrl)) (root : ℕ) (path : Str) (ctrl : Ctrl) (fuel : ℕ) :
    Option (Memory (Cell Ctrl) × Verdict) :=
  match parsePathSegment pcre path with
  | .error log => some (m, .refused log)
  | .ok p => do
    let o ← rawAt m root
    if o.path = [] ∧ o.indices = [] then do
      let r ← insertChildAt m root p.calced p.actualFullPath ctrl p.params
      some (r.1, .accepted)
    else do
      let r ← insertAt m root p.calced p ctrl fuel
      some (r.1, r.2.2)

/-- In memory `addRoute` does what it does on the tree. -/
theorem addRouteAt_spec {pcre : Pcre} {m : Memory (Cell Ctrl)} {tree : RawTree Ctrl} {root : ℕ}
    {own : Set ℕ} (held : Held m tree.root root own) (fresh : m.Fresh) (reachable : tree.Reachable pcre)
    (path : Str) (ctrl : Ctrl) :
    ∃ m', Returns (addRouteAt pcre m root path ctrl) (m', (tree.addRoute pcre path ctrl).2) ∧
      Becomes m m' root own (tree.addRoute pcre path ctrl).1.root := by
  have defined := addRoute_defined reachable path ctrl
  unfold addRouteAt
  cases parsed : parsePathSegment pcre path with
  | error log =>
    rw [addRoute_unparsed parsed]
    exact ⟨m, .of_all fun _ => rfl, .refl held fresh⟩
  | ok p =>
    simp only [RawTree.addRoute, parsed, RawTree.insert] at defined ⊢
    obtain ⟨ps, read, -⟩ := held.read
    have rootPath : (tree.root.raw ps).path = tree.root.path := rfl
    have indices : (tree.root.raw ps).indices = tree.root.indices := rfl
    simp only [read, rootPath, indices, Option.bind_eq_bind, Option.bind_some]
    by_cases first : tree.root.path = [] ∧ tree.root.indices = []
    · simp only [if_pos first] at defined ⊢
      have inserted : (insertChild tree.root p.calced p.actualFullPath ctrl p.params).verdict ≠
          .undefined := by
        rcases reachable.wellFormed with rfl | ⟨valid, -⟩
        · rw [(insertChild_first (parsePathSegment_calculated parsed) p.actualFullPath ctrl).1]
          exact Verdict.noConfusion
        · exact absurd first.1 valid.staticPath.nonempty
      obtain ⟨m', returns, becomes⟩ := insertChildAt_spec p.params held fresh p.calced p.actualFullPath
        ctrl inserted
      refine ⟨m', .of_all fun _ => ?_, becomes⟩
      rw [returns]
      rfl
    · simp only [if_neg first] at defined ⊢
      obtain ⟨m', returns, becomes⟩ := insertAt_spec held fresh reachable.bounded p.calced p ctrl defined
      have tail : Returns (fun _ => some (m', (insertLoop tree.root p.calced p ctrl).verdict)) _ :=
        .of_all fun _ => rfl
      exact ⟨m', returns.bind tail, becomes⟩

end Cppmhd
