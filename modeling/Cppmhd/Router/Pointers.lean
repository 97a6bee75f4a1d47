import Cppmhd.Router.Nodes
import Cppmhd.Router.Shape

/-!
# Lookup through pointers

`Router::forward` of `router.cc` as it follows pointers through memory, with the members of
`RouterNode` that it calls.  On a tree in memory no round of its loop reads what is not there or
violates an assertion, and the loop returns what `forwardLoop` returns on the tree (`follow_spec`).
-/

open Heap Runs

namespace Cppmhd

variable {Ctrl : Type}

/-! ## Members of `RouterNode` -/

/-- The loop of `RouterNode::indice`, from index `i` on. -/
def indiceFrom (m : Memory (Cell Ctrl)) (array : ℕ) (c : Char) : Str → ℕ → Option (Option ℕ)
  | [], _ => some none
  | x :: indices, i => if x = c then childAt m array i else indiceFrom m array c indices (i + 1)

/-- Source `RouterNode::indice(char)`. -/
def NodeObject.indice (m : Memory (Cell Ctrl)) (node : NodeObject Ctrl) (c : Char) :
    Option (Option ℕ) :=
  match node.children_ with
  | none => some none
  | some array => indiceFrom m array c node.indices_ 0

/-- The loop of `RouterNode::children` from index `i` on, with so many entries to pass. -/
def childrenFrom (m : Memory (Cell Ctrl)) (array : ℕ) : ℕ → ℕ → Option (Option ℕ)
  | 0, i => childAt m array i
  | before + 1, i => do
    match ← childAt m array i with
    | none => some none
    | some _ => childrenFrom m array before (i + 1)

/-- Source `RouterNode::children`. -/
def NodeObject.children (m : Memory (Cell Ctrl)) (node : NodeObject Ctrl) (pos : ℕ) :
    Option (Option ℕ) :=
  match node.children_ with
  | none => some none
  | some array => childrenFrom m array pos 0

/-- The loop of `RouterNode::childrenCount` over the rest of the array. -/
def countCells : List (Cell Ctrl) → Option ℕ
  | .child none :: _ => some 0
  | .child (some _) :: cells => (countCells cells).map (· + 1)
  | _ => none

/-- Source `RouterNode::childrenCount`. -/
def NodeObject.childrenCount (m : Memory (Cell Ctrl)) (node : NodeObject Ctrl) : Option ℕ :=
  match node.children_ with
  | none => some 0
  | some array => (m.block array).bind countCells

/-! ## The loop of `forward` -/

/-- How a round ends: `forward` returns, or the loop goes on at another node. -/
inductive Round (Ctrl : Type) where
  | answer (r : Forwarded Ctrl)
  | next (p : ℕ) (path : Str) (params : Params)

section Rounds

variable (pcre : Pcre) (m : Memory (Cell Ctrl)) (node : NodeObject Ctrl) (path : Str) (params : Params)

/-- The redirect test through the child for `'/'`; a null pointer violates the assertion. -/
def slashTsrAt : Option Bool := do
  match ← node.indice m '/' with
  | none => some false
  | some slash =>
    let slash ← nodeAt m slash
    let tsr := slash.path_.length == 1 && slash.handle_.isSome
    if !tsr && slash.wildchild_ then
      let c ← (← slash.children m 0)
      let c ← nodeAt m c
      some (c.type_ == .CATCH_ALL ||
        (c.type_ == .PARAM && c.handle_.isSome && c.re_.matches pcre []))
    else some tsr

/-- The end of the branch `prefix == path`, where nothing answers. -/
def exactRest : Option (Forwarded Ctrl) :=
  if path = ['/'] ∧ node.wildchild_ ∧ node.type_ ≠ .ROOT then some ⟨none, params, true⟩
  else do
    let tsr ← slashTsrAt pcre m node
    some ⟨none, params, tsr⟩

/-- The branch `prefix == path`. -/
def exactAt : Option (Forwarded Ctrl) :=
  if node.handle_.isSome then some ⟨node.handle_, params, false⟩
  else if node.wildchild_ then do
    let fc ← (← node.children m 0)
    let fc ← nodeAt m fc
    if fc.type_ = .CATCH_ALL then some ⟨fc.handle_, params.emplace fc.name_ [], false⟩
    else if fc.type_ = .PARAM ∧ fc.re_.matches pcre [] then
      some ⟨fc.handle_, params.emplace fc.name_ [], false⟩
    else exactRest pcre m node path params
  else exactRest pcre m node path params

/-- The redirect test behind a path that is no prefix. -/
def mismatchTsrAt : Option Bool :=
  if path == ['/'] || (node.path_.length == path.length + 1 &&
      node.path_[path.length]? == some '/' && node.handle_.isSome) then some true
  else do
    match ← node.children m 0 with
    | none => some false
    | some c =>
      let c ← nodeAt m c
      some (c.type_ == .CATCH_ALL)

/-- The parameters behind the segment of a parameter, or `none` where `forward` returns null. -/
def NodeObject.bind (segment : Str) : Option Params :=
  if segment = [] then
    some (if node.re_.matches pcre [] then params.emplace node.name_ segment else params)
  else if node.re_.matches pcre segment then some (params.emplace node.name_ segment)
  else none

/-- The branch of a wildcard child `node` that is a parameter. -/
def paramAt : Option (Round Ctrl) :=
  let slash := findUntilSlash path
  match node.bind pcre params (path.take slash) with
  | none => some (.answer ⟨none, params, false⟩)
  | some params =>
    if slash = 0 ∧ node.handle_.isSome then some (.answer ⟨node.handle_, params, false⟩)
    else if slash < path.length then do
      if 0 < (← node.childrenCount m) then
        let next ← (← node.children m 0)
        some (.next next (path.drop slash) params)
      else some (.answer ⟨none, params, path.length == slash + 1⟩)
    else if node.handle_.isSome then some (.answer ⟨node.handle_, params, false⟩)
    else do
      match ← node.children m 0 with
      | none => some (.answer ⟨none, params, false⟩)
      | some next =>
        let next ← nodeAt m next
        some (.answer ⟨none, params, (next.path_ == ['/'] && next.handle_.isSome) ||
          next.indices_ == ['/']⟩)

/-- The branch `path.size() > prefix.size()` behind the prefix; what is left of the path is not
empty. -/
def behindPrefix : Option (Round Ctrl) :=
  if !node.wildchild_ then do
    let ch ← path.head?
    match ← node.indice m ch with
    | some child => some (.next child path params)
    | none => some (.answer ⟨none, params, path == ['/'] && node.handle_.isSome⟩)
  else do
    -- handle wildcard child
    match ← node.children m 0 with
    | none => some (.answer ⟨none, params, false⟩)
    | some p =>
      let wild ← nodeAt m p
      match wild.type_ with
      | .PARAM => paramAt pcre m wild path params
      | .CATCH_ALL =>
        -- assert(node->handle())
        let handle ← wild.handle_
        some (.answer ⟨some handle, params.emplace wild.name_ path, false⟩)
      | _ => some (.next p path params)

/-- One round of the `while (true)` loop. -/
def roundAt (p : ℕ) : Option (Round Ctrl) := do
  let node ← nodeAt m p
  let mismatch : Option (Round Ctrl) := do
    let tsr ← mismatchTsrAt m node path
    some (.answer ⟨none, params, tsr⟩)
  if node.path_.length < path.length then
    if isPrefix path node.path_ then
      behindPrefix pcre m node (path.drop node.path_.length) params
    else mismatch
  else if node.path_ = path then do
    let r ← exactAt pcre m node path params
    some (.answer r)
  else mismatch

end Rounds

/-- The `while (true)` loop of source `Router::forward`. -/
def follow (pcre : Pcre) (m : Memory (Cell Ctrl)) (p : ℕ) (path : Str) (params : Params) :
    ℕ → Option (Forwarded Ctrl)
  | 0 => none
  | fuel + 1 => do
    match ← roundAt pcre m path params p with
    | .answer r => some r
    | .next q path params => follow pcre m q path params fuel

/-! ## Trees that can be followed -/

/-- Every index selects a child, every wildcard is there, and every catch-all has a handle. -/
inductive RawNode.Sound : RawNode Ctrl → Prop
  | mk {n : RawNode Ctrl} (bounded : n.indices.length ≤ n.children.length)
      (wild : n.wildchild = true → n.children ≠ [])
      (catchAll : n.wildchild = true → ∀ c ∈ n.children, c.type = .CATCH_ALL → c.handle.isSome)
      (below : ∀ c ∈ n.children, c.Sound) : n.Sound

theorem RawNode.Valid.sound {n : RawNode Ctrl} (valid : n.Valid) (bounded : n.Bounded) : n.Sound := by
  revert bounded
  apply valid.walk
  · intro n _ plain ih bounded
    have absurd (wild : n.wildchild = true) : False := Bool.false_ne_true (plain.symm.trans wild)
    exact .mk bounded.here (fun wild => (absurd wild).elim) (fun wild => (absurd wild).elim)
      fun c member => ih c member (bounded.all c member)
  · intro n w valid wild only child ih bounded
    have plain := (WildValid.kind child).1
    have absurd (wild : w.wildchild = true) : False := Bool.false_ne_true (plain.symm.trans wild)
    have boundedW : w.Bounded := bounded.all w (by simp [only])
    have sound : w.Sound := .mk boundedW.here (fun wild => (absurd wild).elim)
      (fun wild => (absurd wild).elim) fun c member => ih c member (boundedW.all c member)
    refine .mk bounded.here (fun _ => by simp [only]) ?_ ?_
    · intro _ c member isCatchAll
      rw [only, List.mem_singleton] at member
      subst member
      exact ((WildValid.shape child boundedW).catchAll rfl isCatchAll).2
    · intro c member
      rw [only, List.mem_singleton] at member
      rwa [member]

/-- Every tree that insertions make can be followed. -/
theorem RawTree.Reachable.sound {pcre : Pcre} {tree : RawTree Ctrl} (reachable : tree.Reachable pcre) :
    tree.root.Sound := by
  rcases reachable.wellFormed with rfl | ⟨valid, -⟩
  · exact .mk le_rfl (fun wild => absurd wild Bool.false_ne_true) (fun _ => List.forall_mem_nil _)
      (List.forall_mem_nil _)
  · exact valid.sound reachable.bounded

/-! ## Reading a tree in memory -/

/-- A subtree is in memory. -/
def InMemory (m : Memory (Cell Ctrl)) (n : RouterNode Ctrl) (p : ℕ) : Prop := ∃ own, Holds m n p own

theorem HoldsAll.inMemory {m : Memory (Cell Ctrl)} {children : List (RouterNode Ctrl)} {ps : List ℕ}
    {own : Set ℕ} (holds : HoldsAll m children ps own) : List.Forall₂ (InMemory m) children ps := by
  induction children generalizing ps own with
  | nil =>
    rw [HoldsAll] at holds
    rw [holds.1]
    exact .nil
  | cons child children ih =>
    rw [HoldsAll] at holds
    obtain ⟨p, rest, here, others, rfl, first, all, -, -⟩ := holds
    exact .cons ⟨here, first⟩ (ih all)

/-- What a node's pointer to its children leads to. -/
inductive PointsTo (m : Memory (Cell Ctrl)) (children : List (RouterNode Ctrl)) : Option ℕ → Prop
  | leaf (empty : children = []) : PointsTo m children none
  | array {a : ℕ} {ps : List ℕ} (here : m.block a = some (childCells ps))
      (all : List.Forall₂ (InMemory m) children ps) : PointsTo m children (some a)

section Reading

variable {m : Memory (Cell Ctrl)} {n : RouterNode Ctrl} {p : ℕ} {array : Option ℕ}

theorem InMemory.read (stored : InMemory m n p) :
    ∃ array, nodeAt m p = some (n.object array) ∧ PointsTo m n.children array := by
  obtain ⟨own, holds⟩ := stored
  cases n
  rw [Holds] at holds
  obtain ⟨array, below, here, children, -, -⟩ := holds
  refine ⟨array, nodeAt_eq here, ?_⟩
  cases array with
  | none => exact .leaf children.1
  | some a =>
    obtain ⟨ps, rest, here, all, -, -⟩ := children
    exact .array here all.inMemory

/-- `children(0)` is the first child, or null. -/
theorem PointsTo.children (reads : PointsTo m n.children array) :
    (∃ c rest q, n.children = c :: rest ∧ (n.object array).children m 0 = some (some q) ∧
      InMemory m c q) ∨
    n.children = [] ∧ (n.object array).children m 0 = some none := by
  cases reads with
  | leaf empty => exact Or.inr ⟨empty, rfl⟩
  | @array a ps here all =>
    have entry : (n.object (some a)).children m 0 = some ps[0]? :=
      childAt_eq here (Nat.zero_le _)
    rw [entry]
    generalize n.children = children at all
    cases all with
    | nil => exact Or.inr ⟨rfl, rfl⟩
    | @cons c q children ps stored all => exact Or.inl ⟨c, children, q, rfl, rfl, stored⟩

theorem countCells_eq (ps : List ℕ) : countCells (childCells ps : List (Cell Ctrl)) = some ps.length := by
  induction ps with
  | nil => rfl
  | cons p ps ih =>
    have shape : (childCells (p :: ps) : List (Cell Ctrl)) = .child (some p) :: childCells ps := rfl
    rw [shape, countCells, ih]
    rfl

theorem PointsTo.childrenCount (reads : PointsTo m n.children array) :
    (n.object array).childrenCount m = some n.children.length := by
  cases reads with
  | leaf empty =>
    rw [empty]
    rfl
  | @array a ps here all =>
    have count : (n.object (some a)).childrenCount m = (m.block a).bind countCells := rfl
    rw [count, here, Option.bind_some, countCells_eq, all.length_eq]

/-- The loop of `indice` selects the child that `indiceOf` selects. -/
theorem indiceFrom_eq {a i : ℕ} {all ps : List ℕ} {indices : Str} {children : List (RouterNode Ctrl)}
    (c : Char) (here : m.block a = some (childCells all)) (rest : all.drop i = ps)
    (stored : List.Forall₂ (InMemory m) children ps) (bounded : indices.length ≤ children.length) :
    (∃ child ∈ children, ∃ q, indiceOf children indices c = some child ∧
      indiceFrom m a c indices i = some (some q) ∧ InMemory m child q) ∨
    indiceOf children indices c = none ∧ indiceFrom m a c indices i = some none := by
  induction indices generalizing children ps i with
  | nil => exact Or.inr ⟨by cases children <;> rfl, rfl⟩
  | cons x indices ih =>
    cases stored with
    | nil => exact absurd bounded (by simp)
    | @cons child q children ps first stored =>
      rw [indiceOf, indiceFrom]
      by_cases same : x = c
      · have entry : all[i]? = some q := by
          rw [← List.head?_drop, rest]
          rfl
        obtain ⟨before, -⟩ := List.getElem?_eq_some_iff.mp entry
        left
        refine ⟨child, List.mem_cons_self, q, if_pos same, ?_, first⟩
        rw [if_pos same, childAt_eq here before.le, entry]
      · rw [if_neg same, if_neg same]
        rcases ih (i := i + 1) (by rw [← List.tail_drop, rest, List.tail_cons]) stored
          (Nat.le_of_succ_le_succ bounded) with ⟨d, member, found⟩ | absent
        · exact Or.inl ⟨d, List.mem_cons_of_mem child member, found⟩
        · exact Or.inr absent

theorem PointsTo.indice (reads : PointsTo m n.children array) (sound : n.indices.length ≤ n.children.length)
    (c : Char) :
    (∃ child ∈ n.children, ∃ q, n.indice c = some child ∧
      (n.object array).indice m c = some (some q) ∧ InMemory m child q) ∨
    n.indice c = none ∧ (n.object array).indice m c = some none := by
  cases reads with
  | leaf empty =>
    have noIndex : n.indices = [] := by
      rw [empty, List.length_nil, Nat.le_zero] at sound
      exact List.length_eq_zero_iff.mp sound
    refine Or.inr ⟨?_, rfl⟩
    rw [RawNode.indice, empty, noIndex]
    rfl
  | @array a ps here all => exact indiceFrom_eq c here rfl all sound

end Reading

/-! ## One round -/

section Round

variable {pcre : Pcre} {m : Memory (Cell Ctrl)} {n : RouterNode Ctrl} {p : ℕ} {array : Option ℕ}

theorem RawNode.Sound.child (sound : n.Sound) : ∀ c ∈ n.children, c.Sound := by
  cases sound
  assumption

theorem RawNode.Sound.bounded (sound : n.Sound) : n.indices.length ≤ n.children.length := by
  cases sound
  assumption

/-- The wildcard child of a node that has one. -/
theorem PointsTo.wild (reads : PointsTo m n.children array) (sound : n.Sound) (wild : n.wildchild = true) :
    ∃ w rest q, n.children = w :: rest ∧ (n.object array).children m 0 = some (some q) ∧
      InMemory m w q := by
  rcases reads.children with found | ⟨none, -⟩
  · exact found
  · cases sound with
    | mk bounded inhabited => exact absurd none (inhabited wild)

theorem slashTsrAt_eq (reads : PointsTo m n.children array) (sound : n.Sound) :
    slashTsrAt pcre m (n.object array) = some (slashTsr pcre n) := by
  rw [slashTsrAt, slashTsr]
  rcases reads.indice sound.bounded '/' with ⟨slash, member, q, found, here, stored⟩ | ⟨absent, here⟩
  · obtain ⟨array', node, below⟩ := stored.read
    simp only [found, here, node, Option.bind_eq_bind, Option.bind_some]
    cases wild : slash.wildchild with
    | false => simp [RawNode.object, wild]
    | true =>
      obtain ⟨c, rest, q', children, pointer, storedC⟩ := below.wild (sound.child slash member) wild
      obtain ⟨array'', nodeC, -⟩ := storedC.read
      simp only [children, pointer, nodeC, Option.bind_some]
      by_cases tsr : (slash.path.length == 1 && slash.handle.isSome) = true
      · simp [RawNode.object, wild, tsr]
      · simp [RawNode.object, wild, tsr]
  · simp only [absent, here, Option.bind_eq_bind, Option.bind_some]

theorem exactAt_eq (reads : PointsTo m n.children array) (sound : n.Sound) (path : Str) (params : Params) :
    exactAt pcre m (n.object array) path params = some (exactMatch pcre n path params) := by
  have rest : exactRest pcre m (n.object array) path params =
      some (if path = ['/'] ∧ n.wildchild ∧ n.type ≠ .ROOT then ⟨none, params, true⟩
        else ⟨none, params, slashTsr pcre n⟩) := by
    rw [exactRest, slashTsrAt_eq reads sound]
    exact (apply_ite some _ _ _).symm
  rw [exactAt, exactMatch, rest]
  have handle : (n.object array).handle_ = n.handle := rfl
  have wildchild : (n.object array).wildchild_ = n.wildchild := rfl
  rw [handle, wildchild]
  by_cases answered : n.handle.isSome = true
  · rw [if_pos answered, if_pos answered]
  · rw [if_neg answered, if_neg answered]
    cases wild : n.wildchild with
    | false => rfl
    | true =>
      obtain ⟨c, others, q, children, pointer, stored⟩ := reads.wild sound wild
      obtain ⟨array', node, -⟩ := stored.read
      rw [if_pos rfl, children, pointer, Option.bind_eq_bind, Option.bind_some, Option.bind_eq_bind,
        Option.bind_some, node, Option.bind_eq_bind, Option.bind_some]
      have type : (c.object array').type_ = c.type := rfl
      have re : (c.object array').re_ = c.re := rfl
      rw [type, re]
      dsimp only
      split_ifs <;> rfl

theorem mismatchTsrAt_eq (reads : PointsTo m n.children array) (path : Str) :
    mismatchTsrAt m (n.object array) path = some (mismatchTsr n path) := by
  rw [mismatchTsrAt, mismatchTsr]
  have first : (path == ['/'] || ((n.object array).path_.length == path.length + 1 &&
      (n.object array).path_[path.length]? == some '/' && (n.object array).handle_.isSome)) =
      (path == ['/'] || (n.path.length == path.length + 1 && n.path[path.length]? == some '/' &&
        n.handle.isSome)) := rfl
  rw [first]
  split_ifs with here
  · rw [here, Bool.true_or]
  · rw [Bool.eq_false_of_not_eq_true here, Bool.false_or]
    rcases reads.children with ⟨c, rest, q, children, pointer, stored⟩ | ⟨empty, pointer⟩
    · obtain ⟨array', node, -⟩ := stored.read
      rw [pointer, children, Option.bind_eq_bind, Option.bind_some]
      dsimp only
      rw [node]
      rfl
    · rw [pointer, empty]
      rfl

/-- What a round tells about the loop on the tree: its result, or a smaller tree from which the loop has
the same result. -/
def Tells (pcre : Pcre) (m : Memory (Cell Ctrl)) (n : RouterNode Ctrl) (path : Str) (params : Params) :
    Round Ctrl → Prop
  | .answer r => forwardLoop pcre n path params = r
  | .next q path' params' => ∃ c, InMemory m c q ∧ c.Sound ∧ sizeOf c < sizeOf n ∧
      forwardLoop pcre n path params = forwardLoop pcre c path' params'

/-- `forward` goes on at the child that `indice` selects. -/
theorem forwardIndice_eq (children : List (RouterNode Ctrl)) (indices : Str) (x : Char) (t : Str)
    (params : Params) : forwardIndice pcre children indices (x :: t) params =
      (indiceOf children indices x).map fun c => forwardLoop pcre c (x :: t) params := by
  induction indices generalizing children with
  | nil => cases children <;> simp only [forwardIndice, indiceOf, Option.map_none]
  | cons i indices ih =>
    cases children with
    | nil => simp only [forwardIndice, indiceOf, Option.map_none]
    | cons child children =>
      rw [forwardIndice, indiceOf, ih]
      by_cases same : i = x
      · rw [if_pos same, if_pos (by rw [same]; rfl)]
        rfl
      · rw [if_neg same, if_neg]
        intro head
        exact same (Option.some.inj head).symm

/-- The branch of the loop on the tree whose wildcard child `w` is a parameter. -/
def paramBranch (pcre : Pcre) (w : RouterNode Ctrl) (path : Str) (params : Params) : Forwarded Ctrl :=
  let slash := findUntilSlash path
  match bindParam pcre w (path.take slash) params with
  | none => ⟨none, params, false⟩
  | some params =>
    if slash = 0 ∧ w.handle.isSome then ⟨w.handle, params, false⟩
    else if slash < path.length then
      match w.children with
      | next :: _ => forwardLoop pcre next (path.drop slash) params
      | [] => ⟨none, params, path.length == slash + 1⟩
    else if w.handle.isSome then ⟨w.handle, params, false⟩
    else ⟨none, params, paramEndTsr w.children⟩

theorem paramAt_spec {w : RouterNode Ctrl} {path path' : Str} {params params' : Params}
    (reads : PointsTo m w.children array) (sound : w.Sound) (smaller : sizeOf w < sizeOf n)
    (decides : forwardLoop pcre n path params = paramBranch pcre w path' params') :
    ∃ round, paramAt pcre m (w.object array) path' params' = some round ∧
      Tells pcre m n path params round := by
  rw [paramBranch] at decides
  have bind : (w.object array).bind pcre params' (path'.take (findUntilSlash path')) =
      bindParam pcre w (path'.take (findUntilSlash path')) params' := rfl
  have handle : (w.object array).handle_ = w.handle := rfl
  rw [paramAt, bind, handle]
  generalize findUntilSlash path' = slash at decides ⊢
  cases bound : bindParam pcre w (path'.take slash) params' with
  | none =>
    rw [bound] at decides
    exact ⟨_, rfl, decides⟩
  | some params =>
    rw [bound] at decides
    dsimp only at decides ⊢
    by_cases atSlash : slash = 0 ∧ w.handle.isSome
    · rw [if_pos atSlash] at decides ⊢
      exact ⟨_, rfl, decides⟩
    rw [if_neg atSlash] at decides ⊢
    by_cases inside : slash < path'.length
    · rw [if_pos inside] at decides ⊢
      rw [reads.childrenCount]
      rcases reads.children with ⟨c, rest, q, children, pointer, stored⟩ | ⟨empty, -⟩
      · rw [children] at decides
        refine ⟨.next q (path'.drop slash) params, ?_, c, stored, ?_, ?_, decides⟩
        · simp [children, pointer]
        · exact sound.child c (by simp [children])
        · exact (sizeOf_child (by simp [children])).trans smaller
      · rw [empty] at decides
        refine ⟨.answer ⟨none, params, path'.length == slash + 1⟩, ?_, decides⟩
        simp [empty]
    · rw [if_neg inside] at decides ⊢
      by_cases answered : w.handle.isSome = true
      · rw [if_pos answered] at decides ⊢
        exact ⟨_, rfl, decides⟩
      · rw [if_neg answered] at decides ⊢
        rcases reads.children with ⟨c, rest, q, children, pointer, stored⟩ | ⟨empty, pointer⟩
        · obtain ⟨array', node, -⟩ := stored.read
          rw [children] at decides
          rw [pointer]
          refine ⟨.answer ⟨none, params, paramEndTsr (c :: rest)⟩, ?_, decides⟩
          rw [Option.bind_eq_bind, Option.bind_some]
          dsimp only
          rw [node]
          rfl
        · rw [empty] at decides
          rw [pointer]
          exact ⟨_, rfl, decides⟩

/-- The branch of the loop on the tree behind a prefix of the path. -/
def behindBranch (pcre : Pcre) (n : RouterNode Ctrl) (path : Str) (params : Params) :
    Forwarded Ctrl :=
  if !n.wildchild then
    match forwardIndice pcre n.children n.indices path params with
    | some r => r
    | none => ⟨none, params, path == ['/'] && n.handle.isSome⟩
  else
    match n.children with
    | [] => ⟨none, params, false⟩
    | w :: _ =>
      match w.type with
      | .PARAM => paramBranch pcre w path params
      | .CATCH_ALL => ⟨w.handle, params.emplace w.name path, false⟩
      | _ => forwardLoop pcre w path params

theorem forwardLoop_eq (pcre : Pcre) (n : RouterNode Ctrl) (path : Str) (params : Params) :
    forwardLoop pcre n path params =
      if n.path.length < path.length then
        if isPrefix path n.path then behindBranch pcre n (path.drop n.path.length) params
        else ⟨none, params, mismatchTsr n path⟩
      else if n.path = path then exactMatch pcre n path params
      else ⟨none, params, mismatchTsr n path⟩ := by
  obtain ⟨nodePath, indices, children, handle, type, re, name, wildchild⟩ := n
  rw [forwardLoop]
  cases children with
  | nil => rfl
  | cons w others =>
    obtain ⟨_, _, below, _, _, _, _, _⟩ := w
    cases below <;> rfl

theorem behindPrefix_spec (reads : PointsTo m n.children array) (sound : n.Sound) {path path' : Str}
    {params : Params} (left : path' ≠ [])
    (decides : forwardLoop pcre n path params = behindBranch pcre n path' params) :
    ∃ round, behindPrefix pcre m (n.object array) path' params = some round ∧
      Tells pcre m n path params round := by
  obtain ⟨x, t, rfl⟩ := List.exists_cons_of_ne_nil left
  rw [behindBranch] at decides
  have wildchild : (n.object array).wildchild_ = n.wildchild := rfl
  rw [behindPrefix, wildchild]
  cases wild : n.wildchild with
  | false =>
    rw [wild, Bool.not_false, if_pos rfl, forwardIndice_eq] at decides
    rw [Bool.not_false, if_pos rfl]
    rcases reads.indice sound.bounded x with ⟨c, member, q, found, pointer, stored⟩ | ⟨absent, pointer⟩
    · rw [RawNode.indice] at found
      rw [found] at decides
      refine ⟨.next q (x :: t) params, ?_, c, stored, sound.child c member, sizeOf_child member, decides⟩
      simp [pointer]
    · rw [RawNode.indice] at absent
      rw [absent] at decides
      refine ⟨.answer ⟨none, params, (x :: t) == ['/'] && n.handle.isSome⟩, ?_, decides⟩
      rw [List.head?_cons, Option.bind_eq_bind, Option.bind_some, pointer]
      rfl
  | true =>
    rw [wild, Bool.not_true, if_neg Bool.false_ne_true] at decides
    rw [Bool.not_true, if_neg Bool.false_ne_true]
    obtain ⟨w, others, q, children, pointer, stored⟩ := reads.wild sound wild
    obtain ⟨array', node, below⟩ := stored.read
    have member : w ∈ n.children := by simp [children]
    rw [children] at decides
    rw [pointer, Option.bind_eq_bind, Option.bind_some]
    dsimp only
    rw [node, Option.bind_eq_bind, Option.bind_some]
    have type : (w.object array').type_ = w.type := rfl
    rw [type]
    dsimp only at decides
    cases kind : w.type with
    | PARAM =>
      rw [kind] at decides
      exact paramAt_spec below (sound.child w member) (sizeOf_child member) decides
    | CATCH_ALL =>
      rw [kind] at decides
      have handled : w.handle.isSome := by
        cases sound with
        | mk bounded inhabited catchAll => exact catchAll wild w member kind
      obtain ⟨handle, here⟩ := Option.isSome_iff_exists.mp handled
      have pointed : (w.object array').handle_ = some handle := here
      rw [pointed]
      rw [here] at decides
      exact ⟨_, rfl, decides⟩
    | UNKNOWN | ROOT | STATIC =>
      rw [kind] at decides
      exact ⟨_, rfl, w, stored, sound.child w member, sizeOf_child member, decides⟩

theorem roundAt_spec (pcre : Pcre) (stored : InMemory m n p) (sound : n.Sound) (path : Str) (params : Params) :
    ∃ round, roundAt pcre m path params p = some round ∧ Tells pcre m n path params round := by
  obtain ⟨array, node, reads⟩ := stored.read
  have decides := forwardLoop_eq pcre n path params
  have nodePath : (n.object array).path_ = n.path := rfl
  rw [roundAt, node, Option.bind_eq_bind, Option.bind_some, nodePath, mismatchTsrAt_eq reads,
    exactAt_eq reads sound]
  dsimp only
  by_cases longer : n.path.length < path.length
  · rw [if_pos longer] at decides ⊢
    by_cases begins : isPrefix path n.path = true
    · rw [if_pos begins] at decides ⊢
      apply behindPrefix_spec reads sound _ decides
      intro none
      have shorter := List.drop_eq_nil_iff.mp none
      omega
    · rw [if_neg begins] at decides ⊢
      exact ⟨_, rfl, decides⟩
  · rw [if_neg longer] at decides ⊢
    by_cases same : n.path = path
    · rw [if_pos same] at decides ⊢
      exact ⟨_, rfl, decides⟩
    · rw [if_neg same] at decides ⊢
      exact ⟨_, rfl, decides⟩

end Round

/-! ## The loop -/

/-- On a tree in memory the loop returns, and it returns what it returns on the tree. -/
theorem follow_spec (pcre : Pcre) {m : Memory (Cell Ctrl)} {n : RouterNode Ctrl} {p : ℕ}
    (stored : InMemory m n p) (sound : n.Sound) (path : Str) (params : Params) :
    Returns (follow pcre m p path params) (forwardLoop pcre n path params) := by
  induction size : sizeOf n using Nat.strong_induction_on generalizing n p path params with
  | _ k ih =>
    obtain ⟨round, here, tells⟩ := roundAt_spec pcre stored sound path params
    cases round with
    | answer r =>
      refine Returns.succ fun fuel => ?_
      rw [follow, here, tells]
      rfl
    | next q path' params' =>
      obtain ⟨c, storedC, soundC, smaller, same⟩ := tells
      rw [same]
      refine (ih (sizeOf c) (size ▸ smaller) storedC soundC path' params' rfl).next fun fuel => ?_
      rw [follow, here]
      rfl

end Cppmhd
