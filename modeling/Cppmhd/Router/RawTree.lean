import Cppmhd.Router.Parser

/-!
# Insertion of routes

`RawNode` and `RawTree` of `router.cc`.  The source walks a tree of mutable nodes with a node
pointer; here each function returns the node it was given as the source leaves it.  `RouterNode` of
`router.h` has the fields of `RawNode`, so the two share one type and `buildChild` copies it.
-/

namespace Cppmhd

variable {Ctrl : Type}

/-- Source `RawNode`.  `handle` is the controller pointer, `none` when null. -/
structure RawNode (Ctrl : Type) where
  path : Str := []
  indices : Str := []
  children : List (RawNode Ctrl) := []
  handle : Option Ctrl := none
  type : RouterNodeType := .ROOT
  re : Regex := .null
  name : Str := []
  wildchild : Bool := false

/-- How an insertion ends; `undefined` is a violated `assert`, which a release build runs past. -/
inductive Verdict where
  | accepted
  | refused (log : List RouteError)
  | undefined
  deriving DecidableEq

/-- A node after an insertion below it, the parameters left in the queue, and the verdict. -/
structure Insertion (Ctrl : Type) where
  node : RawNode Ctrl
  params : List Param
  verdict : Verdict

/-! ## Fresh wildcards -/

/-- Put the wildcard child below `node` after cutting off what precedes its placeholder. -/
def RawNode.setWild (node : RawNode Ctrl) (path : Str) (paramPos : ℕ) (wild : Param)
    (child : RawNode Ctrl) : RawNode Ctrl :=
  if 0 < paramPos then
    { node with path := path.take paramPos, type := .STATIC, wildchild := true
                children := node.children ++ [child] }
  else { node with type := wild.type, wildchild := true, children := node.children ++ [child] }

/-- The end of `insertChild`: no placeholder is left, the node takes the path and the handle. -/
def RawNode.setLeaf (node : RawNode Ctrl) (path : Str) (ctrl : Ctrl) : RawNode Ctrl :=
  { node with path := path, handle := some ctrl, type := .STATIC, indices := [] }

/-- Source `RawTree::insertChild`, by recursion on the queue that each round pops. -/
def insertChild (node : RawNode Ctrl) (path fullPath : Str) (ctrl : Ctrl) :
    List Param → Insertion Ctrl
  | [] =>
    match findWildcard path with
    | none => ⟨node.setLeaf path ctrl, [], .accepted⟩
    | some _ => ⟨node, [], .undefined⟩
  | wild :: params =>
    match findWildcard path with
    | none => ⟨node.setLeaf path ctrl, wild :: params, .accepted⟩
    | some paramPos =>
      if 0 < node.children.length then
        ⟨node, params, .refused [.segmentConflict wild.pattern fullPath]⟩
      else match wild.type with
      | .PARAM =>
        let child : RawNode Ctrl :=
          { type := wild.type, re := wild.re, path := [PARAM_CHAR], name := wild.name }
        let rest := path.drop paramPos
        if 1 < rest.length then
          let rest := rest.drop 1
          let below := insertChild { type := .UNKNOWN, indices := rest.take 1 } rest fullPath ctrl
            params
          ⟨node.setWild path paramPos wild { child with children := [below.node] }, below.params,
            below.verdict⟩
        else ⟨node.setWild path paramPos wild { child with handle := some ctrl }, params, .accepted⟩
      | .CATCH_ALL =>
        let child : RawNode Ctrl := { type := wild.type, handle := some ctrl, name := wild.name }
        ⟨node.setWild path paramPos wild child, params, .accepted⟩
      | _ => ⟨node, params, .undefined⟩

/-! ## The walk over existing nodes -/

/-- Source `RawNode::indice`: the child of the first index equal to `c`. -/
def indiceOf : List (RawNode Ctrl) → Str → Char → Option (RawNode Ctrl)
  | _, [], _ => none
  | [], _ :: _, _ => none
  | child :: children, i :: indices, c => if i = c then some child else indiceOf children indices c

/-- Source `RawNode::indice`. -/
def RawNode.indice (node : RawNode Ctrl) (c : Char) : Option (RawNode Ctrl) :=
  indiceOf node.children node.indices c

/-- The split of `node` after the first `i` characters of its path; `path` is the inserted one. -/
def RawNode.split (node : RawNode Ctrl) (i : ℕ) (path : Str) : RawNode Ctrl :=
  let child : RawNode Ctrl :=
    { path := node.path.drop i, type := node.type, re := node.re, indices := node.indices
      children := node.children, name := node.name, handle := node.handle
      wildchild := node.wildchild }
  { node with
    path := path.take i
    indices := (node.path.drop i).take 1
    children := [child]
    handle := none
    re := .null
    type := .STATIC
    wildchild := false }

/-- The end of `insert`: a child for `ch` unless `ch` is a placeholder, then `insertChild`. -/
def RawNode.attach (node : RawNode Ctrl) (path : Str) (parser : PathParser) (ctrl : Ctrl) :
    Insertion Ctrl :=
  if path.head? ≠ some PARAM_CHAR then
    let below := insertChild { type := .STATIC } path parser.actualFullPath ctrl parser.params
    ⟨{ node with indices := node.indices ++ path.take 1, children := node.children ++ [below.node] },
      below.params, below.verdict⟩
  else insertChild node path parser.actualFullPath ctrl parser.params

/-- The whole path is consumed: the route ends at this node. -/
def RawNode.setHandle (node : RawNode Ctrl) (parser : PathParser) (ctrl : Ctrl) : Insertion Ctrl :=
  if node.handle.isSome then
    ⟨node, parser.params, .refused [.handleExists parser.actualFullPath]⟩
  else ⟨{ node with handle := some ctrl }, parser.params, .accepted⟩

/-- The test on entering the wildcard child `node` with the rest `path`. -/
def RawNode.admits (node : RawNode Ctrl) (path : Str) : Bool :=
  isPrefix path node.path && node.type != .CATCH_ALL &&
    (decide (path.length ≤ node.path.length) || path[node.path.length]? == some '/')

mutual

/-- The `while (true)` loop of source `RawTree::insert`.  After a split the node has one index,
which differs from the next character, so the tests that descend fail (`split_indice`). -/
def insertLoop : RawNode Ctrl → Str → PathParser → Ctrl → Insertion Ctrl
  | node@⟨_, _, children, _, _, _, _, _⟩, path, parser, ctrl =>
    let i := findLongestCommonPrefix path node.path
    if i < node.path.length then
      if i < path.length then (node.split i path).attach (path.drop i) parser ctrl
      else (node.split i path).setHandle parser ctrl
    else if i < path.length then
      let path := path.drop i
      if node.wildchild then
        match children with
        | [] => ⟨node, parser.params, .undefined⟩
        | child :: rest =>
          if child.admits path then
            let below := insertLoop child path parser ctrl
            ⟨{ node with children := below.node :: rest }, below.params, below.verdict⟩
          else ⟨node, parser.params, .refused [.wildcardConflict parser.actualFullPath]⟩
      -- '/' after param
      else if node.type = .PARAM ∧ path.head? = some '/' ∧ node.children.length = 1 then
        match children with
        | [] => ⟨node, parser.params, .undefined⟩
        | child :: rest =>
          let below := insertLoop child path parser ctrl
          ⟨{ node with children := below.node :: rest }, below.params, below.verdict⟩
      else
        match insertIndice children node.indices path parser ctrl with
        | some (children, params, verdict) => ⟨{ node with children }, params, verdict⟩
        | none => node.attach path parser ctrl
    else node.setHandle parser ctrl

/-- `insertLoop` at the child that `RawNode::indice` selects, or `none` if it selects none. -/
def insertIndice : List (RawNode Ctrl) → Str → Str → PathParser → Ctrl →
    Option (List (RawNode Ctrl) × List Param × Verdict)
  | child :: children, i :: indices, path, parser, ctrl =>
    if path.head? = some i then
      let below := insertLoop child path parser ctrl
      some (below.node :: children, below.params, below.verdict)
    else
      (insertIndice children indices path parser ctrl).map fun r => (child :: r.1, r.2)
  | _, _, _, _, _ => none

end

/-! ## Trees -/

/-- Source `RawTree`. -/
structure RawTree (Ctrl : Type) where
  root : RawNode Ctrl := {}

/-- Source `RawTree::insert` at the root: the result of the first insertion is not looked at. -/
def RawTree.insert (tree : RawTree Ctrl) (path : Str) (parser : PathParser) (ctrl : Ctrl) :
    Insertion Ctrl :=
  if tree.root.path = [] ∧ tree.root.indices = [] then
    { insertChild tree.root path parser.actualFullPath ctrl parser.params with verdict := .accepted }
  else insertLoop tree.root path parser ctrl

/-- Source `RawTree::addRoute`. -/
def RawTree.addRoute (pcre : Pcre) (tree : RawTree Ctrl) (path : Str) (ctrl : Ctrl) :
    RawTree Ctrl × Verdict :=
  match parsePathSegment pcre path with
  | .error log => (tree, .refused log)
  | .ok p =>
    let r := tree.insert p.calced p ctrl
    ({ root := r.node }, r.verdict)

end Cppmhd
