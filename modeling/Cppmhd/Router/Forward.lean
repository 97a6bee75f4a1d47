import Cppmhd.Router.RawTree
import Mathlib.Data.List.Sort

/-!
# Building and using a router

`RawNode::buildChild`, `Router::forward` and `Router::buildTree` of `router.cc`.  A parameter map is
the list of its bindings in the order in which they were emplaced.
-/

namespace Cppmhd

variable {Ctrl : Type}

/-- Source `RouterNode`: the fields are those of `RawNode`. -/
abbrev RouterNode (Ctrl : Type) := RawNode Ctrl

mutual

/-- Source `RawNode::buildChild`. -/
def buildChild : RawNode Ctrl → RouterNode Ctrl
  | ⟨path, indices, children, handle, type, re, name, wildchild⟩ =>
    ⟨path, indices, buildChildren children, handle, type, re, name, wildchild⟩

/-- The loop of `buildChild` over the children. -/
def buildChildren : List (RawNode Ctrl) → List (RouterNode Ctrl)
  | [] => []
  | child :: children => buildChild child :: buildChildren children

end

/-! ## Parameters -/

/-- The map of the parameters of a request. -/
abbrev Params := List (Str × Str)

/-- `map::emplace`: an existing key keeps its value. -/
def Params.emplace (params : Params) (name value : Str) : Params :=
  if params.any (·.1 == name) then params else params ++ [(name, value)]

/-! ## Lookup -/

/-- What `forward` leaves behind: its result and its two output parameters. -/
structure Forwarded (Ctrl : Type) where
  ctrl : Option Ctrl
  params : Params
  tsr : Bool
  deriving DecidableEq

section Lookup

variable (pcre : Pcre)

/-- The redirect test at the end of a parameter without handle; `children` are the parameter's. -/
def paramEndTsr : List (RouterNode Ctrl) → Bool
  | [] => false
  | node :: _ => (node.path == ['/'] && node.handle.isSome) || node.indices == ['/']

/-- The redirect test of a node that was matched exactly and has no handle. -/
def slashTsr (node : RouterNode Ctrl) : Bool :=
  match node.indice '/' with
  | none => false
  | some slash =>
    let tsr := slash.path.length == 1 && slash.handle.isSome
    match slash.wildchild, slash.children with
    | true, c :: _ =>
      tsr || c.type == .CATCH_ALL || (c.type == .PARAM && c.handle.isSome && c.re.matches pcre [])
    | _, _ => tsr

/-- The branch `prefix == path` of `forward`. -/
def exactMatch (node : RouterNode Ctrl) (path : Str) (params : Params) : Forwarded Ctrl :=
  let rest : Forwarded Ctrl :=
    if path = ['/'] ∧ node.wildchild ∧ node.type ≠ .ROOT then ⟨none, params, true⟩
    else ⟨none, params, slashTsr pcre node⟩
  if node.handle.isSome then ⟨node.handle, params, false⟩
  else match node.wildchild, node.children with
  | true, fc :: _ =>
    if fc.type = .CATCH_ALL then ⟨fc.handle, params.emplace fc.name [], false⟩
    else if fc.type = .PARAM ∧ fc.re.matches pcre [] then
      ⟨fc.handle, params.emplace fc.name [], false⟩
    else rest
  | _, _ => rest

/-- The final redirect test, after a node whose path is not a prefix of the request's rest. -/
def mismatchTsr (node : RouterNode Ctrl) (path : Str) : Bool :=
  path == ['/'] ||
    (node.path.length == path.length + 1 && node.path[path.length]? == some '/' &&
      node.handle.isSome) ||
    (match node.children with
    | c :: _ => c.type == .CATCH_ALL
    | [] => false)

/-- The segment of a parameter: `none` when its regex rejects a non-empty one. -/
def bindParam (node : RouterNode Ctrl) (segment : Str) (params : Params) : Option Params :=
  if segment = [] then
    some (if node.re.matches pcre [] then params.emplace node.name segment else params)
  else if node.re.matches pcre segment then some (params.emplace node.name segment)
  else none

mutual

/-- The `while (true)` loop of source `Router::forward`. -/
def forwardLoop : RouterNode Ctrl → Str → Params → Forwarded Ctrl
  | node@⟨_, _, children, _, _, _, _, _⟩, path, params =>
    if node.path.length < path.length then
      if isPrefix path node.path then
        let path := path.drop node.path.length
        if !node.wildchild then
          match forwardIndice children node.indices path params with
          | some r => r
          | none => ⟨none, params, path == ['/'] && node.handle.isSome⟩
        else
          -- handle wildcard child
          match children with
          | [] => ⟨none, params, false⟩
          | wild@⟨_, _, wildChildren, _, _, _, _, _⟩ :: _ =>
            match wild.type with
            | .PARAM =>
              let slash := findUntilSlash path
              match bindParam pcre wild (path.take slash) params with
              | none => ⟨none, params, false⟩
              | some params =>
                if slash = 0 ∧ wild.handle.isSome then ⟨wild.handle, params, false⟩
                else if slash < path.length then
                  match wildChildren with
                  | next :: _ => forwardLoop next (path.drop slash) params
                  | [] => ⟨none, params, path.length == slash + 1⟩
                else if wild.handle.isSome then ⟨wild.handle, params, false⟩
                else ⟨none, params, paramEndTsr wildChildren⟩
            | .CATCH_ALL => ⟨wild.handle, params.emplace wild.name path, false⟩
            | _ => forwardLoop wild path params
      else ⟨none, params, mismatchTsr node path⟩
    else if node.path = path then exactMatch pcre node path params
    else ⟨none, params, mismatchTsr node path⟩

/-- `forwardLoop` at the child that `RouterNode::indice` selects, or `none` if it selects none. -/
def forwardIndice : List (RouterNode Ctrl) → Str → Str → Params → Option (Forwarded Ctrl)
  | child :: children, i :: indices, path, params =>
    if path.head? = some i then some (forwardLoop child path params)
    else forwardIndice children indices path params
  | _, _, _, _ => none

end

end Lookup

/-! ## Routers -/

/-- Source `HttpMethod`. -/
inductive HttpMethod where
  | GET | HEAD | POST | PUT | DELETE | OPTIONS | CONNECT | TRACE | PATCH
  deriving DecidableEq, Repr

/-- The sort key of `RawBuilder::sort`. -/
def dispatchMethod : HttpMethod → ℕ
  | .GET => 0
  | .POST => 1
  | .DELETE => 2
  | .PUT => 3
  | .OPTIONS => 4
  | _ => 5

/-- Source `RawBuilder`: one tree for each method, in the order of first use. -/
abbrev MethodTrees (Ctrl : Type) := List (HttpMethod × RawTree Ctrl)

/-- Source `RawBuilder::insert`, with `getMethodTree`. -/
def MethodTrees.insert (pcre : Pcre) (path : Str) (mth : HttpMethod) (ctrl : Ctrl) :
    MethodTrees Ctrl → MethodTrees Ctrl × Verdict
  | [] =>
    let r := RawTree.addRoute pcre {} path ctrl
    ([(mth, r.1)], r.2)
  | (m, tree) :: trees =>
    if m = mth then
      let r := tree.addRoute pcre path ctrl
      ((m, r.1) :: trees, r.2)
    else
      let r := MethodTrees.insert pcre path mth ctrl trees
      ((m, tree) :: r.1, r.2)

/-- Source `RawBuilder::sort`.  `std::sort` is free to order equal keys; a method has one tree. -/
def MethodTrees.sort (trees : MethodTrees Ctrl) : MethodTrees Ctrl :=
  trees.insertionSort fun a b => dispatchMethod a.1 ≤ dispatchMethod b.1

/-- A registration: method, path and controller. -/
abbrev Route (Ctrl : Type) := HttpMethod × Str × Ctrl

/-- Source `RouterBuilder`. -/
structure RouterBuilder (Ctrl : Type) where
  routes : List (Route Ctrl) := []

/-- Source `Router`; `valid` is the result of `buildTree`. -/
structure Router (Ctrl : Type) where
  controllers : List Ctrl := []
  trees : List (HttpMethod × RouterNode Ctrl) := []
  valid : Bool := true

/-- The loop of `buildTree` over the routes. -/
structure BuildState (Ctrl : Type) where
  raw : MethodTrees Ctrl := []
  controllers : List Ctrl := []
  success : Bool := true

/-- The round of the loop for a route. -/
def BuildState.add (pcre : Pcre) (pre : Str) (st : BuildState Ctrl) (item : Route Ctrl) :
    BuildState Ctrl :=
  let r := MethodTrees.insert pcre (pre ++ item.2.1) item.1 item.2.2 st.raw
  if r.2 = .accepted then { st with raw := r.1, controllers := st.controllers ++ [item.2.2] }
  else { st with raw := r.1, success := false }

/-- Source `Router::buildTree`: the router, and the builder whose routes it has cleared. -/
def Router.buildTree (pcre : Pcre) (pre : Str) (builder : RouterBuilder Ctrl) :
    Router Ctrl × RouterBuilder Ctrl :=
  let st := builder.routes.foldl (BuildState.add pcre pre) {}
  ({ controllers := st.controllers
     trees := st.raw.sort.map fun t => (t.1, buildChild t.2.root)
     valid := st.success },
    { builder with routes := [] })

/-- Source `Router::forward`. -/
def Router.forward (pcre : Pcre) (router : Router Ctrl) (mtd : HttpMethod) (path : Str)
    (params : Params) : Forwarded Ctrl :=
  match router.trees.find? (·.1 = mtd) with
  | some t => forwardLoop pcre t.2 path params
  | none => ⟨none, params, false⟩

end Cppmhd
