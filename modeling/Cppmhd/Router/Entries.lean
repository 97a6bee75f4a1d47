import Cppmhd.Words.Table
import Cppmhd.Router.Calculated
import Cppmhd.Router.Forward

/-!
# The routes stored in a tree

A route that a tree stores is a word over `Sym`: a literal character, or a wildcard with the type,
the regex and the name of its node.  `RawNode.entries` is the table of a node's subtree, and
`RawNode.Valid` is the shape in which insertion leaves every node that is not a wildcard.
-/

open Words Table

namespace Cppmhd

variable {Ctrl : Type}

/-- The metadata of a wildcard node. -/
structure Wild where
  type : RouterNodeType
  re : Regex
  name : Str
  deriving DecidableEq

/-- A place of a route: a character or a wildcard. -/
inductive Sym where
  | lit (c : Char)
  | wild (w : Wild)
  deriving DecidableEq

/-- A stored route. -/
abbrev Pattern := List Sym

/-- The text of a node without wildcards. -/
def lits (s : Str) : Pattern := s.map .lit

@[simp] theorem lits_nil : lits [] = [] := rfl

@[simp] theorem lits_cons (c : Char) (s : Str) : lits (c :: s) = .lit c :: lits s := rfl

@[simp] theorem lits_append (s t : Str) : lits (s ++ t) = lits s ++ lits t := List.map_append

/-- The metadata that insertion writes into the node of a parameter. -/
def Param.wild (p : Param) : Wild := ⟨p.type, p.re, p.name⟩

/-- The metadata of a wildcard node of the tree. -/
def RawNode.wild (node : RawNode Ctrl) : Wild := ⟨node.type, node.re, node.name⟩

/-! ## Entries -/

mutual

/-- The routes stored in a node and below it. -/
def RawNode.entries : RawNode Ctrl → Table Sym Ctrl
  | node@⟨_, _, children, _, _, _, _, _⟩ =>
    prepend (lits node.path)
      (own node.handle ∪ if node.wildchild then wildEntries children else childEntries children)

/-- The routes stored below a node with a wildcard child. -/
def wildEntries : List (RawNode Ctrl) → Table Sym Ctrl
  | [] => ∅
  | w@⟨_, _, children, _, _, _, _, _⟩ :: rest =>
    prepend [.wild w.wild] (own w.handle ∪ childEntries children) ∪ wildEntries rest

/-- The routes stored in a list of nodes. -/
def childEntries : List (RawNode Ctrl) → Table Sym Ctrl
  | [] => ∅
  | c :: children => c.entries ∪ childEntries children

end

/-- What a node stores behind its own path. -/
def RawNode.body (node : RawNode Ctrl) : Table Sym Ctrl :=
  own node.handle ∪
    if node.wildchild then wildEntries node.children else childEntries node.children

/-- What a wildcard node stores behind its segment. -/
def RawNode.wildBody (w : RawNode Ctrl) : Table Sym Ctrl := own w.handle ∪ childEntries w.children

theorem RawNode.entries_eq (node : RawNode Ctrl) :
    node.entries = prepend (lits node.path) node.body := by
  cases node
  rw [RawNode.entries]
  rfl

theorem wildEntries_singleton (w : RawNode Ctrl) :
    wildEntries [w] = prepend [.wild w.wild] w.wildBody := by
  cases w
  simp only [wildEntries, RawNode.wildBody, Set.union_empty]

@[simp] theorem childEntries_nil : childEntries ([] : List (RawNode Ctrl)) = ∅ := by
  simp only [childEntries]

@[simp] theorem childEntries_cons (c : RawNode Ctrl) (children : List (RawNode Ctrl)) :
    childEntries (c :: children) = c.entries ∪ childEntries children := by
  simp only [childEntries]

theorem childEntries_append (first last : List (RawNode Ctrl)) :
    childEntries (first ++ last) = childEntries first ∪ childEntries last := by
  induction first with
  | nil => simp
  | cons c first ih => simp only [List.cons_append, childEntries_cons, ih, Set.union_assoc]

theorem mem_childEntries {children : List (RawNode Ctrl)} {e : Pattern × Ctrl} :
    e ∈ childEntries children ↔ ∃ c ∈ children, e ∈ c.entries := by
  induction children with
  | nil => simp
  | cons c children ih => simp [ih]

theorem body_of_wild {node w : RawNode Ctrl} (wild : node.wildchild = true)
    (only : node.children = [w]) :
    node.body = own node.handle ∪ prepend [.wild w.wild] w.wildBody := by
  rw [RawNode.body, if_pos wild, only, wildEntries_singleton]

theorem body_of_not_wild {node : RawNode Ctrl} (plain : node.wildchild = false) :
    node.body = own node.handle ∪ childEntries node.children := by
  rw [RawNode.body, if_neg (by simp [plain])]

/-! ### The same routes as a list -/

/-- The route that ends here. -/
def ownListing (h : Option Ctrl) : List (Pattern × Ctrl) := h.toList.map fun c => ([], c)

mutual

/-- The stored routes in the order of the nodes. -/
def RawNode.listing : RawNode Ctrl → List (Pattern × Ctrl)
  | node@⟨_, _, children, _, _, _, _, _⟩ =>
    (ownListing node.handle ++
      if node.wildchild then wildListing children else childListing children).map
        fun e => (lits node.path ++ e.1, e.2)

/-- The routes behind a wildcard child. -/
def wildListing : List (RawNode Ctrl) → List (Pattern × Ctrl)
  | [] => []
  | w@⟨_, _, children, _, _, _, _, _⟩ :: rest =>
    (ownListing w.handle ++ childListing children).map
      (fun e => (.wild w.wild :: e.1, e.2)) ++ wildListing rest

/-- The routes of the children. -/
def childListing : List (RawNode Ctrl) → List (Pattern × Ctrl)
  | [] => []
  | c :: children => c.listing ++ childListing children

end

theorem mem_ownListing {h : Option Ctrl} {e : Pattern × Ctrl} :
    e ∈ ownListing h ↔ e ∈ (own h : Table Sym Ctrl) := by
  obtain ⟨π, b⟩ := e
  cases h with
  | none => simp [ownListing]
  | some c =>
    simp only [ownListing, Option.toList_some, List.map_cons, List.map_nil, List.mem_singleton, own_some,
      Set.mem_singleton_iff]

mutual

theorem RawNode.mem_listing : ∀ (node : RawNode Ctrl) (e : Pattern × Ctrl),
    e ∈ node.listing ↔ e ∈ node.entries
  | ⟨path, _, children, handle, _, _, _, wildchild⟩, ⟨π, b⟩ => by
    have below : ∀ e, e ∈ (if wildchild then wildListing children else childListing children) ↔
        e ∈ (if wildchild then wildEntries children else childEntries children) := by
      intro e
      cases wildchild with
      | false => exact mem_childListing children e
      | true => exact mem_wildListing children e
    simp only [RawNode.listing, RawNode.entries, List.mem_map, List.mem_append, mem_ownListing,
      below, mem_prepend, Set.mem_union, Prod.mk.injEq, Prod.exists]
    constructor
    · rintro ⟨ρ, c, stored, rfl, rfl⟩
      exact ⟨ρ, rfl, stored⟩
    · rintro ⟨ρ, rfl, stored⟩
      exact ⟨ρ, b, stored, rfl, rfl⟩

theorem mem_wildListing : ∀ (children : List (RawNode Ctrl)) (e : Pattern × Ctrl),
    e ∈ wildListing children ↔ e ∈ wildEntries children
  | [], e => by simp [wildListing, wildEntries]
  | ⟨_, _, children, handle, _, _, _, _⟩ :: rest, ⟨π, b⟩ => by
    simp only [wildListing, wildEntries, List.mem_append, List.mem_map, mem_ownListing,
      mem_childListing children, mem_wildListing rest, mem_prepend, Set.mem_union, Prod.mk.injEq,
      Prod.exists]
    apply or_congr_left
    constructor
    · rintro ⟨ρ, c, stored, rfl, rfl⟩
      exact ⟨ρ, rfl, stored⟩
    · rintro ⟨ρ, rfl, stored⟩
      exact ⟨ρ, b, stored, rfl, rfl⟩

theorem mem_childListing : ∀ (children : List (RawNode Ctrl)) (e : Pattern × Ctrl),
    e ∈ childListing children ↔ e ∈ childEntries children
  | [], e => by simp [childListing]
  | c :: children, e => by
    simp only [childListing, childEntries_cons, List.mem_append, Set.mem_union, c.mem_listing e,
      mem_childListing children e]

end

/-! ## Valid trees -/

/-- The path of a node that is not a wildcard. -/
structure StaticPath (path : Str) : Prop where
  nonempty : path ≠ []
  noParam : PARAM_CHAR ∉ path
  shaped : Shaped path

/-- The first characters of the children are the indices. -/
abbrev Indexed (indices : Str) (children : List (RawNode Ctrl)) : Prop :=
  List.Forall₂ (fun i c => c.path.head? = some i) indices children

/-- A subtree as insertion leaves it, rooted at a node that is not a wildcard. -/
inductive RawNode.Valid : RawNode Ctrl → Prop
  | branch {n : RawNode Ctrl} (path : StaticPath n.path) (plain : n.wildchild = false)
      (type : n.type = .STATIC) (indexed : Indexed n.indices n.children) (nodup : n.indices.Nodup)
      (live : n.handle.isSome ∨ n.children ≠ []) (below : ∀ c ∈ n.children, c.Valid) : n.Valid
  | param {n w : RawNode Ctrl} (path : StaticPath n.path) (wild : n.wildchild = true)
      (type : n.type ≠ .ROOT) (indices : n.indices = [] ∨ n.indices = ['/'])
      (only : n.children = [w]) (isParam : w.type = .PARAM) (wildPath : w.path = [PARAM_CHAR])
      (plain : w.wildchild = false) (leaf : w.children = [] → w.indices = [] ∧ w.handle.isSome)
      (single : w.children.length ≤ 1) (slash : ∀ c ∈ w.children, c.path.head? = some '/')
      (below : ∀ c ∈ w.children, c.Valid) : n.Valid
  | catchAll {n w : RawNode Ctrl} (path : StaticPath n.path) (wild : n.wildchild = true)
      (type : n.type ≠ .ROOT) (indices : n.indices = [] ∨ n.indices = ['/'])
      (only : n.children = [w]) (isCatchAll : w.type = .CATCH_ALL) (wildPath : w.path = [])
      (plain : w.wildchild = false) (leaf : w.children = []) (handle : w.handle.isSome) : n.Valid

/-! ## Facts about valid trees -/

/-- The wildcard child of a valid node. -/
inductive RawNode.WildValid : RawNode Ctrl → Prop
  | param {w : RawNode Ctrl} (isParam : w.type = .PARAM) (wildPath : w.path = [PARAM_CHAR])
      (plain : w.wildchild = false) (leaf : w.children = [] → w.indices = [] ∧ w.handle.isSome)
      (single : w.children.length ≤ 1) (slash : ∀ c ∈ w.children, c.path.head? = some '/')
      (below : ∀ c ∈ w.children, c.Valid) : w.WildValid
  | catchAll {w : RawNode Ctrl} (isCatchAll : w.type = .CATCH_ALL) (wildPath : w.path = [])
      (plain : w.wildchild = false) (leaf : w.children = []) (handle : w.handle.isSome) :
      w.WildValid

theorem RawNode.Valid.ofWild {n w : RawNode Ctrl} (path : StaticPath n.path)
    (wild : n.wildchild = true) (type : n.type ≠ .ROOT)
    (indices : n.indices = [] ∨ n.indices = ['/']) (only : n.children = [w])
    (child : w.WildValid) : n.Valid := by
  cases child with
  | param isParam wildPath plain leaf single slash below =>
    exact .param path wild type indices only isParam wildPath plain leaf single slash below
  | catchAll isCatchAll wildPath plain leaf handle =>
    exact .catchAll path wild type indices only isCatchAll wildPath plain leaf handle

/-- Induction over a valid subtree, from a plain node to its children and from another one to the children
of its wildcard. -/
theorem RawNode.Valid.walk {motive : RawNode Ctrl → Prop} {n : RawNode Ctrl} (valid : n.Valid)
    (plain : ∀ n : RawNode Ctrl, n.Valid → n.wildchild = false → (∀ c ∈ n.children, motive c) →
      motive n)
    (wild : ∀ n w : RawNode Ctrl, n.Valid → n.wildchild = true → n.children = [w] → w.WildValid →
      (∀ c ∈ w.children, motive c) → motive n) : motive n := by
  induction valid with
  | @branch n path free type indexed nodup live below ih =>
    exact plain n (.branch path free type indexed nodup live below) free ih
  | @param n w path isWild type indices only isParam wildPath free leaf single slash below ih =>
    have child : w.WildValid := .param isParam wildPath free leaf single slash below
    exact wild n w (.ofWild path isWild type indices only child) isWild only child ih
  | @catchAll n w path isWild type indices only isCatchAll wildPath free leaf handle =>
    have child : w.WildValid := .catchAll isCatchAll wildPath free leaf handle
    apply wild n w (.ofWild path isWild type indices only child) isWild only child
    rw [leaf]
    exact List.forall_mem_nil _

theorem RawNode.Valid.staticPath {n : RawNode Ctrl} (valid : n.Valid) : StaticPath n.path := by
  cases valid <;> assumption

/-- A valid node may be given another path. -/
theorem RawNode.Valid.setPath {n : RawNode Ctrl} (valid : n.Valid) {path : Str}
    (static : StaticPath path) : RawNode.Valid { n with path := path } := by
  cases valid with
  | branch _ plain type indexed nodup live below =>
    exact .branch static plain type indexed nodup live below
  | param _ wild type indices only isParam wildPath plain leaf single slash below =>
    exact .param static wild type indices only isParam wildPath plain leaf single slash below
  | catchAll _ wild type indices only isCatchAll wildPath plain leaf handle =>
    exact .catchAll static wild type indices only isCatchAll wildPath plain leaf handle

theorem StaticPath.of_append_left {s t : Str} (static : StaticPath (s ++ t)) (nonempty : s ≠ []) :
    StaticPath s :=
  ⟨nonempty, fun h => static.noParam (List.mem_append_left t h),
    (List.isChain_append.mp static.shaped).1⟩

theorem StaticPath.of_append_right {s t : Str} (static : StaticPath (s ++ t)) (nonempty : t ≠ []) :
    StaticPath t :=
  ⟨nonempty, fun h => static.noParam (List.mem_append_right s h),
    (List.isChain_append.mp static.shaped).2.1⟩

theorem RawNode.Valid.exists_head {n : RawNode Ctrl} (valid : n.Valid) :
    ∃ x s, n.path = x :: s ∧ x ≠ PARAM_CHAR := by
  obtain ⟨nonempty, noParam, -⟩ := valid.staticPath
  obtain ⟨x, s, path⟩ := List.exists_cons_of_ne_nil nonempty
  refine ⟨x, s, path, ?_⟩
  rintro rfl
  exact noParam (path ▸ List.mem_cons_self)

/-- Every stored route of a valid subtree begins with the node's first character. -/
theorem RawNode.Valid.head_literal {n : RawNode Ctrl} (valid : n.Valid) {x : Char}
    (head : n.path.head? = some x) : x ≠ PARAM_CHAR := by
  obtain ⟨y, s, path, literal⟩ := valid.exists_head
  rw [path, List.head?_cons, Option.some.injEq] at head
  exact head ▸ literal

/-- A parameter has one child at most. -/
theorem only_of_single {w c : RawNode Ctrl} {others : List (RawNode Ctrl)}
    (single : w.children.length ≤ 1) (children : w.children = c :: others) : w.children = [c] := by
  rw [children, List.length_cons] at single
  have none : others = [] := List.length_eq_zero_iff.mp (by omega)
  rw [children, none]

theorem RawNode.Valid.entry_head {n : RawNode Ctrl} (valid : n.Valid) {π : Pattern} {b : Ctrl}
    (stored : (π, b) ∈ n.entries) : ∃ x ρ, n.path.head? = some x ∧ x ≠ PARAM_CHAR ∧ π = .lit x :: ρ := by
  obtain ⟨x, s, path, literal⟩ := valid.exists_head
  rw [RawNode.entries_eq] at stored
  obtain ⟨ρ, hπ, -⟩ := stored
  refine ⟨x, lits s ++ ρ, by rw [path]; rfl, literal, ?_⟩
  rw [path] at hπ
  exact hπ

/-- A valid subtree stores at least one route. -/
theorem RawNode.Valid.exists_entry {n : RawNode Ctrl} (valid : n.Valid) :
    ∃ π b, (π, b) ∈ n.entries := by
  induction valid with
  | @branch n path plain type indexed nodup live below ih =>
    rw [RawNode.entries_eq, body_of_not_wild plain]
    rcases live with handle | children
    · obtain ⟨b, hb⟩ := Option.isSome_iff_exists.mp handle
      exact ⟨_, b, [], rfl, Or.inl ⟨rfl, hb⟩⟩
    · obtain ⟨c, cs, hc⟩ := List.exists_cons_of_ne_nil children
      have member : c ∈ n.children := hc ▸ List.mem_cons_self
      obtain ⟨π, b, stored⟩ := ih c member
      exact ⟨_, b, π, rfl, Or.inr (mem_childEntries.mpr ⟨c, member, stored⟩)⟩
  | @param n w path wild type indices only isParam wildPath plain leaf single slash below ih =>
    rw [RawNode.entries_eq, body_of_wild wild only, RawNode.wildBody]
    cases hc : w.children with
    | nil =>
      obtain ⟨b, hb⟩ := Option.isSome_iff_exists.mp (leaf hc).2
      exact ⟨_, b, _, rfl, Or.inr ⟨[], rfl, Or.inl ⟨rfl, hb⟩⟩⟩
    | cons c cs =>
      obtain ⟨π, b, stored⟩ := ih c (hc ▸ List.mem_cons_self)
      exact ⟨_, b, _, rfl, Or.inr ⟨π, rfl,
        Or.inr (mem_childEntries.mpr ⟨c, List.mem_cons_self, stored⟩)⟩⟩
  | @catchAll n w path wild type indices only isCatchAll wildPath plain leaf handle =>
    rw [RawNode.entries_eq, body_of_wild wild only, RawNode.wildBody]
    obtain ⟨b, hb⟩ := Option.isSome_iff_exists.mp handle
    exact ⟨_, b, _, rfl, Or.inr ⟨[], rfl, Or.inl ⟨rfl, hb⟩⟩⟩

theorem RawNode.WildValid.exists_entry {w : RawNode Ctrl} (valid : w.WildValid) :
    ∃ π b, (π, b) ∈ w.wildBody := by
  cases valid with
  | param isParam wildPath plain leaf single slash below =>
    cases hc : w.children with
    | nil =>
      obtain ⟨b, hb⟩ := Option.isSome_iff_exists.mp (leaf hc).2
      exact ⟨[], b, Or.inl ⟨rfl, hb⟩⟩
    | cons c cs =>
      have member : c ∈ w.children := hc ▸ List.mem_cons_self
      obtain ⟨π, b, stored⟩ := (below c member).exists_entry
      exact ⟨π, b, Or.inr (mem_childEntries.mpr ⟨c, member, stored⟩)⟩
  | catchAll isCatchAll wildPath plain leaf handle =>
    obtain ⟨b, hb⟩ := Option.isSome_iff_exists.mp handle
    exact ⟨[], b, Or.inl ⟨rfl, hb⟩⟩

end Cppmhd
