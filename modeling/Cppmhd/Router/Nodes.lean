import Cppmhd.Router.Build
import Cppmhd.Heap.Ownership
import Cppmhd.Runs.Fuel

/-!
# Nodes in memory

`RouterNode` of `router.h` with its pointers: the array `children_` ends with a null pointer and is
null when there are no children.  A subtree is in blocks of its own (`Holds`), and `~RouterNode` frees
each of these once (`deleteNode_spec`).
-/

open Heap Runs

namespace Cppmhd

variable {Ctrl : Type}

/-- Source `RouterNode`. -/
structure NodeObject (Ctrl : Type) where
  path_ : Str
  indices_ : Str
  children_ : Option ℕ
  handle_ : Option Ctrl
  type_ : RouterNodeType
  re_ : Regex
  name_ : Str
  wildchild_ : Bool

/-- The constructor of `RouterNode`, as `buildChild` calls it. -/
def RawNode.object (n : RawNode Ctrl) (children : Option ℕ) : NodeObject Ctrl :=
  ⟨n.path, n.indices, children, n.handle, n.type, n.re, n.name, n.wildchild⟩

/-- Source `RawNode`, with the pointers of its vector of children. -/
structure RawObject (Ctrl : Type) where
  path : Str := []
  indices : Str := []
  children : List ℕ := []
  handle : Option Ctrl := none
  type : RouterNodeType := .ROOT
  re : Regex := .null
  name : Str := []
  wildchild : Bool := false

/-- What a block consists of: a node of a router or of a tree under construction, or the entries of an
array of children, which nobody may read before they are written. -/
inductive Cell (Ctrl : Type) where
  | node (object : NodeObject Ctrl)
  | raw (object : RawObject Ctrl)
  | child (p : Option ℕ)
  | unset

/-- The node behind a pointer. -/
def nodeAt (m : Memory (Cell Ctrl)) (p : ℕ) : Option (NodeObject Ctrl) :=
  match m.block p with
  | some [.node object] => some object
  | _ => none

/-- `children_[i]`. -/
def childAt (m : Memory (Cell Ctrl)) (array i : ℕ) : Option (Option ℕ) :=
  match m.block array with
  | some cells =>
    match cells[i]? with
    | some (.child p) => some p
    | _ => none
  | none => none

/-! ## Deleting -/

mutual

/-- `delete` of a node: source `~RouterNode`, and the memory of the node. -/
def deleteNode (m : Memory (Cell Ctrl)) (p : ℕ) : ℕ → Option (Memory (Cell Ctrl))
  | 0 => none
  | fuel + 1 => do
    let node ← nodeAt m p
    let m ← match node.children_ with
      | none => some m
      | some array => do
        let m ← deleteChildren m array 0 fuel
        m.free array
    m.free p

/-- The loop of `~RouterNode` up to the null pointer, from index `i` on. -/
def deleteChildren (m : Memory (Cell Ctrl)) (array i : ℕ) : ℕ → Option (Memory (Cell Ctrl))
  | 0 => none
  | fuel + 1 => do
    match ← childAt m array i with
    | none => some m
    | some child => do
      let m ← deleteNode m child fuel
      deleteChildren m array (i + 1) fuel

end

/-- A node is larger than its children. -/
theorem sizeOf_child {n c : RawNode Ctrl} (member : c ∈ n.children) : sizeOf c < sizeOf n := by
  have below := List.sizeOf_lt_of_mem member
  cases n
  simp only [RawNode.mk.sizeOf_spec] at below ⊢
  omega

/-! ## Subtrees in memory -/

/-- The entries of an array that point to children. -/
def pointers (ps : List ℕ) : List (Cell Ctrl) := ps.map fun p => .child (some p)

@[simp] theorem pointers_length (ps : List ℕ) : (pointers ps : List (Cell Ctrl)).length = ps.length :=
  List.length_map _

/-- The array of these children, with the null pointer at its end. -/
def childCells (ps : List ℕ) : List (Cell Ctrl) := pointers ps ++ [.child none]

mutual

/-- A subtree is in memory, in the blocks `own`. -/
def Holds (m : Memory (Cell Ctrl)) : RouterNode Ctrl → ℕ → Set ℕ → Prop
  | n@⟨_, _, children, _, _, _, _, _⟩, p, own =>
    ∃ array below, m.block p = some [.node (n.object array)] ∧
      (match array with
        | none => children = [] ∧ below = ∅
        | some a => ∃ ps rest, m.block a = some (childCells ps) ∧ HoldsAll m children ps rest ∧
            a ∉ rest ∧ below = insert a rest) ∧
      p ∉ below ∧ own = insert p below

/-- Subtrees are in memory, each in blocks of its own. -/
def HoldsAll (m : Memory (Cell Ctrl)) : List (RouterNode Ctrl) → List ℕ → Set ℕ → Prop
  | [], ps, own => ps = [] ∧ own = ∅
  | child :: children, ps, own =>
    ∃ p rest here others, ps = p :: rest ∧ Holds m child p here ∧ HoldsAll m children rest others ∧
      Disjoint here others ∧ own = here ∪ others

end

section Frame

variable {m m' : Memory (Cell Ctrl)}

mutual

/-- What happens elsewhere leaves the subtree as it is. -/
theorem Holds.frame : ∀ {n : RouterNode Ctrl} {p : ℕ} {own : Set ℕ}, Holds m n p own →
    (∀ b ∈ own, m'.block b = m.block b) → Holds m' n p own
  | ⟨path, indices, children, handle, type, re, name, wildchild⟩, p, own, holds, same => by
    rw [Holds] at holds ⊢
    obtain ⟨array, below, here, children, outside, rfl⟩ := holds
    refine ⟨array, below, (same p (Set.mem_insert _ _)).trans here, ?_, outside, rfl⟩
    cases array with
    | none => exact children
    | some a =>
      obtain ⟨ps, rest, array, all, apart, rfl⟩ := children
      refine ⟨ps, rest, (same a (by simp)).trans array, all.frame ?_, apart, rfl⟩
      intro b own
      exact same b (by simp [own])

theorem HoldsAll.frame : ∀ {children : List (RouterNode Ctrl)} {ps : List ℕ} {own : Set ℕ},
    HoldsAll m children ps own → (∀ b ∈ own, m'.block b = m.block b) → HoldsAll m' children ps own
  | [], ps, own, holds, _ => by
    rw [HoldsAll] at holds ⊢
    exact holds
  | child :: children, ps, own, holds, same => by
    rw [HoldsAll] at holds ⊢
    obtain ⟨p, rest, here, others, rfl, first, all, apart, rfl⟩ := holds
    refine ⟨p, rest, here, others, rfl, first.frame ?_, all.frame ?_, apart, rfl⟩
    · exact fun b own => same b (Or.inl own)
    · exact fun b own => same b (Or.inr own)

end

mutual

/-- Nothing of the subtree was deleted. -/
theorem Holds.live : ∀ {n : RouterNode Ctrl} {p : ℕ} {own : Set ℕ}, Holds m n p own →
    ∀ b ∈ own, (m.block b).isSome
  | ⟨path, indices, children, handle, type, re, name, wildchild⟩, p, own, holds => by
    rw [Holds] at holds
    obtain ⟨array, below, here, children, -, rfl⟩ := holds
    rintro b (rfl | own)
    · rw [here]
      rfl
    · cases array with
      | none =>
        rw [children.2] at own
        exact absurd own (Set.notMem_empty b)
      | some a =>
        obtain ⟨ps, rest, array, all, -, rfl⟩ := children
        rcases own with rfl | own
        · rw [array]
          rfl
        · exact all.live b own

theorem HoldsAll.live : ∀ {children : List (RouterNode Ctrl)} {ps : List ℕ} {own : Set ℕ},
    HoldsAll m children ps own → ∀ b ∈ own, (m.block b).isSome
  | [], ps, own, holds => by
    rw [HoldsAll] at holds
    rw [holds.2]
    exact fun b own => absurd own (Set.notMem_empty b)
  | child :: children, ps, own, holds => by
    rw [HoldsAll] at holds
    obtain ⟨p, rest, here, others, rfl, first, all, -, rfl⟩ := holds
    rintro b (own | own)
    · exact first.live b own
    · exact all.live b own

end

end Frame

/-! ## What `~RouterNode` deletes -/

section Delete

variable {m : Memory (Cell Ctrl)}

theorem nodeAt_eq {p : ℕ} {object : NodeObject Ctrl} (here : m.block p = some [.node object]) :
    nodeAt m p = some object := by
  rw [nodeAt, here]

/-- No entry is read beyond the null pointer. -/
theorem childAt_eq {a i : ℕ} {ps : List ℕ} (here : m.block a = some (childCells ps))
    (inside : i ≤ ps.length) : childAt m a i = some ps[i]? := by
  rw [childAt, here]
  dsimp only
  rcases inside.lt_or_eq with before | rfl
  · rw [childCells, List.getElem?_append_left (by simpa using before)]
    simp [pointers, before]
  · rw [childCells, List.getElem?_append_right (by simp)]
    simp

/-- A block is deleted, by the only owner of what is left. -/
theorem free_last {b : ℕ} (fresh : m.Fresh) (live : (m.block b).isSome) :
    m.free b = some (m.delete b) ∧ Memory.Hands m (m.delete b) {b} ∅ := by
  refine ⟨Memory.free_eq live, ?_⟩
  have only : ∀ c ∈ ({b} : Set ℕ), (m.block c).isSome := by
    rintro c rfl
    exact live
  have hands := Memory.Hands.delete fresh only rfl
  rwa [sdiff_self] at hands

/-- Deleting one subtree leaves the others, which are all that is left. -/
theorem HoldsAll.after {m' : Memory (Cell Ctrl)} {children : List (RouterNode Ctrl)} {ps : List ℕ}
    {here others : Set ℕ} (all : HoldsAll m children ps others) (fresh : m.Fresh)
    (hands : Memory.Hands m m' here ∅) (apart : Disjoint here others) :
    HoldsAll m' children ps others ∧ Memory.Hands m m' (here ∪ others) others := by
  constructor
  · refine all.frame fun b own => hands.frame b (Set.disjoint_right.mp apart own) ?_
    exact fresh.lt_next (all.live b own)
  · have wide := hands.widen fresh all.live apart
    rwa [Set.empty_union] at wide

mutual

/-- Deleting a subtree frees its blocks, each once. -/
theorem deleteNode_spec : ∀ {n : RouterNode Ctrl} {m : Memory (Cell Ctrl)} {p : ℕ} {own : Set ℕ},
    Holds m n p own → m.Fresh → ∃ m', Returns (deleteNode m p) m' ∧ Memory.Hands m m' own ∅
  | ⟨path, indices, children, handle, type, re, name, wildchild⟩, m, p, own, holds, fresh => by
    have live := holds.live
    rw [Holds] at holds
    obtain ⟨array, below, here, children, outside, rfl⟩ := holds
    have found := nodeAt_eq here
    cases array with
    | none =>
      obtain ⟨-, rfl⟩ := children
      obtain ⟨freed, hands⟩ := free_last fresh (live p (Set.mem_insert _ _))
      refine ⟨m.delete p, Returns.succ fun fuel => ?_, ?_⟩
      · rw [deleteNode, found]
        exact freed
      · rwa [insert_empty_eq]
    | some a =>
      obtain ⟨ps, rest, array, all, apart, rfl⟩ := children
      -- the children, then the array, then the node
      obtain ⟨m₁, deleted, hands⟩ := deleteChildren_spec ps a 0 all fresh array rfl (Nat.zero_le _) apart
      have others : Disjoint rest {a, p} := by
        rw [Set.disjoint_right]
        rintro b (rfl | rfl)
        · exact apart
        · exact fun own => outside (Or.inr own)
      have wide := hands.widen fresh (by rintro b (rfl | rfl) <;> exact live _ (by simp)) others
      rw [Set.empty_union] at wide
      have kept : ∀ b ∈ ({a, p} : Set ℕ), (m₁.block b).isSome := fun b own => ((wide.live b).mp own).1
      obtain ⟨freed, handsArray⟩ := free_last wide.fresh (kept a (by simp))
      have different : a ≠ p := fun same => outside (Or.inl same.symm)
      have wideArray := handsArray.widen wide.fresh (by rintro b rfl; exact kept b (by simp))
        (Set.disjoint_singleton.mpr different)
      rw [Set.empty_union, Set.singleton_union] at wideArray
      obtain ⟨freed', handsNode⟩ := free_last wideArray.fresh ((wideArray.live p).mp rfl).1
      refine ⟨(m₁.delete a).delete p, ?_, ?_⟩
      · have tail : Returns (fun _ => (m₁.free a).bind fun m => m.free p) ((m₁.delete a).delete p) :=
          .of_all fun _ => by rw [freed, Option.bind_some, freed']
        have both : Returns (fun fuel => (deleteChildren m a 0 fuel).bind fun m₁ =>
          (m₁.free a).bind fun m => m.free p) ((m₁.delete a).delete p) := deleted.bind tail
        refine both.next fun fuel => ?_
        rw [deleteNode, found]
        rfl
      · have sets : insert p (insert a rest) = rest ∪ {a, p} := by
          ext b
          simp only [Set.mem_insert_iff, Set.mem_union, Set.mem_singleton_iff]
          tauto
        rw [sets]
        exact (wide.trans wideArray).trans handsNode

theorem deleteChildren_spec : ∀ {children : List (RouterNode Ctrl)} {m : Memory (Cell Ctrl)}
    {ps : List ℕ} {own : Set ℕ} (all : List ℕ) (a i : ℕ), HoldsAll m children ps own → m.Fresh →
    m.block a = some (childCells all) → all.drop i = ps → i ≤ all.length → a ∉ own →
    ∃ m', Returns (deleteChildren m a i) m' ∧ Memory.Hands m m' own ∅
  | [], m, ps, own, all, a, i, holds, fresh, array, rest, inside, _ => by
    rw [HoldsAll] at holds
    obtain ⟨rfl, rfl⟩ := holds
    refine ⟨m, Returns.succ fun fuel => ?_, .refl fresh (by simp)⟩
    have last : all[i]? = none := by
      rw [← List.head?_drop, rest]
      rfl
    rw [deleteChildren, childAt_eq array inside, last]
    rfl
  | child :: children, m, ps, own, all, a, i, holds, fresh, array, rest, inside, outside => by
    rw [HoldsAll] at holds
    obtain ⟨p, others, here, below, rfl, first, later, apart, rfl⟩ := holds
    obtain ⟨m₁, deleted, hands⟩ := deleteNode_spec first fresh
    obtain ⟨moved, wide⟩ := later.after fresh hands apart
    have entry : all[i]? = some p := by
      rw [← List.head?_drop, rest]
      rfl
    obtain ⟨before, -⟩ := List.getElem?_eq_some_iff.mp entry
    have arrayLive : (m.block a).isSome := by
      rw [array]
      rfl
    have array' := (hands.frame a (fun own => outside (Or.inl own)) (fresh.lt_next arrayLive)).trans array
    obtain ⟨m₂, deleted', hands'⟩ := deleteChildren_spec all a (i + 1) moved hands.fresh array'
      (by rw [← List.tail_drop, rest, List.tail_cons]) before (fun own => outside (Or.inr own))
    have both : Returns (fun fuel => (deleteNode m p fuel).bind fun m => deleteChildren m a (i + 1) fuel)
        m₂ := deleted.bind deleted'
    refine ⟨m₂, both.next fun fuel => ?_, ?_⟩
    · rw [deleteChildren, childAt_eq array inside, entry]
      rfl
    · exact wide.trans hands'

end

end Delete

end Cppmhd
