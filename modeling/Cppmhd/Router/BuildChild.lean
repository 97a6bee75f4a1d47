import Cppmhd.Router.RawNodes

/-!
# Building the nodes of a router

`RawNode::buildChild` of `router.cc` in memory: it reads a tree under construction, moves the handles and
the regexes out of it, and allocates the nodes of a router.  What it builds is the same tree
(`placeAt_spec`).
-/

open Heap Runs

namespace Cppmhd

variable {Ctrl : Type}

/-- The constructor of `RouterNode`, as `buildChild` calls it. -/
def RawObject.node (o : RawObject Ctrl) (children : Option ℕ) : NodeObject Ctrl :=
  ⟨o.path, o.indices, children, o.handle, o.type, o.re, o.name, o.wildchild⟩

/-- The end of `buildChild`: the new node takes the handle and the regex of the old one. -/
def placeNode (m : Memory (Cell Ctrl)) (p : ℕ) (children : Option ℕ) :
    Option (Memory (Cell Ctrl) × ℕ) := do
  let o ← rawAt m p
  let m ← assignAt m p fun o => { o with handle := none, re := .null }
  some (m.alloc [.node (o.node children)], m.next)

mutual

/-- Source `RawNode::buildChild`. -/
def placeAt (m : Memory (Cell Ctrl)) (p : ℕ) : ℕ → Option (Memory (Cell Ctrl) × ℕ)
  | 0 => none
  | fuel + 1 => do
    let o ← rawAt m p
    if 0 < o.children.length then do
      let c := m.next
      let m ← placeAll (m.alloc (List.replicate (o.children.length + 1) .unset)) c 0 o.children fuel
      let m ← m.put c o.children.length (.child none)
      placeNode m p (some c)
    else placeNode m p none

/-- The loop of `buildChild` over the children, from index `i` on. -/
def placeAll (m : Memory (Cell Ctrl)) (c i : ℕ) : List ℕ → ℕ → Option (Memory (Cell Ctrl))
  | [], _ => some m
  | _ :: _, 0 => none
  | p :: ps, fuel + 1 => do
    let r ← placeAt m p fuel
    let m ← r.1.put c i (.child (some r.2))
    placeAll m c (i + 1) ps fuel

end

/-- The array while its entries are written. -/
theorem set_entry {pre : List (Cell Ctrl)} {i : ℕ} (length : pre.length = i) (x : Cell Ctrl) (k : ℕ) :
    (pre ++ List.replicate (k + 1) Cell.unset).set i x = pre ++ [x] ++ List.replicate k Cell.unset := by
  subst length
  rw [List.set_append_right _ _ le_rfl, Nat.sub_self, List.replicate_succ, List.set_cons_zero,
    List.append_assoc]
  rfl

/-- From the tree at `p` the same tree is built at `q` in new blocks; what is left of the first one keeps
its blocks. -/
structure Copies (m m' : Memory (Cell Ctrl)) (n : RawNode Ctrl) (p q : ℕ) (own fresh : Set ℕ) :
    Prop where
  hands : Memory.Hands m m' own (own ∪ fresh)
  apart : Disjoint own fresh
  holds : Holds m' n q fresh
  left : ∃ n', Held m' n' p own

/-- The same for the children of a node, and the array that is filled with the pointers to them. -/
structure CopiesAll (m m' : Memory (Cell Ctrl)) (children : List (RawNode Ctrl)) (c : ℕ)
    (pre : List (Cell Ctrl)) (ps qs : List ℕ) (own fresh : Set ℕ) : Prop where
  hands : Memory.Hands m m' (own ∪ {c}) (own ∪ {c} ∪ fresh)
  apart : Disjoint (own ∪ {c}) fresh
  entries : m'.block c = some (pre ++ pointers qs ++ [.unset])
  holds : HoldsAll m' children qs fresh
  left : ∃ children', HeldAll m' children' ps own

/-- The node is built when its children are: `more` are their blocks and the one of the array. -/
theorem placeNode_spec {m m₁ : Memory (Cell Ctrl)} {n : RawNode Ctrl} {p : ℕ} {ps : List ℕ}
    {below more : Set ℕ} (array : Option ℕ)
    (hands : Memory.Hands m m₁ (insert p below) (insert p below ∪ more))
    (apart : Disjoint (insert p below) more) (here : m₁.block p = some [.raw (n.raw ps)])
    (outside : p ∉ below) (left : ∃ children', HeldAll m₁ children' ps below)
    (holds : ∀ m₂ : Memory (Cell Ctrl), (∀ b ∈ more, m₂.block b = m₁.block b) → ∀ q, q ∉ more →
      m₂.block q = some [.node (n.object array)] → Holds m₂ n q (insert q more)) :
    ∃ m₂ q fresh, placeNode m₁ p array = some (m₂, q) ∧
      Copies m m₂ n p q (insert p below) fresh := by
  have live : ∀ b ∈ insert p below ∪ more, (m₁.block b).isSome := fun b own => ((hands.live b).mp own).1
  have old : ∀ b ∈ insert p below ∪ more, b ≠ m₁.next := fun b own =>
    (hands.fresh.lt_next (live b own)).ne
  let spent : RawObject Ctrl := { n.raw ps with handle := none, re := .null }
  have store := Memory.Hands.store hands.fresh live (Or.inl (Set.mem_insert p below)) [.raw spent]
  have alloc := Memory.Hands.alloc store.fresh (fun b own => ((store.live b).mp own).1)
    [.node (n.object array)]
  generalize final : (m₁.store p [.raw spent]).alloc [.node (n.object array)] = m₂ at alloc
  have kept : ∀ b ∈ insert p below ∪ more, b ≠ p → m₂.block b = m₁.block b := by
    intro b own other
    rw [← final, Memory.alloc_other (m₁.store p _) _ (old b own), Memory.store_other other]
  refine ⟨m₂, m₁.next, insert m₁.next more, ?_, ?_, ?_, ?_, ?_⟩
  · rw [placeNode, assignAt, rawAt, here, ← final]
    rfl
  · have sets : insert m₁.next (insert p below ∪ more) = insert p below ∪ insert m₁.next more :=
      Set.union_insert.symm
    rw [← sets]
    exact (hands.trans store).trans alloc
  · rw [Set.disjoint_insert_right]
    exact ⟨fun own => old _ (Or.inl own) rfl, apart⟩
  · refine holds m₂ (fun b own => kept b (Or.inr own) ?_) m₁.next (fun own => old _ (Or.inr own) rfl) ?_
    · rintro rfl
      exact Set.disjoint_left.mp apart (Set.mem_insert b below) own
    · rw [← final]
      exact Memory.alloc_self
  · obtain ⟨children', all⟩ := left
    refine ⟨{ n with handle := none, re := .null, children := children' },
      held_iff.mpr ⟨ps, below, ?_, ?_, outside, rfl⟩⟩
    · have before := old p (Or.inl (Set.mem_insert p below))
      rw [← final, Memory.alloc_other (m₁.store p _) _ before, Memory.store_self]
      rfl
    · refine all.frame fun b own => kept b (Or.inl (Set.mem_insert_of_mem p own)) ?_
      exact ne_of_mem_of_not_mem own outside

/-- The array of the children is allocated, filled and closed with a null pointer. -/
theorem array_spec {m m₂ : Memory (Cell Ctrl)} {n : RawNode Ctrl} {p : ℕ} {ps qs : List ℕ}
    {below new : Set ℕ} (held : Held m n p (insert p below)) (fresh : m.Fresh)
    (here : m.block p = some [.raw (n.raw ps)]) (outside : p ∉ below) (count : qs.length = n.children.length)
    (copies : CopiesAll (m.alloc (List.replicate (n.children.length + 1) .unset)) m₂ n.children m.next [] ps
      qs below new) :
    ∃ m₃, m₂.put m.next n.children.length (.child none) = some m₃ ∧
      Memory.Hands m m₃ (insert p below) (insert p below ∪ insert m.next new) ∧
      Disjoint (insert p below) (insert m.next new) ∧ m₃.block p = some [.raw (n.raw ps)] ∧
      (∃ children', HeldAll m₃ children' ps below) ∧ HoldsAll m₃ n.children qs new ∧
      m₃.block m.next = some (childCells qs) ∧ m.next ∉ new := by
  have alloc := Memory.Hands.alloc fresh held.live (List.replicate (n.children.length + 1) Cell.unset)
  generalize allocated : m.alloc (List.replicate (n.children.length + 1) Cell.unset) = m₁ at copies alloc
  have live : (m.block p).isSome := held.live p (Set.mem_insert p below)
  have other : p ≠ m.next := (fresh.lt_next live).ne
  have here₁ : m₁.block p = some [.raw (n.raw ps)] := by
    rw [← allocated, Memory.alloc_other m _ other, here]
  have single : ∀ b ∈ ({p} : Set ℕ), (m₁.block b).isSome := by
    rintro b rfl
    rw [here₁]
    rfl
  have separate : Disjoint (below ∪ {m.next}) {p} := by
    rw [Set.disjoint_singleton_right]
    rintro (own | same)
    · exact outside own
    · exact other same
  have wide := copies.hands.widen alloc.fresh single separate
  have here₂ := (copies.hands.same alloc.fresh single separate p rfl).trans here₁
  have disjoint := copies.hands.disjoint alloc.fresh single separate
  have entries : m₂.block m.next = some (pointers qs ++ [.unset]) := copies.entries
  have inside : n.children.length < (pointers qs ++ [Cell.unset] : List (Cell Ctrl)).length := by
    simp [count]
  have closed : (pointers qs ++ [Cell.unset] : List (Cell Ctrl)).set n.children.length (.child none) =
      childCells qs := by
    rw [List.set_append_right _ _ (by simp [count]), pointers_length, count, Nat.sub_self]
    rfl
  have store := Memory.Hands.store wide.fresh (fun b own => ((wide.live b).mp own).1)
    (Or.inl (Or.inl (Or.inr rfl)) : m.next ∈ below ∪ {m.next} ∪ new ∪ {p}) (childCells qs)
  have apart := copies.apart
  rw [Set.disjoint_union_left, Set.disjoint_singleton_left] at apart
  have outsideNew : p ∉ new := fun own => Set.disjoint_left.mp disjoint (Or.inr own) rfl
  refine ⟨m₂.store m.next (childCells qs), ?_, ?_, ?_, ?_, ?_, ?_, Memory.store_self, apart.2⟩
  · rw [Memory.put_eq entries inside, closed]
  · have start : insert m.next (insert p below) = below ∪ {m.next} ∪ {p} := by
      ext b
      simp only [Set.mem_insert_iff, Set.mem_union, Set.mem_singleton_iff]
      tauto
    have final : insert p below ∪ insert m.next new = below ∪ {m.next} ∪ new ∪ {p} := by
      ext b
      simp only [Set.mem_insert_iff, Set.mem_union, Set.mem_singleton_iff]
      tauto
    rw [start] at alloc
    rw [final]
    exact (alloc.trans wide).trans store
  · rw [Set.disjoint_insert_left, Set.disjoint_insert_right]
    refine ⟨?_, fun own => ?_, apart.1⟩
    · rintro (same | own)
      · exact other same
      · exact outsideNew own
    · exact (fresh.lt_next (held.live _ (Set.mem_insert_of_mem p own))).ne rfl
  · rw [Memory.store_other other, here₂]
  · obtain ⟨children', all⟩ := copies.left
    refine ⟨children', all.frame fun b own => Memory.store_other ?_⟩
    exact (fresh.lt_next (held.live b (Set.mem_insert_of_mem p own))).ne
  · exact copies.holds.frame fun b own => Memory.store_other (ne_of_mem_of_not_mem own apart.2)

mutual

/-- `buildChild` builds the tree that it reads. -/
theorem placeAt_spec : ∀ {n : RawNode Ctrl} {m : Memory (Cell Ctrl)} {p : ℕ} {own : Set ℕ},
    Held m n p own → m.Fresh → ∃ m' q fresh, Returns (placeAt m p) (m', q) ∧ Copies m m' n p q own fresh
  | ⟨path, indices, children, handle, type, re, name, wildchild⟩, m, p, own, held, fresh => by
    have live := held.live
    obtain ⟨ps, below, here, all, outside, rfl⟩ := held_iff.mp held
    have count : (RawNode.raw ⟨path, indices, children, handle, type, re, name, wildchild⟩ ps).children.length
        = children.length := all.length
    by_cases inner : 0 < children.length
    · have old : ∀ b ∈ below, b ≠ m.next := fun b own => (fresh.lt_next (all.live b own)).ne
      have kept : HeldAll (m.alloc (List.replicate (children.length + 1) .unset)) children ps below :=
        all.frame fun b own => Memory.alloc_other m _ (old b own)
      obtain ⟨m₂, qs, new, filled, length, copies⟩ := placeAll_spec m.next 0 [] kept (fresh.alloc _)
        (fun own => old _ own rfl) Memory.alloc_self rfl
      obtain ⟨m₃, closed, hands, apart, here₃, left, holds, array, outsideNew⟩ :=
        array_spec held fresh here outside length copies
      obtain ⟨m', q, fresh', placed, copies⟩ := placeNode_spec (some m.next) hands apart here₃ outside left (by
        intro m₄ same q outsideQ node
        rw [Holds]
        exact ⟨some m.next, insert m.next new, node, ⟨qs, new, (same _ (Set.mem_insert _ new)).trans array,
          holds.frame fun b own => same b (Set.mem_insert_of_mem _ own), outsideNew, rfl⟩, outsideQ, rfl⟩)
      have tail : Returns (fun _ => (m₂.put m.next children.length (.child none)).bind fun m₃ =>
          placeNode m₃ p (some m.next)) (m', q) :=
        .of_all fun _ => by rw [closed, Option.bind_some, placed]
      have both : Returns (fun fuel => (placeAll (m.alloc (List.replicate (children.length + 1) .unset)) m.next 0
          ps fuel).bind fun m₂ => (m₂.put m.next children.length (.child none)).bind fun m₃ =>
            placeNode m₃ p (some m.next)) (m', q) := filled.bind tail
      refine ⟨m', q, fresh', both.next fun fuel => ?_, copies⟩
      rw [placeAt, rawAt, here, Option.bind_eq_bind, Option.bind_some, count, if_pos inner]
      rfl
    · have leaf : children = [] := List.length_eq_zero_iff.mp (by omega)
      have start : Memory.Hands m m (insert p below) (insert p below ∪ ∅) := by
        rw [Set.union_empty]
        exact .refl fresh live
      obtain ⟨m', q, new, placed, copies⟩ := placeNode_spec none start (Set.disjoint_empty _) here outside
        ⟨children, all⟩ (by
          intro m₂ _ q _ node
          rw [Holds]
          exact ⟨none, ∅, node, ⟨leaf, rfl⟩, Set.notMem_empty q, rfl⟩)
      refine ⟨m', q, new, .succ fun fuel => ?_, copies⟩
      rw [placeAt, rawAt, here, Option.bind_eq_bind, Option.bind_some, count, if_neg inner]
      exact placed

theorem placeAll_spec : ∀ {children : List (RawNode Ctrl)} {m : Memory (Cell Ctrl)} {ps : List ℕ}
    {own : Set ℕ} (c i : ℕ) (pre : List (Cell Ctrl)), HeldAll m children ps own → m.Fresh → c ∉ own →
    m.block c = some (pre ++ List.replicate (children.length + 1) Cell.unset) → pre.length = i →
    ∃ m' qs fresh, Returns (placeAll m c i ps) m' ∧ qs.length = children.length ∧
      CopiesAll m m' children c pre ps qs own fresh
  | [], m, ps, own, c, i, pre, all, fresh, outside, here, length => by
    rw [HeldAll] at all
    obtain ⟨rfl, rfl⟩ := all
    refine ⟨m, [], ∅, .of_all fun fuel => by cases fuel <;> rfl, rfl, ?_, Set.disjoint_empty _, ?_, ?_, ?_⟩
    · rw [Set.union_empty]
      apply Memory.Hands.refl fresh
      rintro b (none | rfl)
      · exact absurd none (Set.notMem_empty b)
      · rw [here]
        rfl
    · simpa [pointers] using here
    · rw [HoldsAll]
      exact ⟨rfl, rfl⟩
    · exact ⟨[], heldAll_nil⟩
  | child :: children, m, ps, own, c, i, pre, all, fresh, outside, here, length => by
    rw [HeldAll] at all
    obtain ⟨p, rest, own₁, own₂, rfl, first, all, apart, rfl⟩ := all
    obtain ⟨m₁, q, fresh₁, placed, copies⟩ := placeAt_spec first fresh
    have live : ∀ b ∈ own₂ ∪ {c}, (m.block b).isSome := by
      rintro b (own | rfl)
      · exact all.live b own
      · rw [here]
        rfl
    have separate : Disjoint own₁ (own₂ ∪ {c}) := by
      rw [Set.disjoint_union_right, Set.disjoint_singleton_right]
      exact ⟨apart, fun own => outside (Or.inl own)⟩
    have same := copies.hands.same fresh live separate
    have foreign : c ∉ own₁ ∪ fresh₁ := fun own =>
      Set.disjoint_left.mp (copies.hands.disjoint fresh live separate) own (Or.inr rfl)
    -- the pointer to the new node
    have entry := (same c (Or.inr rfl)).trans here
    have live₁ : ∀ b ∈ own₂ ∪ {c}, (m₁.block b).isSome := fun b own => (same b own).symm ▸ live b own
    have store := Memory.Hands.store copies.hands.fresh live₁ (Or.inr rfl)
      (pre ++ [.child (some q)] ++ List.replicate (children.length + 1) Cell.unset)
    have put : m₁.put c i (.child (some q)) = some (m₁.store c
        (pre ++ [.child (some q)] ++ List.replicate (children.length + 1) Cell.unset)) := by
      rw [Memory.put_eq entry (by simp [length]), List.length_cons, set_entry length]
    generalize written : m₁.store c (pre ++ [.child (some q)] ++ List.replicate (children.length + 1) Cell.unset)
      = m₂ at store put
    have moved : HeldAll m₂ children rest own₂ := by
      refine all.frame fun b own => ?_
      rw [← written, Memory.store_other (ne_of_mem_of_not_mem own fun own => outside (Or.inr own)),
        same b (Or.inl own)]
    obtain ⟨m₃, qs, fresh₂, filled, count, copiesAll⟩ := placeAll_spec c (i + 1) (pre ++ [.child (some q)])
      moved store.fresh (fun own => outside (Or.inr own)) (by rw [← written, Memory.store_self])
      (by simp [length])
    obtain ⟨whole, apart', distinct, kept⟩ := copies.hands.both fresh live separate copies.apart
      (store.trans copiesAll.hands) copiesAll.apart
    obtain ⟨n', left⟩ := copies.left
    obtain ⟨children', lefts⟩ := copiesAll.left
    rw [← Set.union_assoc] at whole apart'
    refine ⟨m₃, q :: qs, fresh₁ ∪ fresh₂, ?_, by rw [List.length_cons, List.length_cons, count], whole,
      apart', ?_, ?_, n' :: children', ?_⟩
    · have tail : Returns (fun fuel => (m₁.put c i (.child (some q))).bind fun m =>
          placeAll m c (i + 1) rest fuel) m₃ := by
        rw [put]
        exact filled
      have both : Returns (fun fuel => (placeAt m p fuel).bind fun r =>
          (r.1.put c i (.child (some r.2))).bind fun m => placeAll m c (i + 1) rest fuel) m₃ :=
        placed.bind tail
      refine both.next fun fuel => ?_
      rw [placeAll]
      rfl
    · rw [copiesAll.entries]
      simp [pointers]
    · rw [HoldsAll]
      exact ⟨q, qs, fresh₁, fresh₂, rfl, copies.holds.frame fun b own => kept b (Or.inr own), copiesAll.holds,
        distinct, rfl⟩
    · rw [HeldAll]
      exact ⟨p, rest, own₁, own₂, rfl, left.frame fun b own => kept b (Or.inl own), lefts, apart, rfl⟩

end

end Cppmhd
