import Cppmhd.Router.Nodes

/-!
# Trees under construction in memory

The nodes of `RawTree` of `router.cc` with their vectors of pointers.  A tree is in blocks of its own
(`Held`).  An operation on it that changes only these and new ones (`Becomes`) may assign members of
its root, append a child, and go on at a child; and `~RawNode` frees each block once
(`deleteRaw_spec`).
-/

open Heap Runs

namespace Cppmhd

variable {Ctrl : Type}

/-- The node behind a pointer. -/
def rawAt (m : Memory (Cell Ctrl)) (p : ℕ) : Option (RawObject Ctrl) :=
  match m.block p with
  | some [.raw o] => some o
  | _ => none

/-- Assigns members of the node behind a pointer. -/
def assignAt (m : Memory (Cell Ctrl)) (p : ℕ) (f : RawObject Ctrl → RawObject Ctrl) :
    Option (Memory (Cell Ctrl)) := do
  let o ← rawAt m p
  some (m.store p [.raw (f o)])

/-- `new RawNode`, at the end of the children of `node`. -/
def newChild (m : Memory (Cell Ctrl)) (node : ℕ) (child : RawObject Ctrl) :
    Option (Memory (Cell Ctrl) × ℕ) := do
  let p := m.next
  let m ← assignAt (m.alloc [.raw child]) node fun o => { o with children := o.children ++ [p] }
  some (m, p)

/-! ## Trees in memory -/

/-- The node in memory, with the pointers to its children. -/
def RawNode.raw (n : RawNode Ctrl) (children : List ℕ) : RawObject Ctrl :=
  ⟨n.path, n.indices, children, n.handle, n.type, n.re, n.name, n.wildchild⟩

/-- The node without children that an object is. -/
def RawObject.leaf (o : RawObject Ctrl) : RawNode Ctrl :=
  ⟨o.path, o.indices, [], o.handle, o.type, o.re, o.name, o.wildchild⟩

mutual

/-- A tree under construction is in memory, in the blocks `own`. -/
def Held (m : Memory (Cell Ctrl)) : RawNode Ctrl → ℕ → Set ℕ → Prop
  | n@⟨_, _, children, _, _, _, _, _⟩, p, own =>
    ∃ ps below, m.block p = some [.raw (n.raw ps)] ∧ HeldAll m children ps below ∧ p ∉ below ∧
      own = insert p below

/-- Trees are in memory, each in blocks of its own. -/
def HeldAll (m : Memory (Cell Ctrl)) : List (RawNode Ctrl) → List ℕ → Set ℕ → Prop
  | [], ps, own => ps = [] ∧ own = ∅
  | child :: children, ps, own =>
    ∃ p rest here others, ps = p :: rest ∧ Held m child p here ∧ HeldAll m children rest others ∧
      Disjoint here others ∧ own = here ∪ others

end

section Held

variable {m m' : Memory (Cell Ctrl)} {n : RawNode Ctrl} {p : ℕ} {own : Set ℕ}

theorem held_iff : Held m n p own ↔ ∃ ps below, m.block p = some [.raw (n.raw ps)] ∧
    HeldAll m n.children ps below ∧ p ∉ below ∧ own = insert p below := by
  cases n
  rw [Held]

mutual

theorem Held.frame : ∀ {n : RawNode Ctrl} {p : ℕ} {own : Set ℕ}, Held m n p own →
    (∀ b ∈ own, m'.block b = m.block b) → Held m' n p own
  | ⟨path, indices, children, handle, type, re, name, wildchild⟩, p, own, held, same => by
    rw [Held] at held ⊢
    obtain ⟨ps, below, here, all, outside, rfl⟩ := held
    refine ⟨ps, below, (same p (Set.mem_insert _ _)).trans here, all.frame ?_, outside, rfl⟩
    exact fun b own => same b (Set.mem_insert_of_mem _ own)

theorem HeldAll.frame : ∀ {children : List (RawNode Ctrl)} {ps : List ℕ} {own : Set ℕ},
    HeldAll m children ps own → (∀ b ∈ own, m'.block b = m.block b) → HeldAll m' children ps own
  | [], ps, own, held, _ => by
    rw [HeldAll] at held ⊢
    exact held
  | child :: children, ps, own, held, same => by
    rw [HeldAll] at held ⊢
    obtain ⟨p, rest, here, others, rfl, first, all, apart, rfl⟩ := held
    refine ⟨p, rest, here, others, rfl, first.frame ?_, all.frame ?_, apart, rfl⟩
    · exact fun b own => same b (Or.inl own)
    · exact fun b own => same b (Or.inr own)

end

mutual

theorem Held.live : ∀ {n : RawNode Ctrl} {p : ℕ} {own : Set ℕ}, Held m n p own →
    ∀ b ∈ own, (m.block b).isSome
  | ⟨path, indices, children, handle, type, re, name, wildchild⟩, p, own, held => by
    rw [Held] at held
    obtain ⟨ps, below, here, all, -, rfl⟩ := held
    rintro b (rfl | own)
    · rw [here]
      rfl
    · exact all.live b own

theorem HeldAll.live : ∀ {children : List (RawNode Ctrl)} {ps : List ℕ} {own : Set ℕ},
    HeldAll m children ps own → ∀ b ∈ own, (m.block b).isSome
  | [], ps, own, held => by
    rw [HeldAll] at held
    rw [held.2]
    exact fun b own => absurd own (Set.notMem_empty b)
  | child :: children, ps, own, held => by
    rw [HeldAll] at held
    obtain ⟨p, rest, here, others, rfl, first, all, -, rfl⟩ := held
    rintro b (own | own)
    · exact first.live b own
    · exact all.live b own

end

theorem heldAll_nil : HeldAll m [] [] ∅ := ⟨rfl, rfl⟩

/-- A node whose block was just written. -/
theorem held_leaf {o : RawObject Ctrl} (here : m.block p = some [.raw o]) (none : o.children = []) :
    Held m o.leaf p {p} := by
  rw [held_iff]
  refine ⟨[], ∅, ?_, heldAll_nil, Set.notMem_empty p, (insert_empty_eq p).symm⟩
  rw [here, RawNode.raw, RawObject.leaf, ← none]

theorem HeldAll.append {children : List (RawNode Ctrl)} {ps : List ℕ} {first last : Set ℕ}
    (all : HeldAll m children ps first) (held : Held m n p last) (apart : Disjoint first last) :
    HeldAll m (children ++ [n]) (ps ++ [p]) (first ∪ last) := by
  induction children generalizing ps first with
  | nil =>
    rw [HeldAll] at all
    obtain ⟨rfl, rfl⟩ := all
    rw [List.nil_append, HeldAll]
    exact ⟨p, [], last, ∅, rfl, held, heldAll_nil, Set.disjoint_empty _, by simp⟩
  | cons child children ih =>
    rw [HeldAll] at all
    obtain ⟨q, rest, here, others, rfl, child, all, separate, rfl⟩ := all
    rw [Set.disjoint_union_left] at apart
    rw [List.cons_append, HeldAll]
    refine ⟨q, rest ++ [p], here, others ∪ last, rfl, child, ih all apart.2, ?_, ?_⟩
    · exact Set.disjoint_union_right.mpr ⟨separate, apart.1⟩
    · exact Set.union_assoc _ _ _

/-- One of the children is replaced, in other blocks. -/
theorem HeldAll.focus {before after : List (RawNode Ctrl)} {c : RawNode Ctrl} {ps : List ℕ}
    (all : HeldAll m (before ++ c :: after) ps own) :
    ∃ q here others, ps[before.length]? = some q ∧ Held m c q here ∧ Disjoint here others ∧
      own = here ∪ others ∧ ∀ m' c' here', Held m' c' q here' → Disjoint here' others →
        (∀ b ∈ others, m'.block b = m.block b) →
          HeldAll m' (before ++ c' :: after) ps (here' ∪ others) := by
  induction before generalizing ps own with
  | nil =>
    rw [List.nil_append, HeldAll] at all
    obtain ⟨q, rest, here, others, rfl, held, all, apart, rfl⟩ := all
    refine ⟨q, here, others, rfl, held, apart, rfl, fun m' c' here' held apart same => ?_⟩
    rw [List.nil_append, HeldAll]
    exact ⟨q, rest, here', others, rfl, held, all.frame same, apart, rfl⟩
  | cons first before ih =>
    rw [List.cons_append, HeldAll] at all
    obtain ⟨q, rest, own₁, own₂, rfl, held, all, apart, rfl⟩ := all
    obtain ⟨q', here, others, entry, child, separate, rfl, replace⟩ := ih all
    rw [Set.disjoint_union_right] at apart
    refine ⟨q', here, own₁ ∪ others, entry, child, ?_, ?_, fun m' c' here' held' apart' same => ?_⟩
    · exact Set.disjoint_union_right.mpr ⟨apart.1.symm, separate⟩
    · exact Set.union_left_comm _ _ _
    · rw [Set.disjoint_union_right] at apart'
      rw [List.cons_append, HeldAll]
      refine ⟨q, rest, own₁, here' ∪ others, rfl, held.frame fun b own => same b (Or.inl own),
        replace m' c' here' held' apart'.2 fun b own => same b (Or.inr own), ?_, ?_⟩
      · exact Set.disjoint_union_right.mpr ⟨apart'.1.symm, apart.2⟩
      · exact Set.union_left_comm _ _ _

theorem HeldAll.length {children : List (RawNode Ctrl)} {ps : List ℕ}
    (all : HeldAll m children ps own) : ps.length = children.length := by
  induction children generalizing ps own with
  | nil =>
    rw [HeldAll] at all
    rw [all.1]
    rfl
  | cons child children ih =>
    rw [HeldAll] at all
    obtain ⟨q, rest, here, others, rfl, -, all, -, -⟩ := all
    rw [List.length_cons, List.length_cons, ih all]

/-- A tree in memory can be read at its root. -/
theorem Held.read (held : Held m n p own) :
    ∃ ps, rawAt m p = some (n.raw ps) ∧ ps.length = n.children.length := by
  rw [held_iff] at held
  obtain ⟨ps, below, here, all, -, -⟩ := held
  exact ⟨ps, by rw [rawAt, here], all.length⟩

end Held

/-! ## Rules for operations on a tree -/

/-- An operation of the owner of `own` leaves this tree in place of the one at `p`. -/
def Becomes (m m' : Memory (Cell Ctrl)) (p : ℕ) (own : Set ℕ) (n : RawNode Ctrl) : Prop :=
  ∃ own', Memory.Hands m m' own own' ∧ Held m' n p own'

section Rules

variable {m : Memory (Cell Ctrl)} {n : RawNode Ctrl} {p : ℕ} {own : Set ℕ}

theorem Becomes.refl (held : Held m n p own) (fresh : m.Fresh) : Becomes m m p own n :=
  ⟨own, .refl fresh held.live, held⟩

theorem Becomes.after {m₁ m₂ : Memory (Cell Ctrl)} {own₁ : Set ℕ} (becomes : Becomes m₁ m₂ p own₁ n)
    (hands : Memory.Hands m m₁ own own₁) : Becomes m m₂ p own n := by
  obtain ⟨own₂, later, held⟩ := becomes
  exact ⟨own₂, hands.trans later, held⟩

/-- Members of the root are assigned. -/
theorem assignAt_spec (held : Held m n p own) (fresh : m.Fresh) {f : RawObject Ctrl → RawObject Ctrl}
    (n' : RawNode Ctrl) (children : n'.children = n.children)
    (members : ∀ ps, f (n.raw ps) = n'.raw ps) :
    ∃ m₁, assignAt m p f = some m₁ ∧ Memory.Hands m m₁ own own ∧ Held m₁ n' p own := by
  have live := held.live
  rw [held_iff] at held
  obtain ⟨ps, below, here, all, outside, rfl⟩ := held
  refine ⟨m.store p [.raw (n'.raw ps)], ?_, .store fresh live (Set.mem_insert p below) _, ?_⟩
  · rw [assignAt, rawAt, here, ← members]
    rfl
  · rw [held_iff]
    refine ⟨ps, below, Memory.store_self, ?_, outside, rfl⟩
    rw [children]
    exact all.frame fun b own => Memory.store_other (ne_of_mem_of_not_mem own outside)

/-- A child is appended, and the rest is done there. -/
theorem newChild_spec (held : Held m n p own) (fresh : m.Fresh) (child : RawObject Ctrl)
    (leaf : child.children = []) :
    ∃ m₁ q, newChild m p child = some (m₁, q) ∧ m₁.Fresh ∧ Held m₁ child.leaf q {q} ∧
      ∀ m₂ c, Becomes m₁ m₂ q {q} c →
        Becomes m m₂ p own { n with children := n.children ++ [c] } := by
  have live := held.live
  rw [held_iff] at held
  obtain ⟨ps, below, here, all, outside, rfl⟩ := held
  have first := Memory.Hands.alloc fresh live [.raw child]
  have old : ∀ b ∈ insert p below, b ≠ m.next := fun b own =>
    (fresh.lt_next (live b own)).ne
  have second := Memory.Hands.store first.fresh (fun b own => ((first.live b).mp own).1)
    (Set.mem_insert_of_mem _ (Set.mem_insert p below)) [.raw (n.raw (ps ++ [m.next]))]
  have hands := first.trans second
  have other : m.next ≠ p := (old p (Set.mem_insert p below)).symm
  refine ⟨(m.alloc [.raw child]).store p [.raw (n.raw (ps ++ [m.next]))], m.next, ?_, hands.fresh, ?_, ?_⟩
  · have there : (m.alloc [.raw child]).block p = some [.raw (n.raw ps)] := by
      rw [Memory.alloc_other _ _ other.symm, here]
    rw [newChild, assignAt, rawAt, there]
    rfl
  · apply held_leaf _ leaf
    rw [Memory.store_other other, Memory.alloc_self]
  · rintro m₂ c ⟨own', later, held⟩
    generalize start : (m.alloc [.raw child]).store p [.raw (n.raw (ps ++ [m.next]))] = m₁
      at hands second later
    have kept : ∀ b ∈ insert p below, (m₁.block b).isSome :=
      fun b own => ((hands.live b).mp (Set.mem_insert_of_mem _ own)).1
    have apart : Disjoint {m.next} (insert p below) := by
      rw [Set.disjoint_singleton_left]
      exact fun own => old _ own rfl
    have wide := later.widen hands.fresh kept apart
    rw [Set.singleton_union] at wide
    have separate := later.disjoint hands.fresh kept apart
    have same := later.same hands.fresh kept apart
    refine ⟨own' ∪ insert p below, hands.trans wide, held_iff.mpr ⟨ps ++ [m.next], below ∪ own', ?_, ?_, ?_, ?_⟩⟩
    · rw [same p (Set.mem_insert p below), ← start, Memory.store_self]
      rfl
    · refine HeldAll.append (all.frame fun b own => ?_) held ?_
      · have inside := Set.mem_insert_of_mem p own
        rw [same b inside, ← start, Memory.store_other (ne_of_mem_of_not_mem own outside),
          Memory.alloc_other _ _ (old b inside)]
      · exact (Set.disjoint_of_subset_right (Set.subset_insert p below) separate).symm
    · rintro (inside | inside)
      · exact outside inside
      · exact Set.disjoint_left.mp separate inside (Set.mem_insert p below)
    · rw [Set.union_comm, Set.insert_union]

/-- The rest is done at a child. -/
theorem Held.focus (held : Held m n p own) (fresh : m.Fresh) {ps : List ℕ}
    (read : rawAt m p = some (n.raw ps)) {before after : List (RawNode Ctrl)} {c : RawNode Ctrl}
    (children : n.children = before ++ c :: after) :
    ∃ q here, ps[before.length]? = some q ∧ Held m c q here ∧
      ∀ m₂ c', Becomes m m₂ q here c' →
        Becomes m m₂ p own { n with children := before ++ c' :: after } := by
  have live := held.live
  rw [held_iff] at held
  obtain ⟨ps', below, block, all, outside, rfl⟩ := held
  have same : n.raw ps' = n.raw ps := by
    rw [rawAt, block] at read
    exact Option.some.inj read
  obtain rfl : ps' = ps := congrArg RawObject.children same
  clear same
  rw [children] at all
  obtain ⟨q, here, others, entry, child, apart, rfl, replace⟩ := all.focus
  refine ⟨q, here, entry, child, ?_⟩
  rintro m₂ c' ⟨own', hands, held⟩
  have separate : Disjoint here (insert p others) := by
    rw [Set.disjoint_insert_right]
    exact ⟨fun own => outside (Or.inl own), apart⟩
  have kept : ∀ b ∈ insert p others, (m.block b).isSome := by
    rintro b (rfl | own)
    · exact live b (Set.mem_insert b _)
    · exact live b (Set.mem_insert_of_mem p (Or.inr own))
  have same := hands.same fresh kept separate
  have disjoint := hands.disjoint fresh kept separate
  rw [Set.disjoint_insert_right] at disjoint
  have wide := hands.widen fresh kept separate
  rw [Set.union_insert, Set.union_insert] at wide
  refine ⟨_, wide, held_iff.mpr ⟨ps', own' ∪ others, ?_, ?_, ?_, rfl⟩⟩
  · rw [same p (Set.mem_insert p others), block]
    rfl
  · exact replace m₂ c' own' held disjoint.2 fun b own => same b (Set.mem_insert_of_mem p own)
  · rintro (inside | inside)
    · exact disjoint.1 inside
    · exact outside (Or.inr inside)

end Rules

/-! ## `~RawNode` -/

mutual

/-- `delete` of a node: source `~RawNode`, and the memory of the node. -/
def deleteRaw (m : Memory (Cell Ctrl)) (p : ℕ) : ℕ → Option (Memory (Cell Ctrl))
  | 0 => none
  | fuel + 1 => do
    let o ← rawAt m p
    let m ← deleteRaws m o.children fuel
    m.free p

/-- `delete` of the children. -/
def deleteRaws (m : Memory (Cell Ctrl)) : List ℕ → ℕ → Option (Memory (Cell Ctrl))
  | [], _ => some m
  | _ :: _, 0 => none
  | p :: ps, fuel + 1 => do
    let m ← deleteRaw m p fuel
    deleteRaws m ps fuel

end

mutual

/-- Deleting a tree under construction frees its blocks, each once. -/
theorem deleteRaw_spec : ∀ {n : RawNode Ctrl} {m : Memory (Cell Ctrl)} {p : ℕ} {own : Set ℕ},
    Held m n p own → m.Fresh → ∃ m', Returns (deleteRaw m p) m' ∧ Memory.Hands m m' own ∅
  | ⟨path, indices, children, handle, type, re, name, wildchild⟩, m, p, own, held, fresh => by
    have live := held.live
    rw [Held] at held
    obtain ⟨ps, below, here, all, outside, rfl⟩ := held
    obtain ⟨m₁, deleted, hands⟩ := deleteRaws_spec all fresh
    have single : ∀ b ∈ ({p} : Set ℕ), (m.block b).isSome := by
      rintro b rfl
      exact live b (Set.mem_insert b _)
    have apart : Disjoint below {p} := Set.disjoint_singleton_right.mpr outside
    have wide := hands.widen fresh single apart
    rw [Set.empty_union] at wide
    obtain ⟨freed, last⟩ := free_last wide.fresh ((wide.live p).mp rfl).1
    refine ⟨m₁.delete p, ?_, ?_⟩
    · have tail : Returns (fun _ => m₁.free p) (m₁.delete p) := .of_all fun _ => freed
      have both : Returns (fun fuel => (deleteRaws m ps fuel).bind fun m => m.free p) (m₁.delete p) :=
        deleted.bind tail
      refine both.next fun fuel => ?_
      rw [deleteRaw, rawAt, here]
      rfl
    · rw [Set.insert_eq, Set.union_comm]
      exact wide.trans last

theorem deleteRaws_spec : ∀ {children : List (RawNode Ctrl)} {m : Memory (Cell Ctrl)} {ps : List ℕ}
    {own : Set ℕ}, HeldAll m children ps own → m.Fresh →
    ∃ m', Returns (deleteRaws m ps) m' ∧ Memory.Hands m m' own ∅
  | [], m, ps, own, all, fresh => by
    rw [HeldAll] at all
    obtain ⟨rfl, rfl⟩ := all
    refine ⟨m, .of_all fun fuel => by cases fuel <;> rfl, .refl fresh (by simp)⟩
  | child :: children, m, ps, own, all, fresh => by
    rw [HeldAll] at all
    obtain ⟨p, rest, here, others, rfl, first, all, apart, rfl⟩ := all
    obtain ⟨m₁, deleted, hands⟩ := deleteRaw_spec first fresh
    have wide := hands.widen fresh all.live apart
    rw [Set.empty_union] at wide
    obtain ⟨m₂, deleted', hands'⟩ := deleteRaws_spec (all.frame (hands.same fresh all.live apart))
      hands.fresh
    have both : Returns (fun fuel => (deleteRaw m p fuel).bind fun m => deleteRaws m rest fuel) m₂ :=
      deleted.bind deleted'
    refine ⟨m₂, both.next fun fuel => ?_, wide.trans hands'⟩
    rw [deleteRaws]
    rfl

end

end Cppmhd
