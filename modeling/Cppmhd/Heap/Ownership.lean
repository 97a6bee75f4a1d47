import Cppmhd.Heap.Memory
import Cppmhd.Runs.Interleaved
import Mathlib.Data.Set.Lattice
import Mathlib.Order.CompletePartialOrder

/-!
# Owners of memory

The live blocks of a memory are divided among owners.  An operation of one owner that changes only
its own blocks and new ones (`Hands`) keeps the division, and what the others own (`Divided.hands`).
Components that take turns and keep to their blocks own all live blocks in every reachable state
(`Maintains.reachable`).
-/

open Runs

namespace Heap

variable {ι α : Type*}

namespace Memory

variable {m m' m'' : Memory α} {b c : ℕ} {data : List α}

/-- Writes a whole block. -/
def store (m : Memory α) (b : ℕ) (data : List α) : Memory α :=
  { m with block := Function.update m.block b (some data) }

@[simp] theorem store_next : (m.store b data).next = m.next := rfl

@[simp] theorem alloc_next : (m.alloc data).next = m.next + 1 := rfl

@[simp] theorem delete_next : (m.delete b).next = m.next := rfl

@[simp] theorem store_self : (m.store b data).block b = some data := Function.update_self _ _ _

@[simp] theorem alloc_self : (m.alloc data).block m.next = some data := Function.update_self _ _ _

@[simp] theorem delete_self : (m.delete b).block b = none := Function.update_self _ _ _

theorem store_other (other : c ≠ b) : (m.store b data).block c = m.block c :=
  Function.update_of_ne other _ _

/-- Writes one cell of a block that is allocated. -/
def put (m : Memory α) (b i : ℕ) (x : α) : Option (Memory α) :=
  match m.block b with
  | some data => if i < data.length then some (m.store b (data.set i x)) else none
  | none => none

/-- Deletes a block that is allocated. -/
def free (m : Memory α) (b : ℕ) : Option (Memory α) :=
  if (m.block b).isSome then some (m.delete b) else none

theorem put_eq {i : ℕ} (here : m.block b = some data) (inside : i < data.length) (x : α) :
    m.put b i x = some (m.store b (data.set i x)) := by
  simp only [put, here, if_pos inside]

theorem free_eq (live : (m.block b).isSome) : m.free b = some (m.delete b) := if_pos live

theorem Fresh.store (fresh : m.Fresh) (live : (m.block b).isSome) : (m.store b data).Fresh := by
  intro c later
  have inside := fresh.lt_next live
  rw [store_next] at later
  rw [store_other (by omega)]
  exact fresh c later

/-- What an operation of an owner of the blocks `before`, which owns the blocks `after` behind it, does
to the memory. -/
structure Hands (m m' : Memory α) (before after : Set ℕ) : Prop where
  next : m.next ≤ m'.next
  fresh : m'.Fresh
  frame : ∀ b, b ∉ before → b < m.next → m'.block b = m.block b
  live : ∀ b, b ∈ after ↔ (m'.block b).isSome ∧ (b ∈ before ∨ m.next ≤ b)

variable {before after later : Set ℕ}

theorem Hands.refl (fresh : m.Fresh) (live : ∀ b ∈ before, (m.block b).isSome) :
    Hands m m before before := by
  refine ⟨le_rfl, fresh, fun _ _ _ => rfl, fun b => ?_⟩
  constructor
  · exact fun own => ⟨live b own, Or.inl own⟩
  · rintro ⟨here, own | beyond⟩
    · exact own
    · have inside := fresh.lt_next here
      omega

theorem Hands.trans (first : Hands m m' before after) (second : Hands m' m'' after later) :
    Hands m m'' before later := by
  refine ⟨first.next.trans second.next, second.fresh, fun b foreign old => ?_, fun b => ?_⟩
  · have foreign' : b ∉ after := by
      intro own
      rcases ((first.live b).mp own).2 with own | new
      · exact foreign own
      · omega
    rw [second.frame b foreign' (old.trans_le first.next), first.frame b foreign old]
  · constructor
    · intro own
      obtain ⟨here, own | new⟩ := (second.live b).mp own
      · exact ⟨here, ((first.live b).mp own).2⟩
      · exact ⟨here, Or.inr (first.next.trans new)⟩
    · rintro ⟨here, origin⟩
      refine (second.live b).mpr ⟨here, ?_⟩
      by_cases new : m'.next ≤ b
      · exact Or.inr new
      · by_cases own : b ∈ after
        · exact Or.inl own
        · have same := second.frame b own (by omega)
          exact Or.inl ((first.live b).mpr ⟨same ▸ here, origin⟩)

section Widen

variable {extra : Set ℕ} (hands : Hands m m' before after) (fresh : m.Fresh)
  (live : ∀ b ∈ extra, (m.block b).isSome) (apart : Disjoint before extra)

include hands fresh live apart

/-- An operation leaves alone what else its owner has. -/
theorem Hands.same : ∀ b ∈ extra, m'.block b = m.block b := fun b other =>
  hands.frame b (Set.disjoint_right.mp apart other) (fresh.lt_next (live b other))

theorem Hands.disjoint : Disjoint after extra := by
  rw [Set.disjoint_left]
  intro b own other
  rcases ((hands.live b).mp own).2 with old | new
  · exact Set.disjoint_left.mp apart old other
  · have inside := fresh.lt_next (live b other)
    omega

theorem Hands.widen : Hands m m' (before ∪ extra) (after ∪ extra) := by
  refine ⟨hands.next, hands.fresh, fun b foreign old => ?_, fun b => ?_⟩
  · exact hands.frame b (fun own => foreign (Or.inl own)) old
  · by_cases other : b ∈ extra
    · simp [other, hands.same fresh live apart b other, live b other]
    · simp [other, hands.live b]

end Widen

/-- Two operations, one after the other, on blocks of their own, that keep them and add new ones. -/
theorem Hands.both {extra x y : Set ℕ} (first : Hands m m' before (before ∪ x)) (fresh : m.Fresh)
    (live : ∀ b ∈ extra, (m.block b).isSome) (apart : Disjoint before extra) (new : Disjoint before x)
    (second : Hands m' m'' extra (extra ∪ y)) (new' : Disjoint extra y) :
    Hands m m'' (before ∪ extra) (before ∪ extra ∪ (x ∪ y)) ∧ Disjoint (before ∪ extra) (x ∪ y) ∧
      Disjoint x y ∧ ∀ b ∈ before ∪ x, m''.block b = m'.block b := by
  have wide := first.widen fresh live apart
  have separate := (first.disjoint fresh live apart).symm
  have live' : ∀ b ∈ before ∪ x, (m'.block b).isSome := fun b own => ((first.live b).mp own).1
  have same := second.same first.fresh live' separate
  have wide' := second.widen first.fresh live' separate
  have separate' := (second.disjoint first.fresh live' separate).symm
  refine ⟨?_, ?_, separate'.mono Set.subset_union_right Set.subset_union_right, same⟩
  · have middle : before ∪ x ∪ extra = extra ∪ (before ∪ x) := Set.union_comm _ _
    have final : before ∪ extra ∪ (x ∪ y) = extra ∪ y ∪ (before ∪ x) := by
      ext b
      simp only [Set.mem_union]
      tauto
    rw [middle] at wide
    rw [final]
    exact wide.trans wide'
  · rw [Set.disjoint_union_left, Set.disjoint_union_right, Set.disjoint_union_right]
    refine ⟨⟨new, ?_⟩, ?_, new'⟩
    · exact separate'.mono Set.subset_union_left Set.subset_union_right
    · exact separate.mono_right Set.subset_union_right

theorem Hands.alloc (fresh : m.Fresh) (live : ∀ b ∈ before, (m.block b).isSome) (data : List α) :
    Hands m (m.alloc data) before (insert m.next before) := by
  refine ⟨by simp, fresh.alloc data, fun b _ old => alloc_other m data (by omega), fun b => ?_⟩
  rw [Set.mem_insert_iff]
  by_cases new : b = m.next
  · subst new
    simp
  · rw [alloc_other m data new]
    constructor
    · rintro (same | own)
      · exact absurd same new
      · exact ⟨live b own, Or.inl own⟩
    · rintro ⟨here, own | beyond⟩
      · exact Or.inr own
      · have inside := fresh.lt_next here
        omega

theorem Hands.store (fresh : m.Fresh) (live : ∀ b ∈ before, (m.block b).isSome) (own : b ∈ before)
    (data : List α) : Hands m (m.store b data) before before := by
  refine ⟨le_rfl, fresh.store (live b own), fun c foreign _ => ?_, fun c => ?_⟩
  · exact store_other fun same => foreign (same ▸ own)
  · by_cases same : c = b
    · subst same
      simp [own]
    · rw [store_other same]
      exact (Hands.refl fresh live).live c

theorem Hands.delete (fresh : m.Fresh) (live : ∀ b ∈ before, (m.block b).isSome) (own : b ∈ before) :
    Hands m (m.delete b) before (before \ {b}) := by
  refine ⟨le_rfl, fresh.delete b, fun c foreign _ => ?_, fun c => ?_⟩
  · exact delete_other m fun same => foreign (same ▸ own)
  · rw [Set.mem_sdiff, Set.mem_singleton_iff]
    by_cases same : c = b
    · subst same
      simp
    · rw [delete_other m same]
      simp only [same, not_false_eq_true, and_true]
      exact (Hands.refl fresh live).live c

end Memory

open Memory

/-- The live blocks, divided among owners. -/
structure Divided (m : Memory α) (owns : ι → Set ℕ) : Prop where
  fresh : m.Fresh
  live : ∀ b, (m.block b).isSome ↔ ∃ i, b ∈ owns i
  apart : ∀ i j b, b ∈ owns i → b ∈ owns j → i = j

namespace Divided

variable {m m' : Memory α} {owns : ι → Set ℕ} {i j : ι} {b : ℕ} {after : Set ℕ}

theorem own_live (divided : Divided m owns) (own : b ∈ owns i) : (m.block b).isSome :=
  (divided.live b).mpr ⟨i, own⟩

/-- Nothing is allocated when nobody owns anything. -/
theorem empty (divided : Divided m owns) (none : ∀ i, owns i = ∅) (b : ℕ) : m.block b = .none := by
  rw [← Option.not_isSome_iff_eq_none, divided.live]
  rintro ⟨i, own⟩
  rw [none i] at own
  exact own

/-- Another owner keeps its blocks as they are. -/
theorem frame (divided : Divided m owns) (hands : Hands m m' (owns i) after) (other : j ≠ i)
    (own : b ∈ owns j) : m'.block b = m.block b := by
  refine hands.frame b (fun both => other (divided.apart j i b own both)) ?_
  exact divided.fresh.lt_next (divided.own_live own)

theorem hands [DecidableEq ι] (divided : Divided m owns) (hands : Hands m m' (owns i) after) :
    Divided m' (Function.update owns i after) := by
  -- a block that the operation leaves to its owner is no block of another one
  have foreign : ∀ j b, j ≠ i → b ∈ owns j → b ∉ after := by
    intro j b other own here
    rcases ((hands.live b).mp here).2 with both | new
    · exact other (divided.apart j i b own both)
    · have inside := divided.fresh.lt_next (divided.own_live own)
      omega
  refine ⟨hands.fresh, fun b => ?_, fun j k b left right => ?_⟩
  · constructor
    · intro here
      by_cases own : b ∈ after
      · exact ⟨i, by rwa [Function.update_self]⟩
      · have origin : b ∉ owns i ∧ b < m.next := by
          rw [hands.live] at own
          simp only [not_and, not_or, not_le] at own
          exact own here
        rw [hands.frame b origin.1 origin.2] at here
        obtain ⟨j, own⟩ := (divided.live b).mp here
        have other : j ≠ i := fun same => origin.1 (same ▸ own)
        exact ⟨j, by rwa [Function.update_of_ne other]⟩
    · rintro ⟨j, own⟩
      by_cases same : j = i
      · subst same
        rw [Function.update_self] at own
        exact ((hands.live b).mp own).1
      · rw [Function.update_of_ne same] at own
        rw [divided.frame hands same own]
        exact divided.own_live own
  · by_cases first : j = i
    · subst first
      rw [Function.update_self] at left
      by_contra other
      rw [Function.update_of_ne (Ne.symm other)] at right
      exact foreign k b (Ne.symm other) right left
    · rw [Function.update_of_ne first] at left
      by_cases second : k = i
      · subst second
        rw [Function.update_self] at right
        exact absurd right (foreign j b first left)
      · rw [Function.update_of_ne second] at right
        exact divided.apart j k b left right

/-- No block is allocated at first. -/
theorem of_empty {owns : ι → Set ℕ} (fresh : ∀ b, m.block b = none) (none : ∀ i, owns i = ∅) :
    Divided m owns := by
  refine ⟨fun b _ => fresh b, fun b => ?_, fun i j b own => ?_⟩
  · simp [fresh, none]
  · rw [none i] at own
    exact absurd own (Set.notMem_empty b)

end Divided

/-! ## Components that own blocks -/

variable {Shared Own : Type*} {mem : Shared → Memory α} {c : Component Shared Own}

/-- The steps of a component keep to blocks with which they keep `J`. -/
structure Maintains (c : Component Shared Own) (mem : Shared → Memory α)
    (J : Shared → Own → Set ℕ → Prop) : Prop where
  init : ∀ shared own, c.init own → J shared own ∅
  step : ∀ {shared own shared' own' blocks}, (mem shared).Fresh →
    (∀ b ∈ blocks, ((mem shared).block b).isSome) → J shared own blocks →
      c.step shared own shared' own' →
        ∃ after, Hands (mem shared) (mem shared') blocks after ∧ J shared' own' after
  frame : ∀ {shared shared' own blocks}, J shared own blocks →
    (∀ b ∈ blocks, (mem shared').block b = (mem shared).block b) → J shared' own blocks

/-- The live blocks are divided among the components. -/
theorem Maintains.reachable [DecidableEq ι] {J : Shared → Own → Set ℕ → Prop} {init : Shared → Prop}
    (keeps : Maintains c mem J) (empty : ∀ shared, init shared → ∀ b, (mem shared).block b = none)
    {s : Joint ι Shared Own} (reachable : (interleaved ι init c).Reachable s) :
    ∃ owns : ι → Set ℕ, Divided (mem s.shared) owns ∧ ∀ i, J s.shared (s.own i) (owns i) := by
  have stable : (interleaved ι init c).Stable fun s =>
      ∃ owns : ι → Set ℕ, Divided (mem s.shared) owns ∧ ∀ i, J s.shared (s.own i) (owns i) := by
    rintro s s' - ⟨owns, divided, holds⟩ ⟨i, own, step, next⟩
    obtain ⟨after, hands, here⟩ :=
      keeps.step divided.fresh (fun b own => divided.own_live own) (holds i) step
    refine ⟨Function.update owns i after, divided.hands hands, fun j => ?_⟩
    by_cases same : j = i
    · subst same
      rwa [next, Function.update_self, Function.update_self]
    · rw [next, Function.update_of_ne same, Function.update_of_ne same]
      exact keeps.frame (holds j) fun b own => divided.frame hands same own
  refine stable.reachable (fun s first => ⟨fun _ => ∅, ?_, fun i => ?_⟩) reachable
  · exact .of_empty (empty _ first.1) fun _ => rfl
  · exact keeps.init _ _ (first.2 i)

variable {owns : Own → Set ℕ} {I : Shared → Own → Prop}

/-- The same where the state of a component tells the blocks that it owns. -/
structure KeepsTo (c : Component Shared Own) (mem : Shared → Memory α) (owns : Own → Set ℕ)
    (I : Shared → Own → Prop) : Prop where
  init : ∀ shared own, c.init own → owns own = ∅ ∧ I shared own
  step : ∀ {shared own shared' own'}, (mem shared).Fresh →
    (∀ b ∈ owns own, ((mem shared).block b).isSome) → I shared own →
      c.step shared own shared' own' →
        Hands (mem shared) (mem shared') (owns own) (owns own') ∧ I shared' own'
  frame : ∀ {shared shared' own}, I shared own →
    (∀ b ∈ owns own, (mem shared').block b = (mem shared).block b) → I shared' own

theorem KeepsTo.maintains (keeps : KeepsTo c mem owns I) :
    Maintains c mem fun shared own blocks => blocks = owns own ∧ I shared own where
  init shared own first := ⟨(keeps.init shared own first).1.symm, (keeps.init shared own first).2⟩
  step := by
    rintro shared own shared' own' blocks fresh live ⟨rfl, holds⟩ step
    obtain ⟨hands, holds⟩ := keeps.step fresh live holds step
    exact ⟨_, hands, rfl, holds⟩
  frame := by
    rintro shared shared' own blocks ⟨rfl, holds⟩ same
    exact ⟨rfl, keeps.frame holds same⟩

/-- The live blocks are those of the components, of each its own. -/
theorem KeepsTo.reachable [DecidableEq ι] {init : Shared → Prop} (keeps : KeepsTo c mem owns I)
    (empty : ∀ shared, init shared → ∀ b, (mem shared).block b = none) {s : Joint ι Shared Own}
    (reachable : (interleaved ι init c).Reachable s) :
    Divided (mem s.shared) (fun i => owns (s.own i)) ∧ ∀ i, I s.shared (s.own i) := by
  obtain ⟨blocks, divided, holds⟩ := keeps.maintains.reachable empty reachable
  obtain rfl : blocks = fun i => owns (s.own i) := funext fun i => (holds i).1
  exact ⟨divided, fun i => (holds i).2⟩

end Heap
