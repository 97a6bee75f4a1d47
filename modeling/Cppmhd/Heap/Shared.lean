import Cppmhd.Heap.Ownership
import Mathlib.Data.Set.Card

/-!
# Shared pointers

An object is deleted with the last shared pointer to it.  Where every count is the number of the holders
(`Counts`), what a holder does with its pointer never fails, and an object stays while somebody holds it.
-/

namespace Heap

variable {η α : Type*}

/-- An object, and how many shared pointers to it there are. -/
structure Counted (α : Type*) where
  count : ℕ
  value : α

namespace Memory

/-- The object at `p`. -/
def value (m : Memory (Counted α)) (p : ℕ) : Option α :=
  match m.block p with
  | some [o] => some o.value
  | _ => none

/-- A new object, at `m.next`, with its first shared pointer. -/
def share (m : Memory (Counted α)) (v : α) : Memory (Counted α) := m.alloc [⟨1, v⟩]

/-- Copies a shared pointer. -/
def retain (m : Memory (Counted α)) (p : ℕ) : Option (Memory (Counted α)) :=
  match m.block p with
  | some [o] => some (m.store p [⟨o.count + 1, o.value⟩])
  | _ => none

/-- Releases a shared pointer, and tells which object is deleted with it. -/
def release (m : Memory (Counted α)) (p : ℕ) : Option (Option α × Memory (Counted α)) :=
  match m.block p with
  | some [o] =>
    if o.count = 1 then some (some o.value, m.delete p)
    else some (none, m.store p [⟨o.count - 1, o.value⟩])
  | _ => none

/-- Writes the object at `p`, if there is one. -/
def modify (m : Memory (Counted α)) (p : ℕ) (v : α) : Memory (Counted α) :=
  match m.block p with
  | some [o] => m.store p [⟨o.count, v⟩]
  | _ => m

variable {m m' : Memory (Counted α)} {p : ℕ} {v : α} {r : Option α}

/-- Copies some shared pointers. -/
def retainAll (m : Memory (Counted α)) : List ℕ → Option (Memory (Counted α))
  | [] => some m
  | p :: ps => (m.retain p).bind fun m => m.retainAll ps

/-- Releases some shared pointers. -/
def releaseAll (m : Memory (Counted α)) : List ℕ → Option (Memory (Counted α))
  | [] => some m
  | p :: ps => (m.release p).bind fun r => r.2.releaseAll ps

theorem retain_next (taken : m.retain p = some m') : m'.next = m.next := by
  unfold retain at taken
  split at taken
  · rw [← Option.some.inj taken, store_next]
  · cases taken

theorem release_next (released : m.release p = some (r, m')) : m'.next = m.next := by
  unfold release at released
  split at released
  · split_ifs at released
    · rw [← (Prod.mk.inj (Option.some.inj released)).2, delete_next]
    · rw [← (Prod.mk.inj (Option.some.inj released)).2, store_next]
  · cases released

theorem retainAll_next {ps : List ℕ} (taken : m.retainAll ps = some m') : m'.next = m.next := by
  induction ps generalizing m with
  | nil => exact congrArg next (Option.some.inj taken).symm
  | cons p ps ih =>
    obtain ⟨m₁, retained, taken⟩ := Option.bind_eq_some_iff.mp taken
    exact (ih taken).trans (retain_next retained)

theorem releaseAll_next {ps : List ℕ} (released : m.releaseAll ps = some m') : m'.next = m.next := by
  induction ps generalizing m with
  | nil => exact congrArg next (Option.some.inj released).symm
  | cons p ps ih =>
    obtain ⟨⟨r, m₁⟩, first, released⟩ := Option.bind_eq_some_iff.mp released
    exact (ih released).trans (release_next first)

theorem value_modify (here : (m.value p).isSome) : (m.modify p v).value p = some v := by
  unfold value at here
  split at here
  · rename_i o block
    rw [modify, block, value, store_self]
  · cases here

theorem modify_next : (m.modify p v).next = m.next := by
  unfold modify
  split <;> rfl

end Memory

/-! ## Holders -/

/-- Who holds a pointer to `p`. -/
def holders (holds : η → Option ℕ) (p : ℕ) : Set η := {h | holds h = some p}

section Holders

variable [DecidableEq η] {holds : η → Option ℕ} {h : η} {p q : ℕ}

theorem holders_take (free : holds h = none) :
    holders (Function.update holds h (some p)) p = insert h (holders holds p) := by
  ext g
  by_cases same : g = h
  · subst same
    simp [holders]
  · simp [holders, same]

theorem holders_drop (here : holds h = some p) :
    insert h (holders (Function.update holds h none) p) = holders holds p := by
  ext g
  by_cases same : g = h
  · subst same
    simp [holders, here]
  · simp [holders, same]

theorem notMem_holders_drop : h ∉ holders (Function.update holds h none) p := by simp [holders]

theorem holders_other {x : Option ℕ} (before : holds h ≠ some q) (after : x ≠ some q) :
    holders (Function.update holds h x) q = holders holds q := by
  ext g
  by_cases same : g = h
  · subst same
    simp [holders, before, after]
  · simp [holders, same]

end Holders

/-- The count of every object is the number of those who hold it, and every object is held. -/
structure Counts (m : Memory (Counted α)) (holds : η → Option ℕ) : Prop where
  fresh : m.Fresh
  finite : ∀ p, (holders holds p).Finite
  block : ∀ p, m.block p = (m.value p).map fun v => [⟨(holders holds p).ncard, v⟩]
  held : ∀ p, (m.value p).isSome ↔ (holders holds p).Nonempty

namespace Counts

open Memory

variable {m : Memory (Counted α)} {holds : η → Option ℕ} {h g : η} {p q : ℕ} {v : α}

theorem of_block (value : ℕ → Option α) (fresh : m.Fresh) (finite : ∀ p, (holders holds p).Finite)
    (block : ∀ p, m.block p = (value p).map fun v => [⟨(holders holds p).ncard, v⟩])
    (held : ∀ p, (value p).isSome ↔ (holders holds p).Nonempty) : m.value = value ∧ Counts m holds := by
  have same : m.value = value := by
    funext p
    rw [Memory.value, block]
    cases value p <;> rfl
  subst same
  exact ⟨rfl, fresh, finite, block, held⟩

theorem empty (none : ∀ b, m.block b = none) (idle : ∀ h, holds h = .none) : Counts m holds := by
  have nobody : ∀ p, holders holds p = ∅ :=
    fun p => Set.eq_empty_of_forall_notMem fun h => by simp [holders, idle]
  refine (of_block (fun _ => .none) (fun b _ => none b) (fun p => ?_) none fun p => ?_).2
  · rw [nobody p]
    exact Set.finite_empty
  · simp [nobody p]

variable (counts : Counts m holds)

include counts

theorem value_of_held (here : holds h = some p) : ∃ v, m.value p = some v :=
  Option.isSome_iff_exists.mp ((counts.held p).mpr ⟨h, here⟩)

theorem block_of_value (here : m.value p = some v) : m.block p = some [⟨(holders holds p).ncard, v⟩] := by
  rw [counts.block, here]
  rfl

theorem lt_next_of_value (here : m.value p = some v) : p < m.next :=
  counts.fresh.lt_next (by rw [counts.block_of_value here]; rfl)

theorem lt_next_of_held (here : holds h = some p) : p < m.next := by
  obtain ⟨v, value⟩ := counts.value_of_held here
  exact counts.lt_next_of_value value

/-- A new object is where nothing was. -/
theorem nobody_next : holders holds m.next = ∅ := by
  rw [← Set.not_nonempty_iff_eq_empty, ← counts.held, Memory.value, counts.fresh m.next le_rfl]
  exact Bool.false_ne_true

/-- What an operation on the object at `p` does to the counts. -/
theorem change (m' : Memory (Counted α)) (holds' : η → Option ℕ) (x : Option α) (fresh : m'.Fresh)
    (frame : ∀ q, q ≠ p → m'.block q = m.block q)
    (others : ∀ q, q ≠ p → holders holds' q = holders holds q) (finite : (holders holds' p).Finite)
    (block : m'.block p = x.map fun v => [⟨(holders holds' p).ncard, v⟩])
    (held : x.isSome ↔ (holders holds' p).Nonempty) :
    m'.value = Function.update m.value p x ∧ Counts m' holds' := by
  refine of_block _ fresh (fun q => ?_) (fun q => ?_) fun q => ?_
  · by_cases same : q = p
    · exact same ▸ finite
    · rw [others q same]
      exact counts.finite q
  · by_cases same : q = p
    · rw [same, Function.update_self]
      exact block
    · rw [others q same, Function.update_of_ne same, frame q same]
      exact counts.block q
  · by_cases same : q = p
    · rw [same, Function.update_self]
      exact held
    · rw [others q same, Function.update_of_ne same]
      exact counts.held q

theorem modify (here : (m.value p).isSome) (v : α) :
    (m.modify p v).value = Function.update m.value p (some v) ∧ Counts (m.modify p v) holds := by
  have held := (counts.held p).mp here
  obtain ⟨old, here⟩ := Option.isSome_iff_exists.mp here
  have block := counts.block_of_value here
  have stored : m.modify p v = m.store p [⟨(holders holds p).ncard, v⟩] := by rw [Memory.modify, block]
  rw [stored]
  exact counts.change _ _ (some v) (counts.fresh.store (by rw [block]; rfl)) (fun q => store_other)
    (fun q _ => rfl) (counts.finite p) store_self (iff_of_true rfl held)

/-- The holders swap their pointers. -/
theorem rename (e : η ≃ η) : Counts m (holds ∘ e) := by
  have same : ∀ p, holders (holds ∘ e) p = e.symm '' holders holds p :=
    fun p => (e.symm.image_eq_preimage_symm (holders holds p)).symm
  refine ⟨counts.fresh, fun p => ?_, fun p => ?_, fun p => ?_⟩
  · rw [same]
    exact (counts.finite p).image _
  · rw [same, Set.ncard_image_of_injective _ e.symm.injective]
    exact counts.block p
  · rw [same, Set.image_nonempty]
    exact counts.held p

variable [DecidableEq η]

/-- A new object, with a pointer for somebody who has none. -/
theorem share (free : holds h = none) (v : α) :
    (m.share v).value = Function.update m.value m.next (some v) ∧
      Counts (m.share v) (Function.update holds h (some m.next)) := by
  have taken : holders (Function.update holds h (some m.next)) m.next = {h} := by
    rw [holders_take free, counts.nobody_next, insert_empty_eq]
  refine counts.change _ _ (some v) (counts.fresh.alloc _) (fun q => alloc_other m _)
    (fun q other => ?_) ?_ ?_ ?_
  · exact holders_other (by simp [free]) (by simpa using other.symm)
  · rw [taken]
    exact Set.finite_singleton h
  · rw [taken, Set.ncard_singleton]
    exact alloc_self
  · rw [taken]
    exact iff_of_true rfl (Set.singleton_nonempty h)

/-- Somebody who has no pointer gets a copy of one. -/
theorem retain (free : holds h = none) (here : holds g = some p) :
    ∃ m', m.retain p = some m' ∧ m'.value = m.value ∧ Counts m' (Function.update holds h (some p)) := by
  obtain ⟨v, value⟩ := counts.value_of_held here
  have block := counts.block_of_value value
  have taken := holders_take (p := p) free
  have more : (holders (Function.update holds h (some p)) p).ncard = (holders holds p).ncard + 1 := by
    rw [taken]
    exact Set.ncard_insert_of_notMem (by simp [holders, free]) (counts.finite p)
  have result := counts.change (m.store p [⟨(holders holds p).ncard + 1, v⟩])
    (Function.update holds h (some p)) (some v) (counts.fresh.store (by rw [block]; rfl))
    (fun q => store_other)
    (fun q other => holders_other (by simp [free]) (by simpa using other.symm))
    (taken ▸ (counts.finite p).insert h) (by rw [more]; exact store_self)
    (iff_of_true rfl (taken ▸ Set.insert_nonempty h _))
  rw [← value, Function.update_eq_self] at result
  exact ⟨_, by rw [Memory.retain, block], result⟩

/-- A pointer is released: the object stays if somebody else holds it, and goes otherwise. -/
theorem release (here : holds h = some p) :
    ∃ r m', m.release p = some (r, m') ∧ Counts m' (Function.update holds h none) ∧
      (r = none ∧ m'.value = m.value ∧ (∃ g, g ≠ h ∧ holds g = some p) ∨
        r = m.value p ∧ m'.value = Function.update m.value p none ∧ ∀ g, g ≠ h → holds g ≠ some p) := by
  obtain ⟨v, value⟩ := counts.value_of_held here
  have block := counts.block_of_value value
  have others : ∀ q, q ≠ p → holders (Function.update holds h none) q = holders holds q :=
    fun q other => holders_other (by simpa [here] using other.symm) (by simp)
  have left := holders_drop here
  have finite : (holders (Function.update holds h none) p).Finite :=
    (counts.finite p).subset (left ▸ Set.subset_insert _ _)
  have fewer : (holders holds p).ncard = (holders (Function.update holds h none) p).ncard + 1 := by
    rw [← left]
    exact Set.ncard_insert_of_notMem notMem_holders_drop finite
  rcases (holders (Function.update holds h none) p).eq_empty_or_nonempty with last | more
  · have one : (holders holds p).ncard = 1 := by rw [fewer, last, Set.ncard_empty]
    obtain ⟨gone, counts'⟩ := counts.change _ _ none (counts.fresh.delete p) (fun q => delete_other m) others
      finite delete_self (iff_of_false Bool.false_ne_true (by simp [last]))
    refine ⟨some v, _, ?_, counts', Or.inr ⟨value.symm, gone, fun g other holding => ?_⟩⟩
    · rw [Memory.release, block]
      exact if_pos one
    · have member : g ∈ holders (Function.update holds h none) p := by simpa [holders, other] using holding
      rw [last] at member
      exact member
  · have positive := (Set.ncard_pos finite).mpr more
    have result := counts.change (m.store p [⟨(holders (Function.update holds h none) p).ncard, v⟩])
      (Function.update holds h none) (some v) (counts.fresh.store (by rw [block]; rfl)) (fun q => store_other)
      others finite store_self (iff_of_true rfl more)
    rw [← value, Function.update_eq_self] at result
    obtain ⟨g, member⟩ := more
    have other : g ≠ h := fun same => notMem_holders_drop (same ▸ member)
    refine ⟨none, _, ?_, result.2, Or.inl ⟨rfl, result.1, g, other, ?_⟩⟩
    · rw [Memory.release, block]
      dsimp only
      rw [if_neg (by omega), fewer, Nat.add_sub_cancel]
    · simpa [holders, other] using member

/-- Some holders let their pointers go, one after the other. -/
theorem releaseAll {hs : List η} {ps : List ℕ} {holds' : η → Option ℕ} (nodup : hs.Nodup)
    (each : hs.map holds = ps.map some) (gone : ∀ h ∈ hs, holds' h = none)
    (kept : ∀ h, h ∉ hs → holds' h = holds h) :
    ∃ m', m.releaseAll ps = some m' ∧ Counts m' holds' ∧ ∀ p v, m'.value p = some v → m.value p = some v := by
  induction hs generalizing m holds ps with
  | nil =>
    obtain rfl : ps = [] := by simpa using each
    obtain rfl : holds' = holds := funext fun h => kept h List.not_mem_nil
    exact ⟨m, rfl, counts, fun _ _ same => same⟩
  | cons h hs ih =>
    cases ps with
    | nil => cases each
    | cons p ps =>
      obtain ⟨here, later⟩ := List.cons.inj each
      obtain ⟨other, nodup⟩ := List.nodup_cons.mp nodup
      obtain ⟨r, m₁, released, counts₁, values⟩ := counts.release here
      have same : hs.map (Function.update holds h none) = ps.map some := by
        rw [← later]
        refine List.map_congr_left fun g member => Function.update_of_ne ?_ _ _
        exact fun this => other (this ▸ member)
      have kept₁ : ∀ g, g ∉ hs → holds' g = Function.update holds h none g := by
        intro g foreign
        by_cases this : g = h
        · rw [this, Function.update_self]
          exact gone h List.mem_cons_self
        · rw [Function.update_of_ne this]
          exact kept g fun member => (List.mem_cons.mp member).elim this foreign
      obtain ⟨m₂, all, counts₂, values₂⟩ :=
        ih counts₁ nodup same (fun g member => gone g (List.mem_cons_of_mem _ member)) kept₁
      refine ⟨m₂, ?_, counts₂, fun q v found => ?_⟩
      · rw [Memory.releaseAll, released]
        exact all
      · have found := values₂ q v found
        rcases values with ⟨-, kept, -⟩ | ⟨-, lost, -⟩
        · rwa [kept] at found
        · rw [lost] at found
          by_cases this : q = p
          · rw [this, Function.update_self] at found
            cases found
          · rwa [Function.update_of_ne this] at found

end Counts

/-! ## Vectors of shared pointers -/

/-- The elements of some vectors as holders. -/
def slots {κ : Type*} (vectors : κ → List ℕ) (h : κ × ℕ) : Option ℕ := (vectors h.1)[h.2]?

section Vectors

open Memory

variable {κ : Type*} {m : Memory (Counted α)} {vectors : κ → List ℕ} {k : κ} {p : ℕ}

theorem slots_length : slots vectors (k, (vectors k).length) = none := List.getElem?_eq_none le_rfl

theorem exists_slot : (∃ h, slots vectors h = some p) ↔ ∃ k, p ∈ vectors k := by
  constructor
  · rintro ⟨⟨k, i⟩, here⟩
    exact ⟨k, List.mem_of_getElem? here⟩
  · rintro ⟨k, member⟩
    obtain ⟨i, here⟩ := List.mem_iff_getElem?.mp member
    exact ⟨(k, i), here⟩

variable [DecidableEq κ]

theorem slots_push : slots (Function.update vectors k (vectors k ++ [p])) =
    Function.update (slots vectors) (k, (vectors k).length) (some p) := by
  funext ⟨j, i⟩
  by_cases same : j = k
  · subst same
    by_cases last : i = (vectors j).length
    · subst last
      simp [slots]
    · have other : (j, i) ≠ (j, (vectors j).length) := fun this => last (Prod.mk.inj this).2
      rw [Function.update_of_ne other, slots, Function.update_self, slots, List.getElem?_append]
      dsimp only
      by_cases inside : i < (vectors j).length
      · rw [if_pos inside]
      · rw [if_neg inside, List.getElem?_eq_none (by simp; omega), List.getElem?_eq_none (by omega)]
  · have other : (j, i) ≠ (k, (vectors k).length) := fun this => same (Prod.mk.inj this).1
    rw [Function.update_of_ne other, slots, Function.update_of_ne same, slots]

variable (counts : Counts m (slots vectors))

include counts

/-- Two vectors are swapped. -/
theorem Counts.swap (i j : κ) : Counts m (slots (vectors ∘ Equiv.swap i j)) :=
  counts.rename ((Equiv.swap i j).prodCongr (Equiv.refl ℕ))

/-- A new object behind the last pointer of a vector. -/
theorem Counts.pushNew (k : κ) (v : α) : (m.share v).value = Function.update m.value m.next (some v) ∧
    Counts (m.share v) (slots (Function.update vectors k (vectors k ++ [m.next]))) := by
  rw [slots_push]
  exact counts.share slots_length v

/-- Copies of pointers behind the last one of a vector. -/
theorem Counts.append (k : κ) (ps : List ℕ) (held : ∀ p ∈ ps, ∃ k, p ∈ vectors k) :
    ∃ m', m.retainAll ps = some m' ∧ m'.value = m.value ∧
      Counts m' (slots (Function.update vectors k (vectors k ++ ps))) := by
  induction ps generalizing m vectors with
  | nil => exact ⟨m, rfl, rfl, by rwa [List.append_nil, Function.update_eq_self]⟩
  | cons p ps ih =>
    obtain ⟨g, here⟩ := exists_slot.mpr (held p List.mem_cons_self)
    obtain ⟨m₁, retained, same, counts₁⟩ := counts.retain (h := (k, (vectors k).length)) slots_length here
    rw [← slots_push] at counts₁
    obtain ⟨m₂, all, same₂, counts₂⟩ := ih counts₁ fun q member => by
      obtain ⟨j, inside⟩ := held q (List.mem_cons_of_mem _ member)
      refine ⟨j, ?_⟩
      by_cases this : j = k
      · subst this
        rw [Function.update_self]
        exact List.mem_append_left _ inside
      · rwa [Function.update_of_ne this]
    rw [Function.update_self, Function.update_idem, List.append_assoc] at counts₂
    refine ⟨m₂, ?_, same₂.trans same, counts₂⟩
    rw [retainAll, retained]
    exact all

/-- All pointers of a vector are released. -/
theorem Counts.clear (k : κ) : ∃ m', m.releaseAll (vectors k) = some m' ∧
    Counts m' (slots (Function.update vectors k [])) ∧ ∀ p v, m'.value p = some v → m.value p = some v := by
  have nodup : ((List.range (vectors k).length).map (k, ·)).Nodup :=
    List.nodup_range.map fun i j same => (Prod.mk.inj same).2
  have each : ((List.range (vectors k).length).map (k, ·)).map (slots vectors) = (vectors k).map some := by
    refine List.ext_getElem? fun i => ?_
    by_cases inside : i < (vectors k).length
    · simp [slots, inside]
    · simp [inside]
  have member : ∀ j i, (j, i) ∈ (List.range (vectors k).length).map (k, ·) ↔
      j = k ∧ i < (vectors k).length := by
    intro j i
    constructor
    · intro inside
      obtain ⟨i', here, same⟩ := List.mem_map.mp inside
      obtain ⟨rfl, rfl⟩ := Prod.mk.inj same
      exact ⟨rfl, List.mem_range.mp here⟩
    · rintro ⟨rfl, inside⟩
      exact List.mem_map.mpr ⟨i, List.mem_range.mpr inside, rfl⟩
  refine counts.releaseAll nodup each (fun ⟨j, i⟩ inside => ?_) fun ⟨j, i⟩ foreign => ?_
  · rw [slots, ((member j i).mp inside).1, Function.update_self]
    rfl
  · by_cases this : j = k
    · subst this
      have behind : (vectors j).length ≤ i := by
        by_contra inside
        exact foreign ((member j i).mpr ⟨rfl, by omega⟩)
      rw [slots, Function.update_self, slots, List.getElem?_eq_none behind]
      rfl
    · rw [slots, Function.update_of_ne this, slots]

end Vectors

end Heap
