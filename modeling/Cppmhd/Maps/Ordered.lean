import Mathlib.Data.List.Basic
import Mathlib.Data.List.Pairwise

/-!
# Ordered maps

A map in the order of a comparator, with the subscript operator that finds or inserts an entry.  The
comparator is a strict partial order: keys that it does not order share an entry, also where they have
different names.  `modifyAll_value_iff` says when a map nevertheless keeps the last value of every name.
-/

namespace Maps

/-- A comparator of keys with names: keys with one name are ordered alike. -/
structure Comparator (K N : Type*) where
  lt : K → K → Bool
  name : K → N
  irrefl : ∀ k, lt k k = false
  trans : ∀ {k₁ k₂ k₃}, lt k₁ k₂ = true → lt k₂ k₃ = true → lt k₁ k₃ = true
  congr : ∀ {k₁ k₂ l₁ l₂}, name k₁ = name k₂ → name l₁ = name l₂ → lt k₁ l₁ = lt k₂ l₂

variable {K N V : Type*} {c : Comparator K N}

/-- The comparator tells the keys apart, unless they have one name. -/
def Comparator.Separates (c : Comparator K N) (k l : K) : Prop :=
  c.name k = c.name l ∨ c.lt k l = true ∨ c.lt l k = true

theorem Comparator.name_ne (c : Comparator K N) {k l : K} (less : c.lt k l = true) :
    c.name k ≠ c.name l := by
  intro same
  rw [c.congr same rfl, c.irrefl] at less
  exact absurd less Bool.false_ne_true

/-! ## Entries -/

/-- The subscript operator with a function for the value: the entry at the lower bound of the key, if
the key is not less, or a new one in front of it. -/
def subscript (lt : K → K → Bool) (k : K) (d : V) (f : V → V) : List (K × V) → List (K × V)
  | [] => [(k, f d)]
  | e :: m =>
    if lt e.1 k then e :: subscript lt k d f m
    else if lt k e.1 then (k, f d) :: e :: m
    else (e.1, f e.2) :: m

section Subscript

variable {k : K} {d : V} {f : V → V}

theorem mem_subscript {lt : K → K → Bool} {m : List (K × V)} {e : K × V}
    (member : e ∈ subscript lt k d f m) : e.1 = k ∨ ∃ e' ∈ m, e'.1 = e.1 := by
  induction m with
  | nil => exact Or.inl (by rw [List.mem_singleton.mp member])
  | cons e₁ m ih =>
    unfold subscript at member
    split at member
    · rcases List.mem_cons.mp member with rfl | member
      · exact Or.inr ⟨e, List.mem_cons_self, rfl⟩
      · refine (ih member).imp_right ?_
        rintro ⟨e', member, same⟩
        exact ⟨e', List.mem_cons_of_mem _ member, same⟩
    · split at member
      · rcases List.mem_cons.mp member with rfl | member
        · exact Or.inl rfl
        · exact Or.inr ⟨e, member, rfl⟩
      · rcases List.mem_cons.mp member with rfl | member
        · exact Or.inr ⟨e₁, List.mem_cons_self, rfl⟩
        · exact Or.inr ⟨e, List.mem_cons_of_mem _ member, rfl⟩

theorem subscript_sorted {m : List (K × V)} (sorted : m.Pairwise (c.lt ·.1 ·.1)) :
    (subscript c.lt k d f m).Pairwise (c.lt ·.1 ·.1) := by
  induction m with
  | nil => exact List.pairwise_singleton _ _
  | cons e m ih =>
    obtain ⟨first, rest⟩ := List.pairwise_cons.mp sorted
    unfold subscript
    split
    · rename_i below
      refine List.pairwise_cons.mpr ⟨fun e' member => ?_, ih rest⟩
      rcases mem_subscript member with same | ⟨e'', member, same⟩
      · rwa [same]
      · rw [← same]
        exact first e'' member
    · split
      · rename_i above
        refine List.pairwise_cons.mpr ⟨fun e' member => ?_, sorted⟩
        rcases List.mem_cons.mp member with rfl | member
        · exact above
        · exact c.trans above (first e' member)
      · exact List.pairwise_cons.mpr ⟨first, rest⟩

end Subscript

/-! ## Maps -/

/-- The entries in the order of the comparator. -/
structure OrderedMap (c : Comparator K N) (V : Type*) where
  entries : List (K × V)
  sorted : entries.Pairwise (c.lt ·.1 ·.1)

namespace OrderedMap

/-- The map without entries. -/
def empty : OrderedMap c V := ⟨[], .nil⟩

/-- `f` applied to `m[k]`, where a missing entry begins with `d`. -/
def modify (m : OrderedMap c V) (k : K) (d : V) (f : V → V) : OrderedMap c V :=
  ⟨subscript c.lt k d f m.entries, subscript_sorted m.sorted⟩

/-- The names of the entries are different. -/
theorem nodup (m : OrderedMap c V) : (m.entries.map (c.name ·.1)).Nodup :=
  List.pairwise_map.mpr (m.sorted.imp fun less => c.name_ne less)

section Value

variable [DecidableEq N]

/-- The value under a name. -/
def value (m : OrderedMap c V) (n : N) : Option V :=
  (m.entries.find? (c.name ·.1 = n)).map (·.2)

theorem value_isSome {m : OrderedMap c V} {n : N} :
    (m.value n).isSome ↔ ∃ e ∈ m.entries, c.name e.1 = n := by
  rw [value, Option.isSome_map, List.find?_isSome]
  simp

/-- The comparator separates keys whose names have a value. -/
theorem separates_of_value {m : OrderedMap c V} {k l : K} (left : (m.value (c.name k)).isSome)
    (right : (m.value (c.name l)).isSome) : c.Separates k l := by
  obtain ⟨e, member, name⟩ := value_isSome.mp left
  obtain ⟨e', member', name'⟩ := value_isSome.mp right
  have less : m.entries.Pairwise fun e e' => c.Separates e.1 e'.1 :=
    m.sorted.imp fun less => Or.inr (Or.inl less)
  have greater : m.entries.Pairwise (flip fun e e' => c.Separates e.1 e'.1) :=
    m.sorted.imp fun less => Or.inr (Or.inr less)
  have self : ∀ e ∈ m.entries, c.Separates e.1 e.1 := fun _ _ => Or.inl rfl
  have separates := less.forall_of_forall_of_flip self greater member member'
  rwa [Comparator.Separates, name, name', c.congr name name', c.congr name' name] at separates

/-- A key that the comparator tells apart from all keys of the map has an entry of its own. -/
theorem modify_value {m : OrderedMap c V} {k : K} {d : V} {f : V → V}
    (separates : ∀ e ∈ m.entries, c.Separates e.1 k) (n : N) :
    (m.modify k d f).value n =
      if c.name k = n then some (f ((m.value n).getD d)) else m.value n := by
  obtain ⟨entries, sorted⟩ := m
  unfold value modify
  dsimp only
  induction entries with
  | nil => by_cases here : c.name k = n <;> simp [subscript, here]
  | cons e entries ih =>
    obtain ⟨first, rest⟩ := List.pairwise_cons.mp sorted
    have ih := ih rest fun e' member => separates e' (List.mem_cons_of_mem _ member)
    unfold subscript
    split
    · rename_i below
      have other := c.name_ne below
      rw [List.find?_cons, List.find?_cons]
      by_cases here : c.name e.1 = n
      · have different : c.name k ≠ n := fun same => other (here.trans same.symm)
        simp [here, different]
      · simpa [here] using ih
    · rename_i notBelow
      split
      · rename_i above
        have absent : ∀ e' ∈ e :: entries, c.name e'.1 ≠ c.name k := by
          intro e' member
          rcases List.mem_cons.mp member with rfl | member
          · exact (c.name_ne above).symm
          · exact (c.name_ne (c.trans above (first e' member))).symm
        rw [List.find?_cons]
        by_cases here : c.name k = n
        · subst here
          have none : (e :: entries).find? (c.name ·.1 = c.name k) = none :=
            List.find?_eq_none.mpr fun e' member => by simpa using absent e' member
          simp [none]
        · simp [here]
      · rename_i notAbove
        have same : c.name e.1 = c.name k := by
          rcases separates e List.mem_cons_self with same | less | greater
          · exact same
          · exact absurd less notBelow
          · exact absurd greater notAbove
        rw [List.find?_cons, List.find?_cons]
        by_cases here : c.name e.1 = n
        · simp [here, same ▸ here]
        · have other : c.name k ≠ n := fun h => here (same.trans h)
          simp [here, other]

/-! ### Many writes -/

/-- The map behind some writes, each a key with a function for its value. -/
def modifyAll (d : V) (writes : List (K × (V → V))) (m : OrderedMap c V) : OrderedMap c V :=
  writes.foldl (fun m w => m.modify w.1 d w.2) m

omit [DecidableEq N] in
theorem modifyAll_append (d : V) (first last : List (K × (V → V))) (m : OrderedMap c V) :
    m.modifyAll d (first ++ last) = (m.modifyAll d first).modifyAll d last := List.foldl_append

omit [DecidableEq N] in
theorem mem_modifyAll {d : V} {writes : List (K × (V → V))} {m : OrderedMap c V} {e : K × V}
    (member : e ∈ (m.modifyAll d writes).entries) :
    (∃ w ∈ writes, w.1 = e.1) ∨ ∃ e' ∈ m.entries, e'.1 = e.1 := by
  induction writes generalizing m with
  | nil => exact Or.inr ⟨e, member, rfl⟩
  | cons w writes ih =>
    rcases ih (m := m.modify w.1 d w.2) member with ⟨w', later, same⟩ | ⟨e', inside, same⟩
    · exact Or.inl ⟨w', List.mem_cons_of_mem _ later, same⟩
    · rcases mem_subscript inside with here | ⟨e'', old, here⟩
      · exact Or.inl ⟨w, List.mem_cons_self, here.symm.trans same⟩
      · exact Or.inr ⟨e'', old, here.trans same⟩

/-- What the writes to a name leave, without regard to other names. -/
def written (c : Comparator K N) (d : V) (writes : List (K × (V → V))) (n : N) (v : Option V) :
    Option V :=
  writes.foldl (fun v w => if c.name w.1 = n then some (w.2 (v.getD d)) else v) v

theorem written_singleton (d : V) (k : K) (f : V → V) (n : N) (v : Option V) :
    written c d [(k, f)] n v = if c.name k = n then some (f (v.getD d)) else v := rfl

theorem written_append (d : V) (first last : List (K × (V → V))) (n : N) (v : Option V) :
    written c d (first ++ last) n v = written c d last n (written c d first n v) :=
  List.foldl_append

/-- Of writes that do not look at the old value the last one counts. -/
theorem written_const (d : V) (as : List (K × V)) (n : N) (v : Option V) :
    written c d (as.map fun a => (a.1, fun _ => a.2)) n v =
      (((as.filter (c.name ·.1 = n)).getLast?).map (·.2)).or v := by
  induction as generalizing v with
  | nil => rfl
  | cons a as ih =>
    rw [List.map_cons, written, List.foldl_cons]
    refine (ih _).trans ?_
    by_cases here : c.name a.1 = n
    · rw [List.filter_cons_of_pos (by simpa using here), List.getLast?_cons, if_pos here]
      cases (as.filter (c.name ·.1 = n)).getLast? <;> rfl
    · rw [List.filter_cons_of_neg (by simpa using here), if_neg here]

theorem written_isSome {d : V} {writes : List (K × (V → V))} {n : N} {v : Option V} :
    (written c d writes n v).isSome ↔ v.isSome ∨ ∃ w ∈ writes, c.name w.1 = n := by
  induction writes generalizing v with
  | nil => simp [written]
  | cons w writes ih =>
    rw [show written c d (w :: writes) n v = written c d writes n _ from rfl, ih]
    by_cases here : c.name w.1 = n
    · simp [here]
    · simp [here]

theorem modifyAll_value {d : V} {writes : List (K × (V → V))} {m : OrderedMap c V}
    (old : ∀ w ∈ writes, ∀ e ∈ m.entries, c.Separates e.1 w.1)
    (new : ∀ w ∈ writes, ∀ w' ∈ writes, c.Separates w.1 w'.1) (n : N) :
    (m.modifyAll d writes).value n = written c d writes n (m.value n) := by
  induction writes generalizing m with
  | nil => rfl
  | cons w writes ih =>
    rw [show m.modifyAll d (w :: writes) = (m.modify w.1 d w.2).modifyAll d writes from rfl, ih,
      modify_value (old w List.mem_cons_self)]
    · rfl
    · intro w' member e inside
      rcases mem_subscript inside with same | ⟨e', inside, same⟩
      · rw [same]
        exact new w List.mem_cons_self w' (List.mem_cons_of_mem _ member)
      · rw [← same]
        exact old w' (List.mem_cons_of_mem _ member) e' inside
    · exact fun w' member w'' member' =>
        new w' (List.mem_cons_of_mem _ member) w'' (List.mem_cons_of_mem _ member')

/-- Every name keeps what is written to it exactly if the comparator separates the written keys. -/
theorem modifyAll_value_iff (d : V) (writes : List (K × (V → V))) :
    (∀ k, ((empty : OrderedMap c V).modifyAll d writes).value (c.name k) =
        written c d writes (c.name k) none) ↔
      ∀ w ∈ writes, ∀ w' ∈ writes, c.Separates w.1 w'.1 := by
  constructor
  · intro kept w member w' member'
    apply separates_of_value (m := empty.modifyAll d writes)
    · rw [kept, written_isSome]
      exact Or.inr ⟨w, member, rfl⟩
    · rw [kept, written_isSome]
      exact Or.inr ⟨w', member', rfl⟩
  · intro separates k
    exact modifyAll_value (fun _ _ _ inside => absurd inside List.not_mem_nil) separates _

end Value

end OrderedMap

end Maps
