import Mathlib.Data.Set.Insert
import Mathlib.Data.Set.Lattice

/-!
# Tables of words

A table stores values under words over an alphabet: it is a set of pairs of a word and a value.
`prepend` puts a word before every key, `after` is the residual table of a first symbol, `own`
stores at most one value under the empty word.  `valueAt` reads the empty word.
-/

namespace Words

variable {σ β : Type*}

/-- Values stored under words. -/
abbrev Table (σ β : Type*) := Set (List σ × β)

namespace Table

/-- Every key is put behind the word `u`. -/
def prepend (u : List σ) (E : Table σ β) : Table σ β := {e | ∃ v, e.1 = u ++ v ∧ (v, e.2) ∈ E}

/-- What is left of the keys that begin with `s`. -/
def after (s : σ) (E : Table σ β) : Table σ β := {e | (s :: e.1, e.2) ∈ E}

/-- The table of an optional value under the empty word. -/
def own (h : Option β) : Table σ β := {e | e.1 = [] ∧ h = some e.2}

/-! ## Membership -/

@[simp] theorem mem_prepend {u : List σ} {E : Table σ β} {e : List σ × β} :
    e ∈ prepend u E ↔ ∃ v, e.1 = u ++ v ∧ (v, e.2) ∈ E := Iff.rfl

@[simp] theorem mem_after {s : σ} {E : Table σ β} {e : List σ × β} :
    e ∈ after s E ↔ (s :: e.1, e.2) ∈ E := Iff.rfl

@[simp] theorem mem_own {h : Option β} {e : List σ × β} :
    e ∈ (own h : Table σ β) ↔ e.1 = [] ∧ h = some e.2 := Iff.rfl

/-! ## Equations -/

@[simp] theorem prepend_nil (E : Table σ β) : prepend [] E = E := by
  ext ⟨u, b⟩
  simp

@[simp] theorem prepend_empty (u : List σ) : prepend u (∅ : Table σ β) = ∅ := by
  ext e
  simp

theorem prepend_append (u v : List σ) (E : Table σ β) :
    prepend (u ++ v) E = prepend u (prepend v E) := by
  ext ⟨w, b⟩
  constructor
  · rintro ⟨x, rfl, hx⟩
    exact ⟨v ++ x, List.append_assoc u v x, x, rfl, hx⟩
  · rintro ⟨_, rfl, x, rfl, hx⟩
    exact ⟨x, (List.append_assoc u v x).symm, hx⟩

theorem prepend_insert (u v : List σ) (b : β) (E : Table σ β) :
    prepend u (insert (v, b) E) = insert (u ++ v, b) (prepend u E) := by
  ext ⟨w, a⟩
  constructor
  · rintro ⟨x, rfl, hx | hx⟩
    · cases hx
      exact Or.inl rfl
    · exact Or.inr ⟨x, rfl, hx⟩
  · rintro (h | ⟨x, rfl, hx⟩)
    · cases h
      exact ⟨v, rfl, Or.inl rfl⟩
    · exact ⟨x, rfl, Or.inr hx⟩

theorem prepend_singleton (u v : List σ) (b : β) :
    prepend u ({(v, b)} : Table σ β) = {(u ++ v, b)} := by
  simpa using prepend_insert u v b ∅

@[simp] theorem own_none : (own none : Table σ β) = ∅ := by
  ext e
  simp

@[simp] theorem own_some (b : β) : (own (some b) : Table σ β) = {([], b)} := by
  ext ⟨w, a⟩
  simp only [mem_own, Option.some.injEq, Set.mem_singleton_iff, Prod.mk.injEq, eq_comm]

@[simp] theorem after_empty (s : σ) : after s (∅ : Table σ β) = ∅ := rfl

theorem after_union (s : σ) (E F : Table σ β) : after s (E ∪ F) = after s E ∪ after s F := rfl

@[simp] theorem after_own (s : σ) (h : Option β) : after s (own h : Table σ β) = ∅ := by
  ext e
  simp

@[simp] theorem after_prepend_cons (s : σ) (u : List σ) (E : Table σ β) :
    after s (prepend (s :: u) E) = prepend u E := by
  ext ⟨w, b⟩
  simp

theorem after_prepend_cons_of_ne {s t : σ} (different : s ≠ t) (u : List σ) (E : Table σ β) :
    after s (prepend (t :: u) E) = ∅ := by
  ext ⟨w, b⟩
  simp [different]

/-! ## The value of the empty word -/

open scoped Classical in
/-- The value stored under the empty word. -/
noncomputable def valueAt (E : Table σ β) : Option β :=
  if h : ∃ b, ([], b) ∈ E then some h.choose else none

theorem valueAt_eq {E : Table σ β} {h : Option β} (values : ∀ b, ([], b) ∈ E ↔ h = some b) :
    valueAt E = h := by
  unfold valueAt
  split_ifs with stored
  · exact ((values _).mp stored.choose_spec).symm
  · cases h with
    | none => rfl
    | some b => exact absurd ⟨b, (values b).mpr rfl⟩ stored

theorem valueAt_empty : valueAt (∅ : Table σ β) = none :=
  valueAt_eq fun b => by simp

theorem valueAt_eq_none {E : Table σ β} (absent : ∀ b, ([], b) ∉ E) : valueAt E = none :=
  valueAt_eq fun b => by simp [absent b]

theorem mem_of_valueAt {E : Table σ β} {b : β} (value : valueAt E = some b) : ([], b) ∈ E := by
  rw [valueAt] at value
  split at value
  · next stored =>
    rw [← Option.some.inj value]
    exact stored.choose_spec
  · exact absurd value (by simp)

theorem valueAt_own_union (h : Option β) {E : Table σ β} (others : ∀ e ∈ E, e.1 ≠ []) :
    valueAt (own h ∪ E) = h := by
  apply valueAt_eq
  intro b
  constructor
  · rintro (⟨-, stored⟩ | stored)
    · exact stored
    · exact absurd rfl (others _ stored)
  · intro stored
    exact Or.inl ⟨rfl, stored⟩

end Table

end Words
