import Mathlib.Logic.Function.Basic
import Mathlib.Data.List.Basic

/-!
# Memory in blocks

Every allocation yields a block that was never used before.  A pointer is a block with an offset, and
what is not allocated can neither be read nor deleted.
-/

namespace Heap

variable {α : Type*}

/-- A pointer into a block. -/
structure Pointer where
  block : ℕ
  offset : ℕ := 0
  deriving DecidableEq

/-- The contents of the live blocks.  The next block that is allocated is `next`. -/
structure Memory (α : Type*) where
  block : ℕ → Option (List α)
  next : ℕ

namespace Memory

variable {m m' : Memory α} {p : Pointer} {size b : ℕ} {data : List α}

/-- What is behind a pointer, if all of it is allocated. -/
def read (m : Memory α) (p : Pointer) (size : ℕ) : Option (List α) :=
  match m.block p.block with
  | some data => if p.offset + size ≤ data.length then some ((data.drop p.offset).take size) else none
  | none => none

/-- A new block with these data. -/
def alloc (m : Memory α) (data : List α) : Memory α :=
  ⟨Function.update m.block m.next (some data), m.next + 1⟩

/-- The block is given back. -/
def delete (m : Memory α) (b : ℕ) : Memory α := { m with block := Function.update m.block b none }

/-- Nothing is allocated from `next` on. -/
def Fresh (m : Memory α) : Prop := ∀ b, m.next ≤ b → m.block b = none

theorem read_congr (same : m'.block p.block = m.block p.block) (size : ℕ) :
    m'.read p size = m.read p size := by
  rw [read, read, same]

/-- What is read is allocated, and has the size asked for. -/
theorem of_read (holds : m.read p size = some data) :
    (m.block p.block).isSome ∧ data.length = size := by
  unfold read at holds
  split at holds
  · rename_i whole here
    split_ifs at holds with inside
    obtain rfl := Option.some.inj holds
    refine ⟨by rw [here]; rfl, ?_⟩
    rw [List.length_take, List.length_drop]
    omega
  · exact absurd holds nofun

theorem read_alloc (m : Memory α) (data : List α) :
    (m.alloc data).read ⟨m.next, 0⟩ data.length = some data := by
  simp [read, alloc]

theorem alloc_other (m : Memory α) (data : List α) (other : b ≠ m.next) :
    (m.alloc data).block b = m.block b := Function.update_of_ne other _ _

theorem delete_other (m : Memory α) {c : ℕ} (other : c ≠ b) : (m.delete b).block c = m.block c :=
  Function.update_of_ne other _ _

theorem Fresh.lt_next (fresh : m.Fresh) (live : (m.block b).isSome) : b < m.next := by
  by_contra beyond
  rw [fresh b (Nat.le_of_not_lt beyond)] at live
  exact absurd live (by simp)

theorem Fresh.alloc (fresh : m.Fresh) (data : List α) : (m.alloc data).Fresh := by
  intro b later
  have later : m.next + 1 ≤ b := later
  rw [alloc_other m data (by omega)]
  exact fresh b (by omega)

theorem Fresh.delete (fresh : m.Fresh) (b : ℕ) : (m.delete b).Fresh := by
  intro c later
  by_cases same : c = b
  · subst same
    exact Function.update_self _ _ _
  · rw [delete_other m same]
    exact fresh c later

end Memory

end Heap
