import Mathlib.Logic.Basic
import Mathlib.Data.Nat.Init

/-!
# Loops with fuel

A loop of a program that may fault is a function of its fuel that yields `none` on a fault and when
the fuel runs out.  It returns a result when any fuel from some amount on yields it (`Returns`).
-/

namespace Runs

variable {α β : Type*} {f : ℕ → Option α} {a b : α}

/-- With enough fuel the loop returns this. -/
def Returns (f : ℕ → Option α) (a : α) : Prop := ∃ fuel, ∀ more, fuel ≤ more → f more = some a

theorem Returns.of_all (all : ∀ fuel, f fuel = some a) : Returns f a := ⟨0, fun more _ => all more⟩

theorem Returns.unique (first : Returns f a) (second : Returns f b) : a = b := by
  obtain ⟨n, first⟩ := first
  obtain ⟨k, second⟩ := second
  have left := first (n + k) (Nat.le_add_right n k)
  rw [second (n + k) (Nat.le_add_left k n)] at left
  exact (Option.some.inj left).symm

theorem Returns.congr {g : ℕ → Option α} (returns : Returns g a) (same : ∀ fuel, f fuel = g fuel) :
    Returns f a := by
  obtain rfl : f = g := funext same
  exact returns

/-- A round that spends one unit of fuel. -/
theorem Returns.succ (spent : ∀ fuel, f (fuel + 1) = some a) : Returns f a := by
  refine ⟨1, fun more enough => ?_⟩
  obtain ⟨fuel, rfl⟩ := Nat.exists_eq_add_of_le' enough
  exact spent fuel

/-- A round that spends one unit of fuel and goes on with the rest. -/
theorem Returns.next {g : ℕ → Option α} (returns : Returns g a) (spent : ∀ fuel, f (fuel + 1) = g fuel) :
    Returns f a := by
  obtain ⟨n, returns⟩ := returns
  refine ⟨n + 1, fun more enough => ?_⟩
  obtain ⟨fuel, rfl⟩ := Nat.exists_eq_add_of_le' (Nat.le_of_add_left_le enough)
  rw [spent]
  exact returns fuel (by omega)

/-- One loop after the other, with the same fuel. -/
theorem Returns.bind {g : α → ℕ → Option β} {r : β} (first : Returns f a) (second : Returns (g a) r) :
    Returns (fun fuel => (f fuel).bind fun a => g a fuel) r := by
  obtain ⟨n, first⟩ := first
  obtain ⟨k, second⟩ := second
  refine ⟨n + k, fun more enough => ?_⟩
  dsimp only
  rw [first more (by omega), Option.bind_some]
  exact second more (by omega)

/-- A loop and what is made of its result. -/
theorem Returns.map (returns : Returns f a) (g : α → β) :
    Returns (fun fuel => (f fuel).bind fun a => some (g a)) (g a) :=
  returns.bind (.of_all fun _ => rfl)

end Runs
