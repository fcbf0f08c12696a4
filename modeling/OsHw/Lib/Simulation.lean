import Mathlib.Logic.Basic

/-!
# OsHw — simulation of stateful computations

A call of a system with states `σ` has a result of type `Option (α × σ)`: `none`, or an answer
and the next state. A program that makes such calls can be run on two systems; where the calls
of one simulate those of the other, so does the program.

* **`Related R x y`** — two results agree: both are `none`, or the answers are equal and `R`
  relates the states.
* **`Related.bind`** — a call and what follows it.
-/

namespace Simulation

variable {σ τ α β : Type*} {R : σ → τ → Prop}

/-- The answers are equal, and the states are related. -/
inductive Related (R : σ → τ → Prop) : Option (α × σ) → Option (α × τ) → Prop where
  | fails : Related R none none
  | returns {a : α} {s : σ} {t : τ} (h : R s t) : Related R (some (a, s)) (some (a, t))

namespace Related

variable {x : Option (α × σ)} {y : Option (α × τ)}

theorem bind (h : Related R x y) {f : α × σ → Option (β × σ)} {g : α × τ → Option (β × τ)}
    (hfg : ∀ a s t, R s t → Related R (f (a, s)) (g (a, t))) : Related R (x.bind f) (y.bind g) := by
  cases h with
  | fails => exact .fails
  | returns h => exact hfg _ _ _ h

theorem ite {c : Prop} [Decidable c] {x' : Option (α × σ)} {y' : Option (α × τ)}
    (h : Related R x y) (h' : Related R x' y') :
    Related R (if c then x else x') (if c then y else y') := by
  split
  · exact h
  · exact h'

/-- A result on the right is one on the left. -/
theorem exists_left {a : α} {t : τ} (h : Related R x (some (a, t))) :
    ∃ s, x = some (a, s) ∧ R s t := by
  cases h with
  | returns h => exact ⟨_, rfl, h⟩

/-- And the other way round. -/
theorem exists_right {a : α} {s : σ} (h : Related R (some (a, s)) y) :
    ∃ t, y = some (a, t) ∧ R s t := by
  cases h with
  | returns h => exact ⟨_, rfl, h⟩

end Related

end Simulation
