import Mathlib.Logic.Basic

/-!
# OsHw — experiments on a machine

A machine answers every input and goes on in another state. An experiment is a list of inputs; all
it shows of the state it starts in are the answers.

* **`Indistinguishable`** — every experiment gives the same answers from both states.
* **`Indistinguishable.answer`**, **`Indistinguishable.next`** — it is kept by every input, and
  what the input answers is the same.
* **`Bisimulation.indistinguishable`** — and every relation that is so kept implies it.
-/

namespace Experiments

variable {σ ι ο : Type*} {step : ι → σ → ο × σ} {s t : σ}

/-- The answers to the inputs, one after the other. -/
def answers (step : ι → σ → ο × σ) : List ι → σ → List ο
  | [], _ => []
  | i :: is, s => (step i s).1 :: answers step is (step i s).2

def Indistinguishable (step : ι → σ → ο × σ) (s t : σ) : Prop :=
  ∀ is, answers step is s = answers step is t

/-- Related states answer the same, and go on in related states. -/
def Bisimulation (step : ι → σ → ο × σ) (R : σ → σ → Prop) : Prop :=
  ∀ s t, R s t → ∀ i, (step i s).1 = (step i t).1 ∧ R (step i s).2 (step i t).2

namespace Indistinguishable

theorem symm (h : Indistinguishable step s t) : Indistinguishable step t s :=
  fun is => (h is).symm

/-- One input is an experiment. -/
theorem answer (h : Indistinguishable step s t) (i : ι) : (step i s).1 = (step i t).1 :=
  (List.cons.inj (h [i])).1

/-- An experiment behind an input is one that starts with it. -/
theorem next (h : Indistinguishable step s t) (i : ι) :
    Indistinguishable step (step i s).2 (step i t).2 :=
  fun is => (List.cons.inj (h (i :: is))).2

end Indistinguishable

/-- Induction on the experiment. -/
theorem Bisimulation.indistinguishable {R : σ → σ → Prop} (hR : Bisimulation step R)
    (h : R s t) : Indistinguishable step s t := by
  intro is
  induction is generalizing s t with
  | nil => rfl
  | cons i is ih =>
    obtain ⟨hanswer, hnext⟩ := hR s t h i
    rw [answers, answers, hanswer, ih hnext]

end Experiments
