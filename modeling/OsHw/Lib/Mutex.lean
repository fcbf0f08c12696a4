import Mathlib.Logic.Basic

/-!
# OsHw — mutual exclusion

A lock records its owner. `Guarded inside owner` says that whoever is inside a locked section is
the owner, for whatever kind of parties there are; hence at most one is inside. A step of one
party keeps it if it does one of three things to the others and the lock: nothing, taking the
free lock, or leaving the section with the lock free. `Owned inside owner` says the converse, that
the owner is inside, so that a lock is not lost.
-/

namespace Mutex

variable {α : Type*} {inside inside' : α → Prop} {owner : Option α} {a b : α}

/-- Whoever is inside owns the lock. -/
def Guarded (inside : α → Prop) (owner : Option α) : Prop := ∀ a, inside a → owner = some a

namespace Guarded

theorem exclusive (h : Guarded inside owner) (ha : inside a) (hb : inside b) : a = b :=
  Option.some.inj ((h a ha).symm.trans (h b hb))

theorem not_inside_of_free (h : Guarded inside none) (a : α) : ¬ inside a := fun ha =>
  nomatch h a ha

/-- Nobody enters. -/
theorem mono (h : Guarded inside owner) (hle : ∀ a, inside' a → inside a) :
    Guarded inside' owner := fun a ha => h a (hle a ha)

/-- A party takes the free lock. -/
theorem acquire (h : Guarded inside none) (hothers : ∀ b, b ≠ a → inside' b → inside b) :
    Guarded inside' (some a) := by
  intro b hb
  by_cases hab : b = a
  · rw [hab]
  · exact absurd (hothers b hab hb) (h.not_inside_of_free b)

/-- The party inside leaves, with the lock free. -/
theorem release (h : Guarded inside owner) (ha : inside a) (hout : ¬ inside' a)
    (hothers : ∀ b, b ≠ a → inside' b → inside b) : Guarded inside' none := by
  intro b hb
  by_cases hab : b = a
  · exact absurd (hab ▸ hb) hout
  · exact absurd (h.exclusive (hothers b hab hb) ha) hab

end Guarded

/-- The owner is inside. -/
def Owned (inside : α → Prop) (owner : Option α) : Prop := ∀ a, owner = some a → inside a

namespace Owned

theorem of_free : Owned inside none := by
  intro a ha
  cases ha

theorem acquire (ha : inside a) : Owned inside (some a) := by
  intro b hb
  rw [← Option.some.inj hb]
  exact ha

/-- The owner does not leave. -/
theorem mono (h : Owned inside owner) (hle : ∀ a, inside a → inside' a) :
    Owned inside' owner := fun a ha => hle a (h a ha)

end Owned

end Mutex
