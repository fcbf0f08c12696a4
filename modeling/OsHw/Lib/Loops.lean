import Mathlib.Data.List.Forall2
import Mathlib.Tactic.Common

/-!
# OsHw — counting loops and comprehensions that may fail

`for n in range(start, start + len)` with a body that may raise is a monadic fold over `range'`;
`[f(x) for x in l]` is `mapM`. The rules: an invariant that every round keeps makes the loop end,
and a comprehension whose elements exist does.
-/

namespace Loops

variable {σ α β : Type*}

/-- **The rule for counting loops.** -/
theorem foldlM_range' {f : σ → ℕ → Option σ} {I : ℕ → σ → Prop} (start len : ℕ) {s : σ}
    (h₀ : I start s)
    (hstep : ∀ n s, start ≤ n → n < start + len → I n s → ∃ s', f s n = some s' ∧ I (n + 1) s') :
    ∃ s', (List.range' start len).foldlM f s = some s' ∧ I (start + len) s' := by
  induction len generalizing start s with
  | zero => exact ⟨s, rfl, h₀⟩
  | succ len ih =>
    obtain ⟨s₁, hs₁, hI⟩ := hstep start s (Nat.le_refl _) (by omega) h₀
    obtain ⟨s', hs', hI'⟩ := ih (start + 1) hI fun n s hle hlt => hstep n s (by omega) (by omega)
    refine ⟨s', ?_, ?_⟩
    · rw [List.range'_succ, List.foldlM_cons, hs₁]
      exact hs'
    · rwa [show start + (len + 1) = start + 1 + len by omega]

/-- **The rule for comprehensions.** -/
theorem exists_mapM {f : α → Option β} {S : α → β → Prop} {l : List α}
    (h : ∀ x ∈ l, ∃ y, f x = some y ∧ S x y) :
    ∃ ys, l.mapM f = some ys ∧ List.Forall₂ S l ys := by
  induction l with
  | nil => exact ⟨[], rfl, .nil⟩
  | cons x l ih =>
    obtain ⟨y, hy, hS⟩ := h x (by simp)
    obtain ⟨ys, hys, hall⟩ := ih fun x hx => h x (by simp [hx])
    refine ⟨y :: ys, ?_, .cons hS hall⟩
    rw [List.mapM_cons, hy, hys]
    rfl

/-- Where the elements are known, so is the list. -/
theorem mapM_eq_some_map {f : α → Option β} {g : α → β} {l : List α}
    (h : ∀ x ∈ l, f x = some (g x)) : l.mapM f = some (l.map g) := by
  obtain ⟨ys, hys, hall⟩ := exists_mapM (S := fun x y => g x = y) fun x hx => ⟨g x, h x hx, rfl⟩
  have hsame : List.Forall₂ (· = ·) (l.map g) ys := List.forall₂_map_left_iff.mpr hall
  rw [List.forall₂_eq_eq_eq] at hsame
  rw [hys, hsame]

end Loops
