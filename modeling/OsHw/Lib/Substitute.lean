import Mathlib.Data.List.Basic
import Mathlib.Tactic.Common

/-!
# OsHw — replacing the occurrences of a word

* **`search w s`** — where `w` occurs first in `s` (`search_eq_some_iff`).
* **`substitute w r s`** — `s` with the occurrences of `w`, taken from left to right without
  overlap, each replaced by `r`. It is computed in one pass over the list.
* **`substitute_of_search`** — what a loop of searches, each one behind the last match, has to
  output.
-/

namespace Substitute

variable {α : Type*} [DecidableEq α] {w r s : List α} {c : α} {i k : ℕ}

/-- The index of the first occurrence of `w`. -/
def search (w : List α) : List α → Option ℕ
  | [] => if w = [] then some 0 else none
  | c :: s => if w <+: c :: s then some 0 else (search w s).map (· + 1)

/-- The pass over the list, which has to skip `k` more elements of the last match. -/
def substituteFrom (w r : List α) : ℕ → List α → List α
  | _, [] => []
  | k + 1, _ :: s => substituteFrom w r k s
  | 0, c :: s =>
    if w <+: c :: s then r ++ substituteFrom w r (w.length - 1) s
    else c :: substituteFrom w r 0 s

def substitute (w r s : List α) : List α := substituteFrom w r 0 s

/-! ## Searching -/

theorem search_nil (hw : w ≠ []) : search w [] = none := if_neg hw

theorem search_cons_of_match (h : w <+: c :: s) : search w (c :: s) = some 0 := if_pos h

theorem search_cons (h : ¬ w <+: c :: s) : search w (c :: s) = (search w s).map (· + 1) := if_neg h

theorem search_eq_none_iff : search w s = none ↔ ∀ j, ¬ w <+: s.drop j := by
  induction s with
  | nil =>
    simp only [List.drop_nil, List.prefix_nil, forall_const]
    constructor
    · rintro h rfl
      cases h
    · exact search_nil
  | cons c s ih =>
    by_cases hpre : w <+: c :: s
    · rw [search_cons_of_match hpre]
      constructor
      · intro h
        cases h
      · intro h
        exact absurd hpre (h 0)
    · rw [search_cons hpre, Option.map_eq_none_iff, ih]
      constructor
      · intro h j
        cases j with
        | zero => exact hpre
        | succ j => exact h j
      · intro h j
        exact h (j + 1)

/-- **Search.** The first place at which `w` occurs. -/
theorem search_eq_some_iff :
    search w s = some i ↔ i ≤ s.length ∧ w <+: s.drop i ∧ ∀ j < i, ¬ w <+: s.drop j := by
  induction s generalizing i with
  | nil =>
    simp only [List.length_nil, Nat.le_zero, List.drop_nil, List.prefix_nil]
    by_cases hw : w = []
    · subst hw
      constructor
      · intro h
        obtain rfl : 0 = i := Option.some.inj h
        exact ⟨rfl, rfl, by omega⟩
      · rintro ⟨rfl, -, -⟩
        rfl
    · rw [search_nil hw]
      constructor
      · intro h
        cases h
      · rintro ⟨-, h, -⟩
        exact absurd h hw
  | cons c s ih =>
    by_cases hpre : w <+: c :: s
    · rw [search_cons_of_match hpre]
      constructor
      · intro h
        obtain rfl : 0 = i := Option.some.inj h
        exact ⟨Nat.zero_le _, hpre, by omega⟩
      · rintro ⟨-, -, hfirst⟩
        cases i with
        | zero => rfl
        | succ i => exact absurd hpre (hfirst 0 (Nat.succ_pos i))
    · rw [search_cons hpre, Option.map_eq_some_iff]
      constructor
      · rintro ⟨i, hi, rfl⟩
        obtain ⟨hle, hat, hfirst⟩ := ih.mp hi
        refine ⟨Nat.succ_le_succ hle, hat, fun j hj => ?_⟩
        cases j with
        | zero => exact hpre
        | succ j => exact hfirst j (by omega)
      · rintro ⟨hle, hat, hfirst⟩
        cases i with
        | zero => exact absurd hat hpre
        | succ i =>
          refine ⟨i, ih.mpr ⟨Nat.le_of_succ_le_succ hle, hat, fun j hj => ?_⟩, rfl⟩
          exact hfirst (j + 1) (by omega)

/-! ## Substituting -/

theorem substituteFrom_eq (w r s : List α) (k : ℕ) :
    substituteFrom w r k s = substitute w r (s.drop k) := by
  induction s generalizing k with
  | nil =>
    rw [List.drop_nil]
    cases k <;> rfl
  | cons c s ih =>
    cases k with
    | zero => rfl
    | succ k => exact ih k

theorem substitute_cons (h : ¬ w <+: c :: s) :
    substitute w r (c :: s) = c :: substitute w r s := if_neg h

/-- A match at the beginning. -/
theorem substitute_of_match (hw : w ≠ []) (h : w <+: s) :
    substitute w r s = r ++ substitute w r (s.drop w.length) := by
  cases s with
  | nil => exact absurd (List.prefix_nil.mp h) hw
  | cons c s =>
    have hdrop : (c :: s).drop w.length = s.drop (w.length - 1) := by
      obtain ⟨n, hn⟩ := Nat.exists_eq_succ_of_ne_zero (mt List.length_eq_zero_iff.mp hw)
      rw [hn]
      rfl
    rw [hdrop, ← substituteFrom_eq]
    exact if_pos h

theorem substitute_of_none (h : search w s = none) : substitute w r s = s := by
  induction s with
  | nil => rfl
  | cons c s ih =>
    have hpre : ¬ w <+: c :: s := (search_eq_none_iff.mp h) 0
    rw [search_cons hpre, Option.map_eq_none_iff] at h
    rw [substitute_cons hpre, ih h]

/-- **One search.** What is before the first match stays, and what is behind it is left to the
searches that follow. -/
theorem substitute_of_search (hw : w ≠ []) (h : search w s = some i) :
    substitute w r s = s.take i ++ r ++ substitute w r (s.drop (i + w.length)) := by
  induction s generalizing i with
  | nil =>
    rw [search_nil hw] at h
    cases h
  | cons c s ih =>
    by_cases hpre : w <+: c :: s
    · rw [search_cons_of_match hpre] at h
      obtain rfl : 0 = i := Option.some.inj h
      rw [List.take_zero, List.nil_append, Nat.zero_add]
      exact substitute_of_match hw hpre
    · rw [search_cons hpre] at h
      obtain ⟨i, hi, rfl⟩ := Option.map_eq_some_iff.mp h
      rw [substitute_cons hpre, ih hi, List.take_succ_cons,
        show i + 1 + w.length = i + w.length + 1 by omega, List.drop_succ_cons]
      rfl

end Substitute
