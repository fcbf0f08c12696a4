import Mathlib.Algebra.BigOperators.Intervals
import Mathlib.Algebra.Order.BigOperators.Group.Finset
import Mathlib.Order.Bounds.Basic

/-!
# OsHw — families of ranges, and the cheapest one

A family of half-open ranges `[l, u)` of natural numbers divides the numbers below `m` into
covered ones and others. Each number has a price for either case; the cost of a family is the
sum.

* **`Covered`**, **`cost`** — what a family covers and costs.
* **`Descending i F`** — the ranges of `F` lie below `i`, the last one first, one below the other.
* **`exists_descending`** — every disjoint family covers what some descending one covers.
* **`isLeast_succ`** — the principle of optimality: the cheapest family of at most `j + 1` ranges
  consists of its last range and a cheapest family of at most `j` ranges below it.
-/

namespace Segments

open Finset

variable {F G : List (ℕ × ℕ)} {r : ℕ × ℕ} {i j l u m : ℕ}

/-- Some range of the family contains `i`. -/
def Covered (F : List (ℕ × ℕ)) (i : ℕ) : Prop := ∃ r ∈ F, r.1 ≤ i ∧ i < r.2

instance (F : List (ℕ × ℕ)) (i : ℕ) : Decidable (Covered F i) :=
  inferInstanceAs (Decidable (∃ r ∈ F, r.1 ≤ i ∧ i < r.2))

/-- The two ranges have no element in common. -/
def Apart (r s : ℕ × ℕ) : Prop := Disjoint (Ico r.1 r.2) (Ico s.1 s.2)

/-- The ranges lie below `i`, each one below those before it. -/
inductive Descending : ℕ → List (ℕ × ℕ) → Prop where
  | nil (i : ℕ) : Descending i []
  | cons {i l u : ℕ} {F : List (ℕ × ℕ)} (hlu : l ≤ u) (hui : u ≤ i) (hF : Descending l F) :
      Descending i ((l, u) :: F)

theorem covered_nil : ¬ Covered [] i := by
  rintro ⟨r, hr, -⟩
  cases hr

theorem covered_cons : Covered (r :: F) i ↔ (r.1 ≤ i ∧ i < r.2) ∨ Covered F i := by
  simp only [Covered, List.mem_cons, exists_eq_or_imp]

theorem Covered.perm (h : F.Perm G) : Covered F i ↔ Covered G i := by
  simp only [Covered, h.mem_iff]

namespace Descending

/-- Every range of the family lies below the bound. -/
theorem mem (h : Descending i F) (hr : r ∈ F) : r.1 ≤ r.2 ∧ r.2 ≤ i := by
  induction h with
  | nil => cases hr
  | cons hlu hui hF ih =>
    rcases List.mem_cons.mp hr with rfl | hr
    · exact ⟨hlu, hui⟩
    · obtain ⟨hle, hbelow⟩ := ih hr
      exact ⟨hle, hbelow.trans (hlu.trans hui)⟩

theorem not_covered (h : Descending l F) (hi : l ≤ i) : ¬ Covered F i := by
  rintro ⟨r, hr, -, hlt⟩
  have hbelow := (h.mem hr).2
  omega

theorem pairwise (h : Descending i F) : F.Pairwise fun r s => s.2 ≤ r.1 := by
  induction h with
  | nil => exact List.Pairwise.nil
  | cons hlu hui hF ih =>
    refine List.pairwise_cons.mpr ⟨fun r hr => ?_, ih⟩
    exact (hF.mem hr).2

/-- Ranges one below the other have no element in common. -/
theorem apart (h : Descending i F) : F.Pairwise Apart := by
  refine h.pairwise.imp fun {r s} hbelow => ?_
  rw [Apart, Finset.disjoint_left]
  intro n hr hs
  rw [mem_Ico] at hr hs
  omega

theorem mono (h : Descending i F) (hij : i ≤ j) : Descending j F := by
  cases h with
  | nil => exact .nil j
  | cons hlu hui hF => exact .cons hlu (hui.trans hij) hF

/-- A family cut off one below its bound. -/
theorem truncate (h : Descending (i + 1) F) : ∃ G, Descending i G ∧ G.length ≤ F.length ∧
    ∀ n < i, Covered G n ↔ Covered F n := by
  induction F with
  | nil => exact ⟨[], .nil i, le_rfl, fun n _ => Iff.rfl⟩
  | cons r F ih =>
    obtain ⟨l, u⟩ := r
    cases h with
    | cons hlu hui hF =>
      rcases Nat.lt_or_ge i l with hil | hli
      · -- only an empty range fits in behind `i`
        obtain rfl : l = i + 1 := by omega
        obtain ⟨G, hG, hlen, hcov⟩ := ih hF
        refine ⟨G, hG, hlen.trans (Nat.le_succ _), fun n hn => ?_⟩
        rw [hcov n hn, covered_cons]
        exact (or_iff_right fun hin => absurd hin.1 (by dsimp only; omega)).symm
      · refine ⟨(l, min u i) :: F, .cons (le_min hlu hli) (min_le_right u i) hF, le_rfl, ?_⟩
        intro n hn
        rw [covered_cons, covered_cons]
        refine or_congr_left (and_congr_right fun _ => ?_)
        exact ⟨fun hlt => lt_of_lt_of_le hlt (min_le_left u i), fun hlt => lt_min hlt hn⟩

end Descending

/-- A range for each number of a set. -/
theorem exists_singles (p : ℕ → Prop) [DecidablePred p] (m : ℕ) :
    ∃ F, Descending m F ∧ F.length ≤ m ∧ ∀ n, Covered F n ↔ n < m ∧ p n := by
  induction m with
  | zero => exact ⟨[], .nil 0, le_rfl, fun n => iff_of_false covered_nil (by omega)⟩
  | succ m ih =>
    obtain ⟨F, hF, hlen, hcov⟩ := ih
    by_cases hm : p m
    · refine ⟨(m, m + 1) :: F, .cons (Nat.le_succ m) le_rfl hF, by simpa using hlen, ?_⟩
      intro n
      rw [covered_cons, hcov]
      constructor
      · rintro (hin | hin)
        · obtain rfl : n = m := by dsimp only at hin; omega
          exact ⟨Nat.lt_succ_self n, hm⟩
        · exact ⟨hin.1.trans (Nat.lt_succ_self m), hin.2⟩
      · rintro ⟨hlt, hn⟩
        rcases Nat.lt_succ_iff_lt_or_eq.mp hlt with hlt | rfl
        · exact .inr ⟨hlt, hn⟩
        · exact .inl ⟨le_rfl, hlt⟩
    · refine ⟨F, hF.mono (Nat.le_succ m), hlen.trans (Nat.le_succ m), fun n => ?_⟩
      rw [hcov]
      refine ⟨fun hin => ⟨hin.1.trans (Nat.lt_succ_self m), hin.2⟩, fun hin => ⟨?_, hin.2⟩⟩
      rcases Nat.lt_succ_iff_lt_or_eq.mp hin.1 with hlt | rfl
      · exact hlt
      · exact absurd hin.2 hm

/-! ## Disjoint families -/

theorem Apart.cases (h : Apart (l, u) r) (hlu : l < u) (hr : r.1 < r.2) : u ≤ r.1 ∨ r.2 ≤ l := by
  by_contra hcross
  have hleft : max l r.1 ∈ Ico l u := by
    rw [mem_Ico]
    omega
  have hright : max l r.1 ∈ Ico r.1 r.2 := by
    rw [mem_Ico]
    omega
  exact Finset.disjoint_left.mp h hleft hright

/-- A range finds its place in a descending family that does not meet it. -/
theorem exists_insert (hG : Descending m G) (hpos : ∀ s ∈ G, s.1 < s.2) (hr : r.1 < r.2)
    (hm : r.2 ≤ m) (happ : ∀ s ∈ G, Apart r s) :
    ∃ G', Descending m G' ∧ (r :: G).Perm G' := by
  induction hG with
  | nil i => exact ⟨[r], .cons hr.le hm (.nil _), List.Perm.refl _⟩
  | @cons i l u F hlu hui hF ih =>
    have hfirst : Apart r (l, u) := happ (l, u) (by simp)
    have hlt : l < u := hpos (l, u) (by simp)
    rcases Apart.cases hfirst hr hlt with hbelow | habove
    · -- the range lies below the first one
      obtain ⟨G', hG', hperm⟩ := ih (fun s hs => hpos s (by simp [hs])) hbelow
        fun s hs => happ s (by simp [hs])
      refine ⟨(l, u) :: G', .cons hlu hui hG', ?_⟩
      exact (List.Perm.swap _ _ _).trans (hperm.cons _)
    · exact ⟨r :: (l, u) :: F, .cons hr.le hm (.cons hlu habove hF), List.Perm.refl _⟩

/-- **Order.** A disjoint family below `m` covers what a descending one with no more ranges
does. -/
theorem exists_descending (hF : F.Pairwise Apart) (hm : ∀ r ∈ F, r.1 ≤ r.2 ∧ r.2 ≤ m) :
    ∃ G, Descending m G ∧ G.length ≤ F.length ∧ ∀ i, Covered G i ↔ Covered F i := by
  have hordered : ∃ G, Descending m G ∧ (∀ s ∈ G, s.1 < s.2) ∧ (∀ s ∈ G, s ∈ F) ∧
      G.length ≤ F.length ∧ ∀ i, Covered G i ↔ Covered F i := by
    induction F with
    | nil => exact ⟨[], .nil m, by simp, by simp, le_rfl, fun i => Iff.rfl⟩
    | cons r F ih =>
      obtain ⟨happ, hF⟩ := List.pairwise_cons.mp hF
      obtain ⟨G, hG, hpos, hsub, hlen, hcov⟩ := ih hF fun s hs => hm s (by simp [hs])
      rcases (hm r (by simp)).1.lt_or_eq with hr | hr
      · obtain ⟨G', hG', hperm⟩ := exists_insert hG hpos hr (hm r (by simp)).2
          fun s hs => happ s (hsub s hs)
        refine ⟨G', hG', fun s hs => ?_, fun s hs => ?_, ?_, fun i => ?_⟩
        · rcases List.mem_cons.mp (hperm.mem_iff.mpr hs) with rfl | hs
          · exact hr
          · exact hpos s hs
        · rcases List.mem_cons.mp (hperm.mem_iff.mpr hs) with rfl | hs
          · simp
          · simp [hsub s hs]
        · rw [← hperm.length_eq, List.length_cons, List.length_cons]
          omega
        · rw [← Covered.perm hperm, covered_cons, covered_cons, hcov]
      · -- an empty range covers nothing
        refine ⟨G, hG, hpos, fun s hs => by simp [hsub s hs], ?_, fun i => ?_⟩
        · rw [List.length_cons]
          omega
        · rw [hcov, covered_cons]
          constructor
          · exact Or.inr
          · rintro (hi | hi)
            · omega
            · exact hi
  obtain ⟨G, hG, -, -, hlen, hcov⟩ := hordered
  exact ⟨G, hG, hlen, hcov⟩

/-! ## Costs -/

section Cost

variable {M : Type*} [AddCommMonoid M] (a b : ℕ → M)

/-- The price of the numbers below `m`: `a` where they are covered, `b` where they are not. -/
def cost (m : ℕ) (F : List (ℕ × ℕ)) : M := ∑ i ∈ range m, if Covered F i then a i else b i

variable {a b}

theorem cost_congr (h : ∀ i, Covered F i ↔ Covered G i) : cost a b m F = cost a b m G :=
  Finset.sum_congr rfl fun i _ => if_congr (h i) rfl rfl

theorem cost_nil : cost a b m [] = ∑ i ∈ range m, b i :=
  Finset.sum_congr rfl fun _ _ => if_neg covered_nil

/-- The cost of a descending family, by its last range. -/
theorem cost_cons (hlu : l ≤ u) (hui : u ≤ i) (hF : Descending l F) :
    cost a b i ((l, u) :: F) =
      cost a b l F + (∑ n ∈ Ico l u, a n + ∑ n ∈ Ico u i, b n) := by
  have hbelow : ∀ n ∈ Ico 0 l, (if Covered ((l, u) :: F) n then a n else b n) =
      if Covered F n then a n else b n := by
    intro n hn
    have hlt := (mem_Ico.mp hn).2
    refine if_congr ?_ rfl rfl
    rw [covered_cons]
    constructor
    · rintro (hin | hin)
      · exact absurd hin.1 (by simpa using hlt)
      · exact hin
    · exact Or.inr
  have hinside : ∀ n ∈ Ico l u, (if Covered ((l, u) :: F) n then a n else b n) = a n := by
    intro n hn
    exact if_pos (covered_cons.mpr (Or.inl (mem_Ico.mp hn)))
  have habove : ∀ n ∈ Ico u i, (if Covered ((l, u) :: F) n then a n else b n) = b n := by
    intro n hn
    obtain ⟨hle, -⟩ := mem_Ico.mp hn
    refine if_neg fun hcov => ?_
    rcases covered_cons.mp hcov with hin | hin
    · exact absurd hin.2 (by simpa using hle)
    · exact hF.not_covered (hlu.trans hle) hin
  unfold cost
  rw [range_eq_Ico, range_eq_Ico, ← sum_Ico_consecutive _ (Nat.zero_le l) (hlu.trans hui),
    ← sum_Ico_consecutive _ hlu hui, sum_congr rfl hbelow, sum_congr rfl hinside,
    sum_congr rfl habove]

/-- What the descending families of at most `j` ranges below `i` cost. -/
def costs (a b : ℕ → M) (i j : ℕ) : Set M :=
  {c | ∃ F, Descending i F ∧ F.length ≤ j ∧ cost a b i F = c}

theorem costs_zero : costs a b i 0 = {∑ n ∈ range i, b n} := by
  ext c
  constructor
  · rintro ⟨F, -, hlen, rfl⟩
    obtain rfl : F = [] := List.length_eq_zero_iff.mp (Nat.le_zero.mp hlen)
    exact cost_nil
  · rintro rfl
    exact ⟨[], .nil i, le_rfl, cost_nil⟩

/-- Nothing costs anything below 0. -/
theorem costs_below_zero : costs a b 0 j = {0} := by
  ext c
  constructor
  · rintro ⟨F, -, -, rfl⟩
    exact Finset.sum_range_zero _
  · rintro rfl
    exact ⟨[], .nil 0, Nat.zero_le j, Finset.sum_range_zero _⟩

/-- A family of at most `j + 1` ranges is its last range and the ones below it; no range at all
costs as much as the empty range `[0, 0)`. -/
theorem mem_costs_succ {c : M} :
    c ∈ costs a b i (j + 1) ↔ ∃ l u, l ≤ u ∧ u ≤ i ∧ ∃ c' ∈ costs a b l j,
      c = c' + (∑ n ∈ Ico l u, a n + ∑ n ∈ Ico u i, b n) := by
  constructor
  · rintro ⟨F, hF, hlen, rfl⟩
    cases hF with
    | nil =>
      refine ⟨0, 0, le_rfl, Nat.zero_le i, 0, by rw [costs_below_zero]; rfl, ?_⟩
      rw [cost_nil, Ico_self, sum_empty, zero_add, zero_add, range_eq_Ico]
    | @cons _ l u F hlu hui hF =>
      refine ⟨l, u, hlu, hui, cost a b l F, ⟨F, hF, by simpa using hlen, rfl⟩, ?_⟩
      exact cost_cons hlu hui hF
  · rintro ⟨l, u, hlu, hui, c', ⟨F, hF, hlen, rfl⟩, rfl⟩
    exact ⟨(l, u) :: F, .cons hlu hui hF, by simpa using hlen, cost_cons hlu hui hF⟩

/-- One more number, left uncovered. -/
theorem costs_succ {c : M} (hc : c ∈ costs a b i j) : c + b i ∈ costs a b (i + 1) j := by
  obtain ⟨F, hF, hlen, rfl⟩ := hc
  refine ⟨F, hF.mono (Nat.le_succ i), hlen, ?_⟩
  rw [cost, sum_range_succ, if_neg (hF.not_covered le_rfl)]
  rfl

/-- One number less costs no more. -/
theorem exists_costs_pred [PartialOrder M] [IsOrderedAddMonoid M] (ha : ∀ n, 0 ≤ a n)
    (hb : ∀ n, 0 ≤ b n) {c : M} (hc : c ∈ costs a b (i + 1) j) :
    ∃ c' ∈ costs a b i j, c' ≤ c := by
  obtain ⟨F, hF, hlen, rfl⟩ := hc
  obtain ⟨G, hG, hlenG, hcov⟩ := hF.truncate
  refine ⟨cost a b i G, ⟨G, hG, hlenG.trans hlen, rfl⟩, ?_⟩
  have hsame : cost a b i G = cost a b i F :=
    Finset.sum_congr rfl fun n hn => if_congr (hcov n (mem_range.mp hn)) rfl rfl
  rw [hsame, cost, cost, sum_range_succ]
  refine le_add_of_nonneg_right ?_
  split
  · exact ha i
  · exact hb i

end Cost

/-- **The principle of optimality.** If `v l` is the least cost of at most `j` ranges below `l`,
then the least value of `v l`, the last range `[l, u)` and the rest is the least cost of at most
`j + 1` ranges. -/
theorem isLeast_succ {M : Type*} [AddCommMonoid M] [PartialOrder M] [IsOrderedAddMonoid M]
    {a b : ℕ → M} {v : ℕ → M} {w : M} (hv : ∀ l ≤ i, IsLeast (costs a b l j) (v l))
    (hmem : ∃ l u, l ≤ u ∧ u ≤ i ∧ w = v l + (∑ n ∈ Ico l u, a n + ∑ n ∈ Ico u i, b n))
    (hle : ∀ l u, l ≤ u → u ≤ i → w ≤ v l + (∑ n ∈ Ico l u, a n + ∑ n ∈ Ico u i, b n)) :
    IsLeast (costs a b i (j + 1)) w := by
  constructor
  · obtain ⟨l, u, hlu, hui, rfl⟩ := hmem
    exact mem_costs_succ.mpr ⟨l, u, hlu, hui, v l, (hv l (hlu.trans hui)).1, rfl⟩
  · intro c hc
    obtain ⟨l, u, hlu, hui, c', hc', rfl⟩ := mem_costs_succ.mp hc
    have hbest := (hv l (hlu.trans hui)).2 hc'
    exact (hle l u hlu hui).trans (add_le_add_left hbest _)

end Segments
