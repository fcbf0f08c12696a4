import OsHw.Hw1.Reported
import OsHw.Lib.Blocks

/-!
# OsHw — `find_best_interval` as a learner

The hypotheses are all unions of at most `k` intervals of rationals, which may overlap, be empty or
lie outside of `[0, 1]`. At sorted points each interval is a range of indices, and ranges that
overlap cover nothing that as many disjoint ones do not; so the minimum over the ranges is one over
the hypotheses.

* **`exists_ranges`** — the ranges of a hypothesis.
* **`find_best_interval_erm`** — no hypothesis makes fewer mistakes than are reported.
* **`besterror_convex`** — how the reported number falls with `k`: by less and less, until it is 0
  where there are as many intervals as blocks of ones.
-/

namespace OsHw.Hw1

open Pieces Segments

section

variable {xs : List ℚ} {ys : List Int} {k m : Nat}

/-! ## Hypotheses at sorted points -/

/-- What holds from some index on. -/
theorem exists_threshold {p : Nat → Prop} (hup : ∀ i j, i ≤ j → j < m → p i → p j) :
    ∃ l, ∀ i < m, p i ↔ l ≤ i := by
  induction m with
  | zero => exact ⟨0, nofun⟩
  | succ m ih =>
    obtain ⟨l, hl⟩ := ih fun i j hij hj => hup i j hij (by omega)
    by_cases hm : p m
    · refine ⟨min l m, fun i hi => ?_⟩
      rcases Nat.lt_succ_iff_lt_or_eq.mp hi with hlt | rfl
      · rw [hl i hlt]
        omega
      · exact iff_of_true hm (min_le_right l i)
    · refine ⟨m + 1, fun i hi => iff_of_false (fun hp => hm ?_) (by omega)⟩
      exact hup i m (by omega) (Nat.lt_succ_self m) hp

/-- **One interval.** -/
theorem exists_interval_range (h : Points xs) (p : ℚ × ℚ) : ∃ r : Bounds, ∀ i < xs.length,
    (p.1 ≤ xs.getD i 0 ∧ xs.getD i 0 ≤ p.2) ↔ (r.1 ≤ i ∧ i < r.2) := by
  obtain ⟨l, hl⟩ := exists_threshold (p := fun i => p.1 ≤ xs.getD i 0) (m := xs.length)
    fun i j hij hj hle => hle.trans (h.getD_le hij hj)
  obtain ⟨u, hu⟩ := exists_threshold (p := fun i => p.2 < xs.getD i 0) (m := xs.length)
    fun i j hij hj hlt => hlt.trans_le (h.getD_le hij hj)
  refine ⟨(l, u), fun i hi => and_congr (hl i hi) ?_⟩
  rw [← not_lt, hu i hi, not_le]

/-- **The ranges of a hypothesis.** -/
theorem exists_ranges (h : Points xs) (hyp : List (ℚ × ℚ)) : ∃ F : List Bounds,
    F.length = hyp.length ∧ ∀ i < xs.length, Covers hyp (xs.getD i 0) ↔ Covered F i := by
  induction hyp with
  | nil =>
    refine ⟨[], rfl, fun i _ => iff_of_false ?_ covered_nil⟩
    rintro ⟨p, hp, -⟩
    cases hp
  | cons p hyp ih =>
    obtain ⟨F, hlen, hcov⟩ := ih
    obtain ⟨r, hr⟩ := exists_interval_range h p
    refine ⟨r :: F, congrArg (· + 1) hlen, fun i hi => ?_⟩
    rw [covered_cons, ← hr i hi, ← hcov i hi]
    simp only [Covers, List.mem_cons, exists_eq_or_imp]

/-- The mistakes of a hypothesis are the cost of a family in order. -/
theorem mistakes_mem_costs (h : Points xs) (hys : Binary ys) {hyp : List (ℚ × ℚ)}
    (hk : hyp.length ≤ k) :
    (mistakes xs ys hyp : Int) ∈ costs (zero ys) (one ys) xs.length k := by
  obtain ⟨F, hlen, hcov⟩ := exists_ranges h hyp
  obtain ⟨G, hG, hshort, hsame⟩ := exists_descending_of_covered F xs.length
  refine ⟨G, hG, by omega, (mistakes_eq_cost hys fun i hi => ?_).symm⟩
  rw [hcov i hi, hsame i hi]

/-! ## The number of intervals -/

/-- Each round of the way back adds one range, and the first one does. -/
theorem extract_length {P : Nat → Nat → Option Bounds} {j : Nat} {cur : Option Bounds}
    {best result : List Bounds} (h : extract P j cur best = some result) :
    best.length ≤ result.length ∧ result.length ≤ best.length + j ∧
      (1 ≤ j → best.length < result.length) := by
  induction j generalizing cur best with
  | zero =>
    obtain rfl := Option.some.inj h
    exact ⟨le_rfl, le_rfl, by omega⟩
  | succ j ih =>
    rw [extract] at h
    obtain ⟨last, -, h⟩ := Option.bind_eq_some_iff.mp h
    split at h
    · obtain rfl := Option.some.inj h
      rw [List.length_append, List.length_singleton]
      omega
    · have hnext := ih h
      rw [List.length_append, List.length_singleton] at hnext
      omega

theorem find_best_interval_length {intervals : List (ℚ × ℚ)} {besterror : Int}
    (h : find_best_interval xs ys k = some (intervals, besterror)) :
    intervals.length ≤ k ∧ (1 ≤ k → intervals ≠ []) := by
  unfold find_best_interval at h
  split at h
  · simp only [Option.bind_eq_bind, Option.bind_eq_some_iff] at h
    obtain ⟨⟨best, e⟩, hbest, heq⟩ := h
    simp only [find_best, Option.bind_eq_bind, Option.bind_eq_some_iff] at hbest
    obtain ⟨t, -, extracted, hextract, heq'⟩ := hbest
    cases heq'
    cases heq
    have hlen := extract_length hextract
    rw [List.length_nil] at hlen
    rw [List.length_map, List.length_insertionSort]
    refine ⟨by omega, fun hk hnil => ?_⟩
    have hzero := congrArg List.length hnil
    rw [List.length_map, List.length_insertionSort, List.length_nil] at hzero
    omega
  · cases h

/-! ## The least number of mistakes -/

/-- **The learner is exact.** On sorted points of `[0, 1]`, no union of at most `k` intervals makes
fewer mistakes than the reported number; the intervals returned are at most `k`, and they make
just as many, if no two equal points have different labels and no point of label 0 is 0. -/
theorem find_best_interval_erm (hne : xs ≠ []) (hsorted : xs = xs.insertionSort (· ≤ ·))
    (hwithin : ∀ x ∈ xs, 0 ≤ x ∧ x ≤ 1) (hlen : ys.length = xs.length)
    (hys : ∀ y ∈ ys, y = 0 ∨ y = 1) (hk : 1 ≤ k) :
    ∃ intervals besterror, find_best_interval xs ys k = some (intervals, besterror) ∧
      intervals.length ≤ k ∧
      (∀ hyp : List (ℚ × ℚ), hyp.length ≤ k → besterror ≤ mistakes xs ys hyp) ∧
      (Separated xs ys → (mistakes xs ys intervals : Int) = besterror) := by
  have h : Points xs := ⟨hsorted, hwithin⟩
  obtain ⟨t, F, hsolved, hfind, hF, hcost, -, -⟩ := exists_find_best_interval hne h hlen hys hk
  refine ⟨_, _, hfind, (find_best_interval_length hfind).1, fun hyp hhyp => ?_, fun hsep => ?_⟩
  · have hleast := (hsolved.ok ys.length k le_rfl le_rfl).least.2
    rw [hlen] at hleast
    exact hleast (mistakes_mem_costs h hys hhyp)
  · obtain ⟨intervals, besterror, hcall, hcount⟩ := reported_of_separated hne h hlen hys hsep hk
    rw [hfind] at hcall
    obtain ⟨rfl, rfl⟩ := Prod.mk.inj (Option.some.inj hcall)
    exact hcount

/-- Two overlapping intervals are as good as the one that is found. -/
theorem find_best_interval_erm_three : ∃ intervals besterror,
    find_best_interval [1 / 4, 1 / 2, 3 / 4] [1, 0, 1] 1 = some (intervals, besterror) ∧
    besterror ≤ mistakes [1 / 4, 1 / 2, 3 / 4] [1, 0, 1] [(0, 1)] ∧
    (mistakes [1 / 4, 1 / 2, 3 / 4] [1, 0, 1] intervals : Int) = besterror := by
  obtain ⟨intervals, besterror, hfind, -, hleast, hcount⟩ :=
    @find_best_interval_erm [1 / 4, 1 / 2, 3 / 4] [1, 0, 1] 1 (by decide) (by decide +kernel)
      (by decide +kernel) rfl (by decide) le_rfl
  exact ⟨intervals, besterror, hfind, hleast _ le_rfl, hcount (by decide +kernel)⟩

/-! ## How it falls with `k` -/

theorem exists_find_best (hys : Binary ys) (hm : 1 ≤ ys.length) (hk : 1 ≤ k) :
    ∃ best besterror, find_best ys k = some (best, besterror) ∧
      IsLeast (costs (zero ys) (one ys) ys.length k) besterror := by
  obtain ⟨t, ht, hcells⟩ := exists_fill hys k
  obtain ⟨F, hextract, -⟩ := exists_extract hcells hm le_rfl hk le_rfl []
  rw [List.nil_append] at hextract
  refine ⟨F.insertionSort boundsLe, t.E ys.length k, ?_,
    (hcells ys.length k le_rfl le_rfl).least⟩
  unfold find_best
  dsimp only
  rw [ht, Option.bind_eq_bind, Option.bind_some, hextract]
  rfl

/-- The ones of a list of labels come in so many blocks. -/
def onesBlocks (ys : List Int) : Nat := (blocks (fun i => label ys i = 1) ys.length).card

theorem price_nonneg (ys : List Int) (F : List Bounds) : ∀ i ∈ Finset.range ys.length,
    0 ≤ if Covered F i then zero ys i else one ys i := by
  intro i _
  split
  · exact zero_nonneg ys i
  · exact one_nonneg ys i

/-- **No mistakes** take a range for each block. -/
theorem least_zero_iff {e : Int} (hys : Binary ys)
    (h : IsLeast (costs (zero ys) (one ys) ys.length k) e) : e = 0 ↔ onesBlocks ys ≤ k := by
  constructor
  · rintro rfl
    obtain ⟨F, hF, hlen, hzero⟩ := h.1
    refine le_trans (card_blocks_le fun i hi => ?_) hlen
    have hfree := (Finset.sum_eq_zero_iff_of_nonneg (price_nonneg ys F)).mp hzero i
      (Finset.mem_range.mpr hi)
    by_cases hcov : Covered F i
    · rw [if_pos hcov, zero] at hfree
      refine iff_of_true hcov ((hys.label i).resolve_left fun hl => ?_)
      rw [if_pos hl] at hfree
      exact absurd hfree one_ne_zero
    · rw [if_neg hcov, one] at hfree
      refine iff_of_false hcov fun hl => ?_
      rw [if_pos hl] at hfree
      exact absurd hfree one_ne_zero
  · intro hk
    obtain ⟨F, hF, -, hlen, hcov⟩ :=
      exists_descending_of_blocks (fun i => label ys i = 1) ys.length
    have hzero : cost (zero ys) (one ys) ys.length F = 0 := by
      refine Finset.sum_eq_zero fun i hi => ?_
      rw [Finset.mem_range] at hi
      by_cases hl : label ys i = 1
      · rw [if_pos ((hcov i hi).mpr hl), zero, if_neg (by omega)]
      · rw [if_neg (mt (hcov i hi).mp hl), one, if_neg hl]
    refine le_antisymm (h.2 ⟨F, hF, hlen.trans_le hk, hzero⟩) ?_
    obtain ⟨G, -, -, rfl⟩ := h.1
    exact Finset.sum_nonneg (price_nonneg ys G)

/-- **Every interval more gains no more than the one before it.** -/
theorem least_convex {e₀ e₁ e₂ : Int} (h₀ : IsLeast (costs (zero ys) (one ys) m k) e₀)
    (h₁ : IsLeast (costs (zero ys) (one ys) m (k + 1)) e₁)
    (h₂ : IsLeast (costs (zero ys) (one ys) m (k + 2)) e₂) :
    e₁ ≤ e₀ ∧ 2 * e₁ ≤ e₀ + e₂ := by
  refine ⟨h₁.2 (costs_mono (Nat.le_succ k) h₀.1), ?_⟩
  obtain ⟨c, hc, d, hd, hsum⟩ := costs_exchange h₀.1 h₂.1
  have hle := h₁.2 hc
  have hle' := h₁.2 hd
  omega

/-- A convex sequence that comes to 0 falls until it does. -/
theorem lt_of_convex {e : Nat → Int} (hconvex : ∀ n, 2 * e (n + 1) ≤ e n + e (n + 2))
    {n b : Nat} (hzero : e b ≤ 0) (hnb : n ≤ b) (hpos : 0 < e n) : e (n + 1) < e n := by
  by_contra hle
  -- otherwise it never falls again
  have hrise : ∀ j, e n ≤ e (n + j) ∧ e (n + j) ≤ e (n + j + 1) := by
    intro j
    induction j with
    | zero => exact ⟨le_rfl, not_lt.mp hle⟩
    | succ j ih =>
      have hnext : 2 * e (n + j + 1) ≤ e (n + j) + e (n + j + 1 + 1) := hconvex (n + j)
      rw [← Nat.add_assoc]
      exact ⟨by omega, by omega⟩
  obtain ⟨j, rfl⟩ := Nat.exists_eq_add_of_le hnb
  have hj := (hrise j).1
  omega

/-- What is reported for each number of intervals. -/
structure BestErrors (ys : List Int) (besterror : Nat → Int) : Prop where
  found : ∀ k, 1 ≤ k → ∃ best, find_best ys k = some (best, besterror k)
  nonneg : ∀ k, 1 ≤ k → 0 ≤ besterror k
  zero_iff : ∀ k, 1 ≤ k → (besterror k = 0 ↔ onesBlocks ys ≤ k)
  falls : ∀ k, 1 ≤ k → besterror k ≠ 0 → besterror (k + 1) < besterror k
  convex : ∀ k, 1 ≤ k → besterror (k + 1) - besterror (k + 2) ≤ besterror k - besterror (k + 1)

theorem exists_bestErrors (hys : Binary ys) (hm : 1 ≤ ys.length) :
    ∃ besterror, BestErrors ys besterror := by
  have hall : ∀ n, ∃ e : Int, (∃ best, find_best ys (n + 1) = some (best, e)) ∧
      IsLeast (costs (zero ys) (one ys) ys.length (n + 1)) e := by
    intro n
    obtain ⟨best, e, hfind, hleast⟩ := exists_find_best hys hm (Nat.succ_pos n)
    exact ⟨e, ⟨best, hfind⟩, hleast⟩
  choose e hfind hleast using hall
  have hconvex : ∀ n, e (n + 1) ≤ e n ∧ 2 * e (n + 1) ≤ e n + e (n + 2) := fun n =>
    least_convex (hleast n) (hleast (n + 1)) (hleast (n + 2))
  have hzero : ∀ n, e n = 0 ↔ onesBlocks ys ≤ n + 1 := fun n => least_zero_iff hys (hleast n)
  have hnonneg : ∀ n, 0 ≤ e n := by
    intro n
    obtain ⟨F, -, -, heq⟩ := (hleast n).1
    rw [← heq]
    exact Finset.sum_nonneg (price_nonneg ys F)
  refine ⟨fun k => e (k - 1), ?_, fun k _ => hnonneg (k - 1), ?_, ?_, ?_⟩
  · intro k hk
    have hstep : k - 1 + 1 = k := by omega
    have hbest := hfind (k - 1)
    rwa [hstep] at hbest
  · intro k hk
    rw [hzero (k - 1)]
    omega
  · intro k hk hne
    have hstep : k + 1 - 1 = k - 1 + 1 := by omega
    have hlast : e (onesBlocks ys + (k - 1)) ≤ 0 := ((hzero _).mpr (by omega)).le
    show e (k + 1 - 1) < e (k - 1)
    rw [hstep]
    exact lt_of_convex (fun n => (hconvex n).2) hlast (Nat.le_add_left _ _)
      (lt_of_le_of_ne (hnonneg _) (Ne.symm hne))
  · intro k hk
    obtain ⟨n, rfl⟩ := Nat.exists_eq_add_of_le' hk
    have hc := (hconvex n).2
    show e (n + 1) - e (n + 2) ≤ e n - e (n + 1)
    omega

/-- **How `besterror` falls.** With each interval more it falls, by no more than with the one
before, until it is 0 where there are as many intervals as blocks of ones; it is 0 from there on. -/
theorem besterror_convex (ys : List Int) (hys : ∀ y ∈ ys, y = 0 ∨ y = 1) (hm : 1 ≤ ys.length) :
    ∃ besterror : Nat → Int, (∀ k, 1 ≤ k → ∃ best, find_best ys k = some (best, besterror k)) ∧
      (∀ k, 1 ≤ k → (besterror k = 0 ↔ onesBlocks ys ≤ k)) ∧
      (∀ k, 1 ≤ k → besterror k ≠ 0 → besterror (k + 1) < besterror k) ∧
      ∀ k, 1 ≤ k →
        besterror (k + 1) - besterror (k + 2) ≤ besterror k - besterror (k + 1) := by
  obtain ⟨besterror, h⟩ := exists_bestErrors hys hm
  exact ⟨besterror, h.found, h.zero_iff, h.falls, h.convex⟩

/-- Three blocks of ones, of which one interval takes in the largest part. -/
theorem besterror_convex_three : ∃ besterror : Nat → Int,
    (∃ best, find_best [1, 0, 1, 1, 0, 0, 1] 1 = some (best, besterror 1)) ∧
      besterror 3 = 0 ∧ besterror 2 - besterror 3 ≤ besterror 1 - besterror 2 := by
  obtain ⟨besterror, hfind, hzero, -, hconvex⟩ :=
    besterror_convex [1, 0, 1, 1, 0, 0, 1] (by decide) (by decide)
  exact ⟨besterror, hfind 1 le_rfl, (hzero 3 (by decide)).mpr (by decide),
    hconvex 1 le_rfl⟩

end

end OsHw.Hw1
