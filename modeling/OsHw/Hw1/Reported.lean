import OsHw.Hw1.Hypotheses
import OsHw.Hw1.Ties

/-!
# OsHw — the error that `find_best_interval` reports

`besterror` counts errors of index ranges. The caller evaluates the closed intervals between
midpoints instead, by `checkHypOnX`.

* **`Separated`** — equal neighbours have equal labels, and a first point at 0 does not have label 0.
* **`lower_le_iff`**, **`le_upper_iff`** — then the midpoint at a boundary that is taken lies between
  the points that the boundary separates.
* **`reported_of_separated`** — so the intervals make the errors that are reported.
* **`reported_iff`** — and for all numbers of intervals they do only then.
-/

namespace OsHw.Hw1

open Finset Segments Pieces

/-- The points of `xs` that a hypothesis labels wrongly, as they are counted in `crossValid`. -/
def mistakes (xs : List ℚ) (ys : List Int) (hyp : List (ℚ × ℚ)) : Nat :=
  (List.range xs.length).countP fun j => checkHypOnX (xs.getD j 0) hyp ≠ ys.getD j 0

/-- The intervals make as many errors as reported. -/
def Reported (xs : List ℚ) (ys : List Int) (k : Nat) : Prop :=
  ∃ intervals besterror, find_best_interval xs ys k = some (intervals, besterror) ∧
    (mistakes xs ys intervals : Int) = besterror

/-- Equal neighbours have equal labels, and a first point at 0 does not have label 0. -/
def Separated (xs : List ℚ) (ys : List Int) : Prop :=
  (∀ j < xs.length - 1, xs.getD j 0 = xs.getD (j + 1) 0 → ys.getD j 0 = ys.getD (j + 1) 0) ∧
    ¬ (xs.getD 0 0 = 0 ∧ ys.getD 0 0 = 0)

instance (xs : List ℚ) (ys : List Int) : Decidable (Separated xs ys) :=
  inferInstanceAs (Decidable (_ ∧ _))

section

variable {xs : List ℚ} {ys : List Int} {t : Tables} {i j k l u : Nat} {F : List Bounds}

/-! ## Midpoints -/

/-- Sorted points within `[0, 1]`. -/
structure Points (xs : List ℚ) : Prop where
  sorted : xs = xs.insertionSort (· ≤ ·)
  within : ∀ x ∈ xs, 0 ≤ x ∧ x ≤ 1

theorem Points.getD_le (h : Points xs) (hij : i ≤ j) (hj : j < xs.length) :
    xs.getD i 0 ≤ xs.getD j 0 := by
  have hpairwise : xs.Pairwise (· ≤ ·) := by
    rw [h.sorted]
    exact List.pairwise_insertionSort (· ≤ ·) xs
  rcases hij.lt_or_eq with hlt | rfl
  · rw [List.getD_eq_getElem xs 0 (by omega), List.getD_eq_getElem xs 0 hj]
    exact List.pairwise_iff_getElem.mp hpairwise i j (by omega) hj hlt
  · exact le_rfl

theorem Points.getD_within (h : Points xs) (hj : j < xs.length) :
    0 ≤ xs.getD j 0 ∧ xs.getD j 0 ≤ 1 := by
  rw [List.getD_eq_getElem xs 0 hj]
  exact h.within _ (List.getElem_mem hj)

/-- The points on the two sides of a boundary, with 0 and 1 at the ends. -/
theorem representatives_getD (xs : List ℚ) (hj : j ≤ xs.length) : (representatives xs).getD j 0 =
    ((0 :: xs).getD j 0 + (xs ++ [1]).getD j 0) / 2 := by
  have h1 : j < (0 :: xs).length := by simpa using Nat.lt_succ_of_le hj
  have h2 : j < (xs ++ [1]).length := by simpa using Nat.lt_succ_of_le hj
  have hlen : j < (representatives xs).length := by
    rw [representatives, List.length_zipWith]
    omega
  rw [List.getD_eq_getElem _ 0 hlen, List.getD_eq_getElem _ 0 h1, List.getD_eq_getElem _ 0 h2]
  exact List.getElem_zipWith

theorem after_getD (hj : j < xs.length) : (xs ++ [1]).getD j 0 = xs.getD j 0 := by
  rw [List.getD_append xs [1] 0 j hj]

theorem after_last : (xs ++ [(1 : ℚ)]).getD xs.length 0 = 1 := by
  simp

/-- **A lower boundary** between different points. -/
theorem lower_le_iff (h : Points xs) (hl : l ≤ xs.length) (hi : i < xs.length)
    (hsep : 1 ≤ l → l < xs.length ∧ xs.getD (l - 1) 0 ≠ xs.getD l 0) :
    (representatives xs).getD l 0 ≤ xs.getD i 0 ↔ l ≤ i := by
  rw [representatives_getD xs hl]
  constructor
  · intro hle
    by_contra hlt
    obtain ⟨n, rfl⟩ := Nat.exists_eq_add_of_le' (show 1 ≤ l by omega)
    obtain ⟨hn, hne⟩ := hsep (by omega)
    rw [Nat.add_sub_cancel] at hne
    rw [List.getD_cons_succ, after_getD hn] at hle
    have hstep := lt_of_le_of_ne (h.getD_le (Nat.le_succ n) hn) hne
    have hbelow := h.getD_le (show i ≤ n by omega) (show n < xs.length by omega)
    linarith
  · intro hle
    have hafter := after_getD (show l < xs.length by omega)
    have habove := h.getD_le hle hi
    have hbefore : (0 :: xs).getD l 0 ≤ xs.getD l 0 := by
      cases l with
      | zero => exact (h.getD_within (show 0 < xs.length by omega)).1
      | succ n => exact h.getD_le (Nat.le_succ n) (by omega)
    rw [hafter]
    linarith

/-- **An upper boundary** between different points. -/
theorem le_upper_iff (h : Points xs) (hu : u ≤ xs.length) (hi : i < xs.length)
    (hsep : u < xs.length → (0 :: xs).getD u 0 ≠ xs.getD u 0) :
    xs.getD i 0 ≤ (representatives xs).getD u 0 ↔ i < u := by
  rw [representatives_getD xs hu]
  constructor
  · intro hle
    by_contra hge
    have hum : u < xs.length := by omega
    have hbefore : (0 :: xs).getD u 0 ≤ xs.getD u 0 := by
      cases u with
      | zero => exact (h.getD_within hum).1
      | succ n => exact h.getD_le (Nat.le_succ n) hum
    have hstep := lt_of_le_of_ne hbefore (hsep hum)
    have habove := h.getD_le (show u ≤ i by omega) hi
    rw [after_getD hum] at hle
    linarith
  · intro hlt
    obtain ⟨n, rfl⟩ := Nat.exists_eq_add_of_le' (show 1 ≤ u by omega)
    have hbelow := h.getD_le (show i ≤ n by omega) (show n < xs.length by omega)
    have hafter : xs.getD n 0 ≤ (xs ++ [1]).getD (n + 1) 0 := by
      rcases hu.lt_or_eq with hlt | heq
      · rw [after_getD hlt]
        exact h.getD_le (Nat.le_succ n) hlt
      · rw [heq, after_last]
        exact (h.getD_within (show n < xs.length by omega)).2
    rw [List.getD_cons_succ]
    linarith

/-- The interval of an index range. -/
def interval (xs : List ℚ) (r : Bounds) : ℚ × ℚ :=
  ((representatives xs).getD r.1 0, (representatives xs).getD r.2 0)

/-- **What the intervals cover** at the points is what the ranges cover. -/
theorem covers_iff_covered (h : Points xs) (hlen : ys.length = xs.length)
    (hsep : Separated xs ys) (hF : ∀ r ∈ F, r.1 ≤ r.2 ∧ r.2 ≤ xs.length)
    (htight : ∀ r ∈ F, Tight ys r) (hi : i < xs.length) :
    Covers (F.map (interval xs)) (xs.getD i 0) ↔ Covered F i := by
  unfold Covers Covered
  simp only [List.mem_map, exists_exists_and_eq_and]
  refine exists_congr fun r => and_congr_right fun hr => ?_
  obtain ⟨hle, hm⟩ := hF r hr
  obtain ⟨hlower, hupper⟩ := htight r hr
  rw [hlen] at hlower hupper
  refine and_congr (lower_le_iff h (hle.trans hm) hi fun hl => ?_) (le_upper_iff h hm hi ?_)
  · obtain ⟨hlm, hzero, hone⟩ := hlower hl
    refine ⟨hlm, fun heq => ?_⟩
    have hstep : r.1 - 1 + 1 = r.1 := by omega
    have hsame := hsep.1 (r.1 - 1) (by omega) (by rw [hstep]; exact heq)
    rw [hstep] at hsame
    unfold label at hzero hone
    omega
  · intro hum heq
    obtain ⟨hzero, hone⟩ := hupper hum
    obtain ⟨l, u⟩ := r
    dsimp only at hum heq hzero hone
    cases u with
    | zero => exact hsep.2 ⟨heq.symm, hzero⟩
    | succ n =>
      have hsame := hsep.1 n (by omega) heq
      have hone := hone (by omega)
      rw [Nat.add_sub_cancel] at hone
      unfold label at hzero hone
      omega

/-! ## The errors -/

/-- A hypothesis that covers what a family covers makes the errors of the family. -/
theorem mistakes_eq_cost {hyp : List (ℚ × ℚ)} (hys : Binary ys)
    (hcov : ∀ i < xs.length, Covers hyp (xs.getD i 0) ↔ Covered F i) :
    (mistakes xs ys hyp : Int) = cost (zero ys) (one ys) xs.length F := by
  unfold mistakes cost
  generalize xs.length = m at hcov
  induction m with
  | zero => rfl
  | succ n ih =>
    rw [List.range_succ, List.countP_append, sum_range_succ, Nat.cast_add,
      ih fun i hi => hcov i (by omega)]
    congr 1
    have hlabel := hys.label n
    unfold zero one label at *
    rw [List.countP_singleton]
    by_cases hn : Covered F n
    · rw [if_pos hn, checkHypOnX_of_covers ((hcov n (Nat.lt_succ_self n)).mpr hn)]
      rcases hlabel with hy | hy <;> rw [hy] <;> decide
    · rw [if_neg hn, checkHypOnX_of_not_covers (mt (hcov n (Nat.lt_succ_self n)).mp hn)]
      rcases hlabel with hy | hy <;> rw [hy] <;> decide

/-- What the call returns: the intervals of a descending family with the least cost, whose ranges
separate labels. -/
theorem exists_find_best_interval (hne : xs ≠ []) (h : Points xs)
    (hlen : ys.length = xs.length) (hys : Binary ys) (hk : 1 ≤ k) : ∃ t F,
      Solved ys k t ∧ find_best_interval xs ys k =
        some (F.reverse.map (interval xs), t.E xs.length k) ∧
      Descending xs.length F ∧ cost (zero ys) (one ys) xs.length F = t.E xs.length k ∧
      (∀ r ∈ F, Tight ys r) ∧ (xs.length < k → label ys 0 = 0 → (0, 0) ∈ F) := by
  have hm : 1 ≤ ys.length := by
    rw [hlen]
    exact List.length_pos_iff.mpr hne
  obtain ⟨t, ht, hsolved⟩ := exists_solved hys k
  obtain ⟨F, hextract, hF, -, hcost⟩ := exists_extract hsolved.ok hm le_rfl hk le_rfl []
  rw [List.nil_append] at hextract
  have htight := extract_tight hsolved hm le_rfl hk le_rfl (fun hlt => absurd hlt (lt_irrefl _))
    hextract
  rw [← hlen]
  refine ⟨t, F, hsolved, ?_, hF, hcost, fun r hr => (htight r hr).resolve_left List.not_mem_nil,
    fun hlt hzero => extract_nil_range hsolved hm le_rfl hlt le_rfl hzero hextract⟩
  unfold find_best_interval find_best
  rw [if_pos ⟨h.sorted, hlen.symm⟩]
  dsimp only
  rw [ht, Option.bind_eq_bind, Option.bind_eq_bind, Option.bind_some, hextract, Option.bind_eq_bind,
    Option.bind_some, insertionSort_eq_reverse hF]
  rfl

/-- **Separated points are reported on correctly**, for every number of intervals. -/
theorem reported_of_separated (hne : xs ≠ []) (h : Points xs) (hlen : ys.length = xs.length)
    (hys : Binary ys) (hsep : Separated xs ys) (hk : 1 ≤ k) : Reported xs ys k := by
  obtain ⟨t, F, -, hfind, hF, hcost, htight, -⟩ := exists_find_best_interval hne h hlen hys hk
  refine ⟨_, _, hfind, ?_⟩
  rw [← hcost]
  refine mistakes_eq_cost hys fun i hi => ?_
  rw [← Covered.perm F.reverse_perm]
  exact covers_iff_covered h hlen hsep (fun r hr => hF.mem (List.mem_reverse.mp hr))
    (fun r hr => htight r (List.mem_reverse.mp hr)) hi

/-- With an interval for each point there are no errors. -/
theorem Solved.E_le_zero (h : Solved ys k t) (hk : ys.length ≤ k) : t.E ys.length k ≤ 0 := by
  obtain ⟨F, hF, hlen, hcov⟩ := exists_singles (fun n => label ys n = 1) ys.length
  refine (h.ok ys.length k le_rfl le_rfl).least.2 ⟨F, hF, hlen.trans hk, ?_⟩
  refine Finset.sum_eq_zero fun n hn => ?_
  rw [mem_range] at hn
  by_cases hone : label ys n = 1
  · rw [if_pos ((hcov n).mpr ⟨hn, hone⟩), zero, if_neg (by omega)]
  · rw [if_neg (mt (hcov n).mp (by tauto)), one, if_neg hone]

/-- **Only separated points** are reported on correctly when there are more intervals than points:
then no errors are reported. -/
theorem separated_of_reported (hne : xs ≠ []) (h : Points xs) (hlen : ys.length = xs.length)
    (hys : Binary ys) (hk : xs.length < k) (hrep : Reported xs ys k) : Separated xs ys := by
  obtain ⟨t, F, hsolved, hfind, -, -, -, hnil⟩ :=
    exists_find_best_interval hne h hlen hys (show 1 ≤ k by omega)
  obtain ⟨intervals, besterror, hcall, hcount⟩ := hrep
  rw [hfind] at hcall
  obtain ⟨rfl, rfl⟩ := Prod.mk.inj (Option.some.inj hcall)
  have hzero : mistakes xs ys (F.reverse.map (interval xs)) = 0 := by
    have hle := hsolved.E_le_zero (by omega)
    rw [hlen] at hle
    omega
  have hright : ∀ j < xs.length,
      checkHypOnX (xs.getD j 0) (F.reverse.map (interval xs)) = ys.getD j 0 := by
    intro j hj
    have hnot := List.countP_eq_zero.mp hzero j (List.mem_range.mpr hj)
    simpa only [decide_eq_true_eq, not_not] using hnot
  refine ⟨fun j hj heq => ?_, fun hfirst => ?_⟩
  · rw [← hright j (by omega), ← hright (j + 1) (by omega), heq]
  · have hpos : 0 < xs.length := List.length_pos_iff.mpr hne
    -- the interval of the empty range is the point 0
    have hpoint : interval xs (0, 0) = (0, 0) := by
      have hmid := representatives_getD xs (Nat.zero_le _)
      rw [after_getD hpos, hfirst.1, List.getD_cons_zero] at hmid
      unfold interval
      rw [hmid]
      norm_num
    have hcov : Covers (F.reverse.map (interval xs)) (xs.getD 0 0) := by
      refine ⟨(0, 0), List.mem_map.mpr ⟨(0, 0), List.mem_reverse.mpr ?_, hpoint⟩, ?_⟩
      · exact hnil hk hfirst.2
      · rw [hfirst.1]
        exact ⟨le_rfl, le_rfl⟩
    have hwrong := (checkHypOnX_of_covers hcov).symm.trans (hright 0 hpos)
    rw [hfirst.2] at hwrong
    cases hwrong

/-- **When `besterror` is the error of the intervals.** For sorted points of `[0, 1]` and labels 0
and 1: for every number of intervals exactly if equal neighbours have equal labels and a first point
at 0 does not have label 0. With more intervals than points this decides each time. -/
theorem reported_iff (hne : xs ≠ []) (hsorted : xs = xs.insertionSort (· ≤ ·))
    (hwithin : ∀ x ∈ xs, 0 ≤ x ∧ x ≤ 1) (hlen : ys.length = xs.length)
    (hys : ∀ y ∈ ys, y = 0 ∨ y = 1) :
    ((∀ k, 1 ≤ k → Reported xs ys k) ↔ Separated xs ys) ∧
      ∀ k, xs.length < k → (Reported xs ys k ↔ Separated xs ys) := by
  have h : Points xs := ⟨hsorted, hwithin⟩
  have honly : ∀ k, xs.length < k → Reported xs ys k → Separated xs ys := fun k hk =>
    separated_of_reported hne h hlen hys hk
  have hall : Separated xs ys → ∀ k, 1 ≤ k → Reported xs ys k := fun hsep k hk =>
    reported_of_separated hne h hlen hys hsep hk
  refine ⟨⟨fun hrep => ?_, hall⟩, fun k hk => ⟨honly k hk, fun hsep => hall hsep k (by omega)⟩⟩
  exact honly (xs.length + 1) (Nat.lt_succ_self _) (hrep _ (by omega))

/-- Two equal points of one label, and one of the other. -/
theorem reported_three : Reported [1 / 4, 1 / 4, 1 / 2] [1, 1, 0] 1 :=
  (@reported_iff [1 / 4, 1 / 4, 1 / 2] [1, 1, 0] (by decide) (by decide +kernel)
    (by decide +kernel) rfl (by decide)).1.mpr (by decide +kernel) 1 le_rfl

/-- Two equal points of different labels: the interval of the second one covers both, and no error
is reported. -/
theorem reports_no_error : find_best_interval [1 / 2, 1 / 2] [0, 1] 1 = some ([(1 / 2, 3 / 4)], 0) ∧
    mistakes [1 / 2, 1 / 2] [0, 1] [(1 / 2, 3 / 4)] = 1 := by
  decide +kernel

end

end OsHw.Hw1
