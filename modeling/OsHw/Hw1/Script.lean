import OsHw.Hw1.Learner
import OsHw.Hw1.Risk

/-!
# OsHw — the script `hw1.py`

The script shades the intervals found on a first sample (`plot_points_A`), finds a hypothesis for
each number of intervals from 1 to 20 on a second one (`testD`), keeps the one that makes the
fewest mistakes on a third (`crossValid`), and compares the errors of two intervals on samples of
10 to 100 points (`testsC`). What the random generators return is an argument. Of a plot only what
is plotted is here, and real numbers are rational ones: nothing is rounded.

* **`representatives_disjointed`** — the intervals found are fit for `calcTrueError`.
* **`exists_found`** — each call of the two on a sample returns, and gives the risk.
* **`exists_indexMin`** — `l.index(min(l))` is the first of the least.
* **`exists_testD`**, **`exists_crossValid`**, **`testsC_eq`** — the functions.
* **`hw1_selects`** — the script raises nothing, and what it plots and prints.
-/

namespace OsHw.Hw1

open Pieces Segments MeasureTheory

/-! ## The functions -/

/-- What `find_best_interval` returns. -/
abbrev Hypothesis := List (ℚ × ℚ)

/-- The points that `randX` returns in `sample_points(m)`, with the labels of `randY`. -/
structure Draws (m : Nat) where
  pairs : List (ℚ × Int)
  length_pairs : pairs.length = m
  within : ∀ p ∈ pairs, 0 ≤ p.1 ∧ p.1 < 1
  labels : ∀ p ∈ pairs, p.2 = 0 ∨ p.2 = 1

/-- `sorted` by the points, which keeps the order of equal ones. -/
def sample_points {m : Nat} (draws : Draws m) : List ℚ × List Int :=
  let pnts := draws.pairs.insertionSort fun p q => p.1 ≤ q.1
  (pnts.map Prod.fst, pnts.map Prod.snd)

/-- `l.index(min(l))`. -/
def indexMin (l : List ℚ) : Option Nat := l.min?.map fun x => l.idxOf x

/-- The intervals that `plot_points_A` shades. -/
def plot_points_A (x : List ℚ) (y : List Int) : Option Hypothesis := do
  let (best_res, _) ← find_best_interval x y 2
  return best_res

/-- One round of the loop in `testD`: the hypothesis, its error on the sample, and its true
error. -/
def testRound (x : List ℚ) (y : List Int) (k : Nat) : Option (Hypothesis × ℚ × ℚ) := do
  let (erm_intervals, erm_count_err) ← find_best_interval x y k
  let true_err ← calcTrueError erm_intervals
  return (erm_intervals, erm_count_err / 50, true_err)

/-- The list that `testD` returns, and the hypothesis that it prints. -/
def testD (x : List ℚ) (y : List Int) : Option (List Hypothesis × Hypothesis) := do
  let rounds ← (List.range' 1 20).mapM (testRound x y)
  let hypo := rounds.map Prod.fst
  let k ← indexMin (rounds.map fun r => r.2.1)
  let best ← hypo[k]?
  return (hypo, best)

/-- The body of the loop in `crossValid`; there are 20 entries in `emp_err`. -/
def crossRound (x : List ℚ) (y : List Int) (hyps : List Hypothesis) (emp_err : List ℚ)
    (i : Nat) : Option (List ℚ) := do
  let hyp ← hyps[i]?
  let counter := (List.range 50).countP fun j => checkHypOnX (x.getD j 0) hyp ≠ y.getD j 0
  if i < emp_err.length then return emp_err.set i (counter / 50) else none

def crossValid (hyps : List Hypothesis) (x : List ℚ) (y : List Int) : Option Hypothesis := do
  let emp_err ← (List.range hyps.length).foldlM (crossRound x y hyps) (List.replicate 20 0)
  let i ← indexMin emp_err
  hyps[i]?

/-- One round of the inner loop in `testsC`: the error of two intervals on a sample of `m` points,
and their true error. -/
def testsRound (m : Nat) (x : List ℚ) (y : List Int) : Option (ℚ × ℚ) := do
  let (erm_intervals, erm_count_err) ← find_best_interval x y 2
  let true_err ← calcTrueError erm_intervals
  return (erm_count_err / m, true_err)

/-- `range(10, 105, 5)`. -/
def sizes : List Nat := List.range' 10 19 5

/-- `sum(l)/float(T)`. -/
def average (l : List ℚ) : ℚ := l.sum / 100

/-- The points of the two curves, where `sample m t` is the sample of round `t`. -/
def testsC (sample : Nat → Nat → List ℚ × List Int) :
    Option (List (Nat × ℚ) × List (Nat × ℚ)) := do
  let res ← sizes.mapM fun m => do
    let errs ← (List.range 100).mapM fun t => testsRound m (sample m t).1 (sample m t).2
    return ((m, average (errs.map Prod.fst)), (m, average (errs.map Prod.snd)))
  return (res.map Prod.fst, res.map Prod.snd)

/-- What the script plots and prints: the intervals of `a.png`, the hypotheses of `testD` and the
one it prints, the curves of `c.png`, and the intervals printed at the end. -/
structure Results where
  best_res : Hypothesis
  hyps : List Hypothesis
  kStar : Hypothesis
  emp_res : List (Nat × ℚ)
  true_res : List (Nat × ℚ)
  hyp : Hypothesis

/-- The body of the script. -/
def hw1 (plot : Draws 100) (train validate : Draws 50) (tests : (m : Nat) → Nat → Draws m) :
    Option Results := do
  let (x, y) := sample_points plot
  let best_res ← plot_points_A x y
  let (x, y) := sample_points train
  let (hyps, kStar) ← testD x y
  let (x, y) := sample_points validate
  let hyp ← crossValid hyps x y
  let (emp_res, true_res) ← testsC fun m t => sample_points (tests m t)
  return ⟨best_res, hyps, kStar, emp_res, true_res, hyp⟩

/-! ## Samples -/

section

variable {m : Nat}

/-- What a sample gives to `find_best_interval`. -/
structure Sampled (m : Nat) (x : List ℚ) (y : List Int) : Prop where
  points : Points x
  length_x : x.length = m
  length_y : y.length = m
  binary : Binary y

theorem sample_points_sampled (draws : Draws m) :
    Sampled m (sample_points draws).1 (sample_points draws).2 := by
  have hperm := List.perm_insertionSort (fun p q : ℚ × Int => p.1 ≤ q.1) draws.pairs
  have hlen : (draws.pairs.insertionSort fun p q => p.1 ≤ q.1).length = m := by
    rw [List.length_insertionSort, draws.length_pairs]
  refine ⟨⟨?_, ?_⟩, ?_, ?_, ?_⟩
  · have hsorted : (sample_points draws).1.Pairwise (· ≤ ·) := by
      have : Std.Total fun p q : ℚ × Int => p.1 ≤ q.1 := ⟨fun p q => le_total p.1 q.1⟩
      have : IsTrans (ℚ × Int) fun p q => p.1 ≤ q.1 := ⟨fun _ _ _ hpq hqr => hpq.trans hqr⟩
      exact List.pairwise_map.mpr (List.pairwise_insertionSort _ draws.pairs)
    exact (hsorted.insertionSort_eq).symm
  · intro x hx
    obtain ⟨p, hp, rfl⟩ := List.mem_map.mp hx
    obtain ⟨hle, hlt⟩ := draws.within p (hperm.mem_iff.mp hp)
    exact ⟨hle, hlt.le⟩
  · exact (List.length_map _).trans hlen
  · exact (List.length_map _).trans hlen
  · intro y hy
    obtain ⟨p, hp, rfl⟩ := List.mem_map.mp hy
    exact draws.labels p (hperm.mem_iff.mp hp)

end

/-! ## The intervals that are found -/

section

variable {xs : List ℚ} {i j : Nat}

/-- A point and the one behind it. -/
theorem before_le_after (h : Points xs) (hj : j ≤ xs.length) :
    (0 :: xs).getD j 0 ≤ (xs ++ [1]).getD j 0 := by
  rcases hj.lt_or_eq with hlt | rfl
  · rw [after_getD hlt]
    cases j with
    | zero => exact (h.getD_within hlt).1
    | succ n => exact h.getD_le (Nat.le_succ n) hlt
  · rw [after_last]
    cases hlen : xs.length with
    | zero => exact zero_le_one
    | succ n => exact (h.getD_within (by omega)).2

theorem representatives_between (h : Points xs) (hj : j ≤ xs.length) :
    (0 :: xs).getD j 0 ≤ (representatives xs).getD j 0 ∧
      (representatives xs).getD j 0 ≤ (xs ++ [1]).getD j 0 := by
  have hle := before_le_after h hj
  rw [representatives_getD xs hj]
  constructor <;> linarith

theorem representatives_mono (h : Points xs) (hij : i ≤ j) (hj : j ≤ xs.length) :
    (representatives xs).getD i 0 ≤ (representatives xs).getD j 0 := by
  induction j, hij using Nat.le_induction with
  | base => exact le_rfl
  | succ j hij ih =>
    have hup := (representatives_between h (show j ≤ xs.length by omega)).2
    rw [after_getD hj] at hup
    have hdown := (representatives_between h hj).1
    exact (ih (by omega)).trans (hup.trans hdown)

/-- **The intervals found** are sorted, within `[0, 1]`, and do not overlap. -/
theorem representatives_disjointed (h : Points xs) {F : List Bounds}
    (hF : Descending xs.length F) : Disjointed (F.reverse.map (interval xs)) := by
  constructor
  · intro p hp
    obtain ⟨r, hr, rfl⟩ := List.mem_map.mp hp
    obtain ⟨hle, hm⟩ := hF.mem (List.mem_reverse.mp hr)
    refine ⟨?_, representatives_mono h hle hm, ?_⟩
    · have hfirst := (representatives_between h (Nat.zero_le _)).1
      exact hfirst.trans (representatives_mono h (Nat.zero_le _) (hle.trans hm))
    · have hlast := (representatives_between h le_rfl).2
      rw [after_last] at hlast
      exact (representatives_mono h hm le_rfl).trans hlast
  · rw [List.pairwise_map, List.pairwise_reverse]
    refine hF.pairwise.imp_of_mem fun {r s} hr _ hbelow => ?_
    obtain ⟨hle, hm⟩ := hF.mem hr
    exact representatives_mono h hbelow (hle.trans hm)

end

/-! ## The first of the least -/

theorem exists_indexMin (l : List ℚ) (hne : l ≠ []) :
    ∃ i, indexMin l = some i ∧ i < l.length ∧ (∀ j < l.length, l.getD i 0 ≤ l.getD j 0) ∧
      ∀ j < i, l.getD i 0 < l.getD j 0 := by
  obtain ⟨x, hx⟩ := Option.ne_none_iff_exists'.mp (mt List.min?_eq_none_iff.mp hne)
  obtain ⟨hmem, hle⟩ := List.min?_eq_some_iff.mp hx
  have hlt : l.idxOf x < l.length := List.idxOf_lt_length_iff.mpr hmem
  refine ⟨l.idxOf x, by rw [indexMin, hx]; rfl, hlt, fun j hj => ?_, fun j hj => ?_⟩
  · rw [List.getD_eq_getElem l 0 hlt, List.getD_eq_getElem l 0 hj, List.getElem_idxOf]
    exact hle _ (List.getElem_mem hj)
  · have hjlt : j < l.length := hj.trans hlt
    have hother : l[j] ≠ x := by simpa using List.not_of_lt_findIdx hj
    rw [List.getD_eq_getElem l 0 hlt, List.getD_eq_getElem l 0 hjlt, List.getElem_idxOf]
    exact lt_of_le_of_ne (hle _ (List.getElem_mem hjlt)) hother.symm

/-! ## The hypotheses of `testD` -/

section

variable {m : Nat} {x : List ℚ} {y : List Int}

/-- The intervals for `k` with their error as reported, and with their risk. -/
structure Found (x : List ℚ) (y : List Int) (k : Nat) (erm : Hypothesis) (besterror : Int)
    (v : ℚ) : Prop where
  found : find_best_interval x y k = some (erm, besterror)
  true_error : calcTrueError erm = some v
  risk : (v : ℝ) = ∫ t in (0 : ℝ)..1, errorAt erm t

/-- **Nothing is raised** on a sample. -/
theorem exists_found (hm : 1 ≤ m) (h : Sampled m x y) {k : Nat} (hk : 1 ≤ k) :
    ∃ erm besterror v, Found x y k erm besterror v := by
  have hne : x ≠ [] := List.ne_nil_of_length_pos (by rw [h.length_x]; exact hm)
  have hlen : y.length = x.length := h.length_y.trans h.length_x.symm
  obtain ⟨t, F, -, hfind, hF, -⟩ := exists_find_best_interval hne h.points hlen h.binary hk
  have hnonempty := (find_best_interval_length hfind).2 hk
  obtain ⟨v, hv, hrisk⟩ := calcTrueError_risk hnonempty (representatives_disjointed h.points hF)
  exact ⟨_, _, v, hfind, hv, hrisk⟩

/-- What a round of `testD` computes. -/
structure Round (x : List ℚ) (y : List Int) (besterror : Nat → Int) (k : Nat)
    (r : Hypothesis × ℚ × ℚ) : Prop where
  found : Found x y k r.1 (besterror k) r.2.2
  erm_error : r.2.1 = besterror k / 50

theorem exists_testRound {besterror : Nat → Int} (hm : 1 ≤ m) (h : Sampled m x y)
    (he : BestErrors y besterror) {k : Nat} (hk : 1 ≤ k) :
    ∃ r, testRound x y k = some r ∧ Round x y besterror k r := by
  have hlen : y.length = x.length := h.length_y.trans h.length_x.symm
  obtain ⟨erm, e, v, hfound⟩ := exists_found hm h hk
  obtain ⟨best, hbest⟩ := he.found k hk
  have hvalue : e = besterror k := by
    have hcall := hfound.found
    unfold find_best_interval at hcall
    rw [if_pos ⟨h.points.sorted, hlen.symm⟩, hbest] at hcall
    exact (Prod.mk.inj (Option.some.inj hcall)).2.symm
  subst hvalue
  refine ⟨(erm, besterror k / 50, v), ?_, ⟨hfound, rfl⟩⟩
  unfold testRound
  rw [hfound.found, Option.bind_eq_bind, Option.bind_some]
  dsimp only
  rw [hfound.true_error]
  rfl

/-- The first number of intervals up to 20 with the least reported error: as many as there are
blocks of ones, or all 20 if there are more. -/
theorem BestErrors.index_eq {besterror : Nat → Int} (he : BestErrors y besterror) {i : Nat}
    (hi : i < 20) (hleast : ∀ j < 20, besterror (i + 1) ≤ besterror (j + 1))
    (hfirst : ∀ j < i, besterror (i + 1) < besterror (j + 1)) :
    i = min 20 (max 1 (onesBlocks y)) - 1 := by
  rcases Nat.lt_trichotomy i (min 20 (max 1 (onesBlocks y)) - 1) with hlt | heq | hgt
  · -- one more would be better
    have hne : besterror (i + 1) ≠ 0 := by
      rw [Ne, he.zero_iff (i + 1) (Nat.succ_pos i)]
      omega
    have hfalls := he.falls (i + 1) (Nat.succ_pos i) hne
    exact absurd (hleast (i + 1) (by omega)) (not_le.mpr hfalls)
  · exact heq
  · -- the error is 0 before
    have hzero : besterror (min 20 (max 1 (onesBlocks y)) - 1 + 1) = 0 := by
      rw [he.zero_iff _ (Nat.succ_pos _)]
      omega
    have hlower := hfirst _ hgt
    rw [hzero] at hlower
    exact absurd (he.nonneg (i + 1) (Nat.succ_pos i)) (not_le.mpr hlower)

/-- **The 20 hypotheses**, and the one that is printed. -/
theorem exists_testD (hm : 1 ≤ m) (h : Sampled m x y) : ∃ hyps : List Hypothesis,
    hyps.length = 20 ∧
      testD x y = some (hyps, hyps.getD (min 20 (max 1 (onesBlocks y)) - 1) []) ∧
      ∀ i < 20, ∃ besterror v, Found x y (i + 1) (hyps.getD i []) besterror v := by
  obtain ⟨besterror, he⟩ := exists_bestErrors h.binary (by rw [h.length_y]; exact hm)
  obtain ⟨rounds, hrounds, hall⟩ := Loops.exists_mapM (l := List.range' 1 20)
    (f := testRound x y) fun k hk => exists_testRound hm h he (List.mem_range'_1.mp hk).1
  obtain ⟨hlen, hget⟩ := List.forall₂_iff_get.mp hall
  rw [List.length_range'] at hlen
  have hround : ∀ i (hi : i < rounds.length), Round x y besterror (i + 1) rounds[i] := by
    intro i hi
    have hr := hget i (by rw [List.length_range']; omega) hi
    simp only [List.get_eq_getElem, List.getElem_range', one_mul] at hr
    rwa [Nat.add_comm] at hr
  have herror : ∀ i < 20, (rounds.map fun r => r.2.1).getD i 0 = (besterror (i + 1) : ℚ) / 50 := by
    intro i hi
    have hi' : i < (rounds.map fun r => r.2.1).length := by
      rw [List.length_map]
      omega
    rw [List.getD_eq_getElem _ 0 hi', List.getElem_map]
    exact (hround i (by omega)).erm_error
  have hhyp : ∀ i (hi : i < rounds.length), (rounds.map Prod.fst).getD i [] = rounds[i].1 := by
    intro i hi
    rw [List.getD_eq_getElem _ [] (by rwa [List.length_map]), List.getElem_map]
  obtain ⟨i, hindex, hi, hleast, hfirst⟩ := exists_indexMin (rounds.map fun r => r.2.1)
    (List.ne_nil_of_length_pos (by rw [List.length_map]; omega))
  rw [List.length_map] at hi hleast
  have hcancel : ∀ {a b : Int}, (a : ℚ) / 50 ≤ b / 50 ↔ a ≤ b := by
    intro a b
    rw [div_le_div_iff_of_pos_right (by norm_num), Int.cast_le]
  have hkstar := he.index_eq (i := i) (by omega)
    (fun j hj => by
      have hle := hleast j (by omega)
      rwa [herror i (by omega), herror j hj, hcancel] at hle)
    (fun j hj => by
      have hlt := hfirst j hj
      rwa [herror i (by omega), herror j (by omega), ← not_le, hcancel, not_le] at hlt)
  refine ⟨rounds.map Prod.fst, by rw [List.length_map]; omega, ?_, fun j hj => ?_⟩
  · unfold testD
    rw [hrounds, Option.bind_eq_bind, Option.bind_some]
    dsimp only
    rw [hindex, Option.bind_eq_bind, Option.bind_some, ← hkstar,
      List.getElem?_eq_getElem (by rwa [List.length_map]),
      List.getD_eq_getElem _ [] (by rwa [List.length_map])]
    rfl
  · have hr := hround j (by omega)
    rw [hhyp j (by omega)]
    exact ⟨besterror (j + 1), rounds[j].2.2, hr.found⟩

/-! ## `crossValid` -/

/-- **The hypothesis that is kept.** -/
theorem exists_crossValid {hyps : List Hypothesis} (hlen : hyps.length = 20)
    (hx : x.length = 50) : ∃ j < 20, crossValid hyps x y = some (hyps.getD j []) ∧
      (∀ i < 20, mistakes x y (hyps.getD j []) ≤ mistakes x y (hyps.getD i [])) ∧
      ∀ i < j, mistakes x y (hyps.getD j []) < mistakes x y (hyps.getD i []) := by
  -- the entries in front of the loop counter are filled
  obtain ⟨emp_err, hfold, hshape, herror⟩ := Loops.foldlM_range' 0 hyps.length
    (f := crossRound x y hyps) (s := List.replicate 20 0)
    (I := fun i emp_err => emp_err.length = 20 ∧
      ∀ j < i, emp_err.getD j 0 = (mistakes x y (hyps.getD j []) : ℚ) / 50)
    ⟨List.length_replicate, nofun⟩ fun i emp_err _ hi ⟨hsize, hfilled⟩ => by
      have hlt : i < hyps.length := by omega
      refine ⟨emp_err.set i ((mistakes x y (hyps.getD i []) : ℚ) / 50), ?_, ?_, ?_⟩
      · unfold crossRound
        rw [List.getElem?_eq_getElem hlt, Option.bind_eq_bind, Option.bind_some]
        dsimp only
        rw [if_pos (by omega), List.getD_eq_getElem _ [] hlt, mistakes, hx]
        rfl
      · rw [List.length_set, hsize]
      · intro j hj
        by_cases hij : i = j
        · subst hij
          rw [List.getD_eq_getElem _ 0 (by rw [List.length_set]; omega), List.getElem_set_self]
        · have hold := hfilled j (by omega)
          rw [List.getD_eq_getElem?_getD] at hold ⊢
          rwa [List.getElem?_set_ne hij]
  rw [Nat.zero_add, hlen] at herror
  obtain ⟨i, hindex, hi, hleast, hfirst⟩ := exists_indexMin emp_err
    (List.ne_nil_of_length_pos (by omega))
  rw [hshape] at hi hleast
  have hcancel : ∀ {a b : Nat}, (a : ℚ) / 50 ≤ b / 50 ↔ a ≤ b := by
    intro a b
    rw [div_le_div_iff_of_pos_right (by norm_num), Nat.cast_le]
  refine ⟨i, hi, ?_, fun j hj => ?_, fun j hj => ?_⟩
  · unfold crossValid
    rw [List.range_eq_range', hfold, Option.bind_eq_bind, Option.bind_some, hindex,
      Option.bind_eq_bind, Option.bind_some, List.getElem?_eq_getElem (by omega),
      List.getD_eq_getElem _ [] (by omega)]
  · have hle := hleast j hj
    rwa [herror i hi, herror j hj, hcancel] at hle
  · have hlt := hfirst j hj
    rwa [herror i hi, herror j (by omega), ← not_le, hcancel, not_le] at hlt

end

/-! ## `testsC` -/

section

variable {sample : Nat → Nat → List ℚ × List Int}

/-- What is found for two intervals in each round. -/
abbrev Rounds := Nat → Nat → Hypothesis × Int × ℚ

def Rounds.Found (sample : Nat → Nat → List ℚ × List Int) (r : Rounds) : Prop :=
  ∀ m, 1 ≤ m → ∀ t, Hw1.Found (sample m t).1 (sample m t).2 2 (r m t).1 (r m t).2.1 (r m t).2.2

theorem exists_rounds (h : ∀ m t, Sampled m (sample m t).1 (sample m t).2) :
    ∃ r : Rounds, r.Found sample := by
  have hall : ∀ m t, ∃ r : Hypothesis × Int × ℚ, 1 ≤ m →
      Found (sample m t).1 (sample m t).2 2 r.1 r.2.1 r.2.2 := by
    intro m t
    by_cases hm : 1 ≤ m
    · obtain ⟨erm, e, v, hfound⟩ := exists_found hm (h m t) (k := 2) (by decide)
      exact ⟨(erm, e, v), fun _ => hfound⟩
    · exact ⟨([], 0, 0), fun hpos => absurd hpos hm⟩
  choose r hr using hall
  exact ⟨r, fun m hm t => hr m t hm⟩

theorem one_le_of_mem_sizes {m : Nat} (hm : m ∈ sizes) : 1 ≤ m := by
  obtain ⟨i, -, rfl⟩ := List.mem_range'.mp hm
  omega

/-- The averages of the errors on the samples, and of the risks. -/
theorem testsC_eq {r : Rounds} (hr : r.Found sample) : testsC sample =
    some (sizes.map fun m => (m, average ((List.range 100).map fun t => (r m t).2.1 / m)),
      sizes.map fun m => (m, average ((List.range 100).map fun t => (r m t).2.2))) := by
  have hround : ∀ m ∈ sizes, ∀ t ∈ List.range 100,
      testsRound m (sample m t).1 (sample m t).2 = some (((r m t).2.1 : ℚ) / m, (r m t).2.2) := by
    intro m hm t _
    have hfound := hr m (one_le_of_mem_sizes hm) t
    unfold testsRound
    rw [hfound.found, Option.bind_eq_bind, Option.bind_some]
    dsimp only
    rw [hfound.true_error]
    rfl
  unfold testsC
  rw [Loops.mapM_eq_some_map (g := fun m =>
    ((m, average ((List.range 100).map fun t => (r m t).2.1 / m)),
      (m, average ((List.range 100).map fun t => (r m t).2.2))))]
  · rw [Option.bind_eq_bind, Option.bind_some, List.map_map, List.map_map]
    rfl
  · intro m hm
    rw [Loops.mapM_eq_some_map (hround m hm), Option.bind_eq_bind, Option.bind_some,
      List.map_map, List.map_map]
    rfl

end

/-! ## The result -/

/-- **The script selects.** Whatever is drawn, nothing is raised: `find_best_interval` accepts
every sample, and `calcTrueError` gives the exact risk of what it finds. `plot_points_A` shades the
intervals found for two; `testD` prints the hypothesis for as many intervals as the labels have
blocks of ones, or for 20 if there are more; `crossValid` keeps the first hypothesis with the
fewest mistakes on its sample; and the curves of `testsC` are the averages, over 100 samples of
each size, of the reported errors and of the risks. -/
theorem hw1_selects (plot : Draws 100) (train validate : Draws 50)
    (tests : (m : Nat) → Nat → Draws m) :
    let trained := sample_points train
    let checked := sample_points validate
    ∃ results, hw1 plot train validate tests = some results ∧
      (∃ besterror v, Found (sample_points plot).1 (sample_points plot).2 2 results.best_res
        besterror v) ∧
      results.hyps.length = 20 ∧
      (∀ i < 20, ∃ besterror v,
        Found trained.1 trained.2 (i + 1) (results.hyps.getD i []) besterror v) ∧
      results.kStar = results.hyps.getD (min 20 (max 1 (onesBlocks trained.2)) - 1) [] ∧
      (∃ j < 20, results.hyp = results.hyps.getD j [] ∧
        (∀ i < 20, mistakes checked.1 checked.2 results.hyp ≤
          mistakes checked.1 checked.2 (results.hyps.getD i [])) ∧
        ∀ i < j, mistakes checked.1 checked.2 results.hyp <
          mistakes checked.1 checked.2 (results.hyps.getD i [])) ∧
      ∃ r : Rounds, r.Found (fun m t => sample_points (tests m t)) ∧
        results.emp_res =
          sizes.map (fun m => (m, average ((List.range 100).map fun t => (r m t).2.1 / m))) ∧
        results.true_res =
          sizes.map (fun m => (m, average ((List.range 100).map fun t => (r m t).2.2))) := by
  obtain ⟨best_res, e, v, hplot⟩ :=
    exists_found (by decide) (sample_points_sampled plot) (k := 2) (by decide)
  obtain ⟨hyps, hlen, htest, hrounds⟩ := exists_testD (by decide) (sample_points_sampled train)
  obtain ⟨j, hj, hcross, hleast, hfirst⟩ :=
    exists_crossValid (y := (sample_points validate).2) hlen
      (sample_points_sampled validate).length_x
  obtain ⟨r, hr⟩ := exists_rounds fun m t => sample_points_sampled (tests m t)
  intro trained checked
  refine ⟨⟨best_res, hyps, hyps.getD (min 20 (max 1 (onesBlocks (sample_points train).2)) - 1) [],
    sizes.map fun m => (m, average ((List.range 100).map fun t => (r m t).2.1 / m)),
    sizes.map fun m => (m, average ((List.range 100).map fun t => (r m t).2.2)),
    hyps.getD j []⟩, ?_, ⟨e, v, hplot⟩, hlen, hrounds, rfl,
    ⟨j, hj, rfl, hleast, hfirst⟩, r, hr, rfl, rfl⟩
  unfold hw1
  dsimp only
  have hshaded : plot_points_A (sample_points plot).1 (sample_points plot).2 = some best_res := by
    rw [plot_points_A, hplot.found]
    rfl
  rw [hshaded, Option.bind_eq_bind, Option.bind_some, htest, Option.bind_eq_bind,
    Option.bind_some]
  dsimp only
  rw [hcross, Option.bind_eq_bind, Option.bind_some, testsC_eq hr]
  rfl

/-- Points at equal distances, each one with its more likely label. -/
def evenDraws (m : Nat) : Draws m where
  pairs := (List.range m).map fun i : Nat =>
    ((i : ℚ) / m, if 4 * i ≤ m ∨ (m ≤ 2 * i ∧ 4 * i ≤ 3 * m) then 1 else 0)
  length_pairs := by rw [List.length_map, List.length_range]
  within p hp := by
    obtain ⟨i, hi, rfl⟩ := List.mem_map.mp hp
    have hlt : (i : ℚ) < m := Nat.cast_lt.mpr (List.mem_range.mp hi)
    have hpos : (0 : ℚ) < m := (Nat.cast_nonneg i).trans_lt hlt
    exact ⟨by positivity, (div_lt_one hpos).mpr hlt⟩
  labels p hp := by
    obtain ⟨i, -, rfl⟩ := List.mem_map.mp hp
    dsimp only
    split
    · exact Or.inr rfl
    · exact Or.inl rfl

theorem evenDraws_labels : (sample_points (evenDraws 50)).2 =
    List.replicate 13 1 ++ List.replicate 12 0 ++ List.replicate 13 1 ++ List.replicate 12 0 := by
  have hsorted : (evenDraws 50).pairs.Pairwise fun p q => p.1 ≤ q.1 := by
    refine List.pairwise_map.mpr (List.pairwise_lt_range.imp fun {i j} hij => ?_)
    have hle : (i : ℚ) ≤ j := Nat.cast_le.mpr hij.le
    exact div_le_div_of_nonneg_right hle (by norm_num)
  unfold sample_points
  rw [hsorted.insertionSort_eq]
  show (evenDraws 50).pairs.map Prod.snd = _
  unfold evenDraws
  rw [List.map_map]
  decide

/-- The labels have two blocks of ones, so `testD` prints the intervals found for two. -/
theorem hw1_selects_even : ∃ results besterror v,
    hw1 (evenDraws 100) (evenDraws 50) (evenDraws 50) (fun m _ => evenDraws m) = some results ∧
      Found (sample_points (evenDraws 50)).1 (sample_points (evenDraws 50)).2 2 results.kStar
        besterror v := by
  obtain ⟨results, hscript, -, -, hfound, hprinted, -⟩ :=
    hw1_selects (evenDraws 100) (evenDraws 50) (evenDraws 50) fun m _ => evenDraws m
  have hblocks : min 20 (max 1 (onesBlocks (sample_points (evenDraws 50)).2)) - 1 = 1 := by
    rw [evenDraws_labels]
    decide
  rw [hblocks] at hprinted
  obtain ⟨besterror, v, hround⟩ := hfound 1 (by decide)
  rw [← hprinted] at hround
  exact ⟨results, besterror, v, hscript, hround⟩

end OsHw.Hw1
