import OsHw.Lib.Pieces

/-!
# OsHw — the hypotheses of `hw1.py`

A hypothesis is the list of intervals that `find_best_interval` returns; it labels the points of the
intervals `1` and all others `0`. The floating-point numbers are exact rationals here.

* **`checkHypOnX_of_covers`**, **`checkHypOnX_of_not_covers`** — the label of a point.
* **`calcError_zero`**, **`calcError_one`** — what one interval adds to the true error.
* **`calcTrueError_eq`** — the loops of `calcTrueError` go over the gaps and the intervals.
-/

namespace OsHw.Hw1

open Pieces

/-! ## The functions -/

/-- The length of the intersection. -/
def calcOverlap (intv_1 intv_2 : ℚ × ℚ) : ℚ := max 0 (min intv_1.2 intv_2.2 - max intv_1.1 intv_2.1)

/-- The error on an interval that is labelled `typ`. -/
def calcError (interval : ℚ × ℚ) (typ : Nat) : ℚ :=
  let overlap_08 := calcOverlap interval (0, 0.25) + calcOverlap interval (0.5, 0.75)
  let overlap_01 := calcOverlap interval (0.25, 0.5) + calcOverlap interval (0.75, 1)
  if typ = 1 then overlap_08 * 0.2 + overlap_01 * 0.9
  else overlap_08 * 0.8 + overlap_01 * 0.1

/-- No interval at all is an `IndexError`. -/
def calcTrueError (best_res : List (ℚ × ℚ)) : Option ℚ := do
  let first ← best_res.head?
  let last ← best_res.getLast?
  let zero_intv_lst :=
    (if first.1 ≠ 0 then [(0, first.1)] else []) ++
      List.zipWith (fun left right => (left.2, right.1)) best_res best_res.tail ++
      if last.2 ≠ 1 then [(last.2, 1)] else []
  let total_error := zero_intv_lst.foldl (fun total zero_intv => total + calcError zero_intv 0) 0
  return best_res.foldl (fun total one_intv => total + calcError one_intv 1) total_error

/-- The label that a hypothesis gives to a point. -/
def checkHypOnX (x : ℚ) : List (ℚ × ℚ) → Int
  | [] => 0
  | interval :: hyp => if interval.1 ≤ x ∧ interval.2 ≥ x then 1 else checkHypOnX x hyp

theorem checkHypOnX_of_covers {x : ℚ} {hyp : List (ℚ × ℚ)} (h : Covers hyp x) :
    checkHypOnX x hyp = 1 := by
  obtain ⟨p, hp, hpx⟩ := h
  induction hyp with
  | nil => cases hp
  | cons interval hyp ih =>
    rw [checkHypOnX]
    split
    · rfl
    · next hout =>
      rcases List.mem_cons.mp hp with rfl | hp
      · exact absurd hpx hout
      · exact ih hp

theorem checkHypOnX_of_not_covers {x : ℚ} {hyp : List (ℚ × ℚ)} (h : ¬ Covers hyp x) :
    checkHypOnX x hyp = 0 := by
  induction hyp with
  | nil => rfl
  | cons interval hyp ih =>
    have hout : ¬ (interval.1 ≤ x ∧ interval.2 ≥ x) := fun hin => h ⟨interval, by simp, hin⟩
    rw [checkHypOnX, if_neg hout]
    refine ih fun ⟨p, hp, hpx⟩ => h ⟨p, by simp [hp], hpx⟩

/-! ## One interval -/

variable {a b : ℚ}

/-- The four quarters make up an interval. -/
theorem quarters_add (ha : 0 ≤ a) (hab : a ≤ b) (hb : b ≤ 1) :
    calcOverlap (a, b) (0, 0.25) + calcOverlap (a, b) (0.25, 0.5) +
      calcOverlap (a, b) (0.5, 0.75) + calcOverlap (a, b) (0.75, 1) = b - a := by
  show overlap a b 0 0.25 + overlap a b 0.25 0.5 + overlap a b 0.5 0.75 + overlap a b 0.75 1 = _
  rw [overlap_add hab (by norm_num) (by norm_num), overlap_add hab (by norm_num) (by norm_num),
    overlap_add hab (by norm_num) (by norm_num)]
  exact overlap_of_subset ha hab hb

theorem calcError_zero (ha : 0 ≤ a) (hab : a ≤ b) (hb : b ≤ 1) : calcError (a, b) 0 =
    0.1 * (b - a) + 0.7 * (overlap a b 0 0.25 + overlap a b 0.5 0.75) := by
  have hsum := quarters_add ha hab hb
  rw [← hsum]
  show (calcOverlap (a, b) (0, 0.25) + calcOverlap (a, b) (0.5, 0.75)) * 0.8 +
    (calcOverlap (a, b) (0.25, 0.5) + calcOverlap (a, b) (0.75, 1)) * 0.1 =
      _ + 0.7 * (calcOverlap (a, b) (0, 0.25) + calcOverlap (a, b) (0.5, 0.75))
  ring

/-- The errors of the two labels make up the interval. -/
theorem calcError_one (ha : 0 ≤ a) (hab : a ≤ b) (hb : b ≤ 1) :
    calcError (a, b) 1 = b - a - calcError (a, b) 0 := by
  rw [← quarters_add ha hab hb]
  show (calcOverlap (a, b) (0, 0.25) + calcOverlap (a, b) (0.5, 0.75)) * 0.2 +
    (calcOverlap (a, b) (0.25, 0.5) + calcOverlap (a, b) (0.75, 1)) * 0.9 = _ -
      ((calcOverlap (a, b) (0, 0.25) + calcOverlap (a, b) (0.5, 0.75)) * 0.8 +
        (calcOverlap (a, b) (0.25, 0.5) + calcOverlap (a, b) (0.75, 1)) * 0.1)
  ring

/-- An interval of one point has no error. -/
theorem calcError_point (c : ℚ) (typ : Nat) : calcError (c, c) typ = 0 := by
  have hzero (p : ℚ × ℚ) : calcOverlap (c, c) p = 0 := by
    refine max_eq_left (sub_nonpos.mpr ?_)
    exact (min_le_left _ _).trans (le_max_left _ _)
  simp [calcError, hzero]

/-! ## The lists -/

/-- The intervals that are labelled `0`, the two edges always included. -/
theorem gaps_eq (p : ℚ × ℚ) (l : List (ℚ × ℚ)) : gaps 1 0 (p :: l) =
    (0, p.1) :: List.zipWith (fun left right => (left.2, right.1)) (p :: l) l ++
      [(((p :: l).getLast (List.cons_ne_nil p l)).2, 1)] := by
  induction l generalizing p with
  | nil => rfl
  | cons q l ih =>
    have hrest : gaps 1 0 (q :: l) = (0, q.1) :: gaps 1 q.2 l := rfl
    have htail := congrArg List.tail (hrest.symm.trans (ih q))
    simp only [List.tail_cons, List.cons_append] at htail
    rw [List.getLast_cons (List.cons_ne_nil q l)]
    show (0, p.1) :: (p.2, q.1) :: gaps 1 q.2 l = _
    rw [htail]
    rfl

theorem foldl_add (f : ℚ × ℚ → ℚ) (l : List (ℚ × ℚ)) (total : ℚ) :
    l.foldl (fun total p => total + f p) total = total + (l.map f).sum := by
  induction l generalizing total with
  | nil => simp
  | cons p l ih => rw [List.foldl_cons, ih, List.map_cons, List.sum_cons, add_assoc]

/-- **The true error** is the sum over the gaps and the intervals. An edge that is left out is a
gap of length zero. -/
theorem calcTrueError_eq {l : List (ℚ × ℚ)} (hne : l ≠ []) :
    calcTrueError l =
      some (((gaps 1 0 l).map fun p => calcError p 0).sum + (l.map fun p => calcError p 1).sum) := by
  obtain ⟨p, l, rfl⟩ := List.exists_cons_of_ne_nil hne
  have hlast : (p :: l).getLast? = some ((p :: l).getLast hne) := List.getLast?_eq_some_getLast hne
  simp only [calcTrueError, List.head?_cons, hlast, List.tail_cons, Option.bind_eq_bind,
    Option.bind_some, foldl_add, zero_add, gaps_eq, List.map_append, List.sum_append,
    List.map_cons, List.sum_cons, List.map_nil, List.sum_nil, List.cons_append, add_zero]
  generalize (p :: l).getLast hne = last
  have hfirst : ((if p.1 ≠ 0 then [((0 : ℚ), p.1)] else []).map fun p => calcError p 0).sum =
      calcError (0, p.1) 0 := by
    split
    · simp
    · next hzero =>
      rw [not_not.mp hzero, calcError_point]
      rfl
  have hright : ((if last.2 ≠ 1 then [(last.2, (1 : ℚ))] else []).map fun p => calcError p 0).sum =
      calcError (last.2, 1) 0 := by
    split
    · simp
    · next hone =>
      rw [not_not.mp hone, calcError_point]
      rfl
  rw [hfirst, hright]
  show some _ = some _
  congr 1
  ring

end OsHw.Hw1
