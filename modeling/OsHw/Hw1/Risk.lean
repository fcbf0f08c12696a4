import OsHw.Hw1.Hypotheses

/-!
# OsHw — `calcTrueError` is the risk

`randY` draws the label of a point `x` with probability `0.8` or `0.1` for `1`. The risk of a
hypothesis is the probability of a wrong label, integrated over the points of `[0, 1]`.

* **`integral_pOne`** — the error of one gap, and of one interval, as an integral.
* **`calcTrueError_risk`** — the sum over the pieces is the integral of the whole.
* **`calcTrueError_exact`** — with what follows from the integral: the bounds, and that what the
  intervals cover, up to one point, decides.
-/

namespace OsHw.Hw1

open Pieces MeasureTheory Set

/-! ## The distribution -/

/-- The probability of label `1` at a point, as in `randY`. -/
noncomputable def pOne (x : ℝ) : ℝ :=
  if (0 ≤ x ∧ x ≤ 0.25) ∨ (0.5 ≤ x ∧ x ≤ 0.75) then 0.8 else 0.1

open Classical in
/-- The probability that the hypothesis that is 1 on the intervals and 0 elsewhere is wrong. -/
noncomputable def errorAt (l : List (ℚ × ℚ)) (x : ℝ) : ℝ :=
  if ∃ p ∈ l, (p.1 : ℝ) ≤ x ∧ x ≤ (p.2 : ℝ) then 1 - pOne x else pOne x

/-- Sorted intervals within `[0, 1]` that do not overlap. They may touch and be empty. -/
structure Disjointed (l : List (ℚ × ℚ)) : Prop where
  within : ∀ p ∈ l, 0 ≤ p.1 ∧ p.1 ≤ p.2 ∧ p.2 ≤ 1
  apart : l.Pairwise fun p q => p.2 ≤ q.1

/-- The two quarters with the higher probability. -/
noncomputable def quarters (x : ℝ) : ℝ :=
  (Icc 0 0.25).indicator (fun _ => 1) x + (Icc 0.5 0.75).indicator (fun _ => 1) x

theorem quarters_eq (x : ℝ) : quarters x = 0 ∨ quarters x = 1 := by
  unfold quarters indicator
  split <;> split
  · next h1 h2 =>
    have := h1.2.trans_lt (lt_of_lt_of_le (by norm_num) h2.1)
    exact absurd this (lt_irrefl x)
  · exact .inr (add_zero 1)
  · exact .inr (zero_add 1)
  · exact .inl (add_zero 0)

theorem pOne_eq (x : ℝ) : pOne x = 0.1 + 0.7 * quarters x := by
  unfold pOne quarters indicator
  by_cases h1 : x ∈ Icc (0 : ℝ) 0.25
  · have h2 : x ∉ Icc (0.5 : ℝ) 0.75 := by
      intro h2
      have := h1.2.trans_lt (lt_of_lt_of_le (by norm_num) h2.1)
      exact absurd this (lt_irrefl x)
    rw [if_pos (.inl h1), if_pos h1, if_neg h2]
    norm_num
  · by_cases h2 : x ∈ Icc (0.5 : ℝ) 0.75
    · rw [if_pos (.inr h2), if_neg h1, if_pos h2]
      norm_num
    · have hout : ¬ ((0 ≤ x ∧ x ≤ 0.25) ∨ (0.5 ≤ x ∧ x ≤ 0.75)) := not_or.mpr ⟨h1, h2⟩
      rw [if_neg hout, if_neg h1, if_neg h2]
      norm_num

theorem intervalIntegrable_quarters (a b : ℝ) : IntervalIntegrable quarters volume a b :=
  (intervalIntegrable_indicator_Icc a b 0 0.25).add (intervalIntegrable_indicator_Icc a b 0.5 0.75)

theorem integral_quarters {a b : ℝ} (hab : a ≤ b) :
    ∫ x in a..b, quarters x = overlap a b 0 0.25 + overlap a b 0.5 0.75 := by
  unfold quarters
  rw [intervalIntegral.integral_add (intervalIntegrable_indicator_Icc a b 0 0.25)
    (intervalIntegrable_indicator_Icc a b 0.5 0.75), integral_indicator_Icc hab,
    integral_indicator_Icc hab]

/-- A constant and a part of the two quarters. -/
theorem intervalIntegrable_affine (c d a b : ℝ) :
    IntervalIntegrable (fun x => c + d * quarters x) volume a b :=
  intervalIntegrable_const.add ((intervalIntegrable_quarters a b).const_mul d)

theorem integral_affine (c d : ℝ) {a b : ℝ} (hab : a ≤ b) :
    ∫ x in a..b, (c + d * quarters x) =
      c * (b - a) + d * (overlap a b 0 0.25 + overlap a b 0.5 0.75) := by
  rw [intervalIntegral.integral_add intervalIntegrable_const
    ((intervalIntegrable_quarters a b).const_mul d), intervalIntegral.integral_const,
    intervalIntegral.integral_const_mul, integral_quarters hab, smul_eq_mul, mul_comm c]

theorem pOne_funext : pOne = fun x => 0.1 + 0.7 * quarters x := funext pOne_eq

theorem one_sub_pOne_funext : (fun x => 1 - pOne x) = fun x => 0.9 + -0.7 * quarters x := by
  funext x
  rw [pOne_eq]
  ring

/-! ## Piece by piece -/

variable {a b : ℚ} {l : List (ℚ × ℚ)}

theorem cast_overlap (a b c d : ℚ) :
    ((overlap a b c d : ℚ) : ℝ) = overlap (a : ℝ) b c d := by
  simp only [overlap, Rat.cast_max, Rat.cast_sub, Rat.cast_min, Rat.cast_zero]

/-- **A gap.** -/
theorem integral_pOne (ha : 0 ≤ a) (hab : a ≤ b) (hb : b ≤ 1) :
    ((calcError (a, b) 0 : ℚ) : ℝ) = ∫ x in (a : ℝ)..b, pOne x := by
  have hab' : (a : ℝ) ≤ b := Rat.cast_le.mpr hab
  rw [pOne_funext, integral_affine _ _ hab', calcError_zero ha hab hb]
  push_cast [cast_overlap]
  norm_num

/-- **An interval.** -/
theorem integral_one_sub_pOne (ha : 0 ≤ a) (hab : a ≤ b) (hb : b ≤ 1) :
    ((calcError (a, b) 1 : ℚ) : ℝ) = ∫ x in (a : ℝ)..b, (1 - pOne x) := by
  have hab' : (a : ℝ) ≤ b := Rat.cast_le.mpr hab
  rw [one_sub_pOne_funext, integral_affine _ _ hab', calcError_one ha hab hb,
    calcError_zero ha hab hb]
  push_cast [cast_overlap]
  ring

/-- The end points as real numbers. -/
def toReal (p : ℚ × ℚ) : ℝ × ℝ := (p.1, p.2)

theorem covers_toReal {x : ℝ} :
    Covers (l.map toReal) x ↔ ∃ p ∈ l, (p.1 : ℝ) ≤ x ∧ x ≤ (p.2 : ℝ) := by
  simp [Covers, toReal]

theorem errorAt_eq_glue : errorAt l = glue (l.map toReal) pOne fun x => 1 - pOne x := by
  funext x
  simp only [errorAt, glue, covers_toReal]

theorem Disjointed.ordered (h : Disjointed l) : Ordered 1 0 l := by
  suffices haux : ∀ lo : ℚ, lo ≤ 1 → (∀ p ∈ l, lo ≤ p.1) → Ordered 1 lo l by
    exact haux 0 zero_le_one fun p hp => (h.within p hp).1
  obtain ⟨hwithin, hapart⟩ := h
  induction l with
  | nil => exact fun lo hlo _ => hlo
  | cons p l ih =>
    intro lo _ hle
    obtain ⟨hfirst, hrest⟩ := List.pairwise_cons.mp hapart
    obtain ⟨-, hp, hone⟩ := hwithin p (by simp)
    exact ⟨hle p (by simp), hp, ih (fun q hq => hwithin q (by simp [hq])) hrest p.2 hone hfirst⟩

theorem ordered_toReal {hi lo : ℚ} (h : Ordered hi lo l) :
    Ordered (hi : ℝ) lo (l.map toReal) := by
  induction l generalizing lo with
  | nil => exact Rat.cast_le.mpr h
  | cons p l ih => exact ⟨Rat.cast_le.mpr h.1, Rat.cast_le.mpr h.2.1, ih h.2.2⟩

theorem gaps_toReal (hi lo : ℚ) :
    gaps (hi : ℝ) lo (l.map toReal) = (gaps hi lo l).map toReal := by
  induction l generalizing lo with
  | nil => rfl
  | cons p l ih =>
    show ((lo : ℝ), (p.1 : ℝ)) :: gaps (hi : ℝ) p.2 (l.map toReal) = _
    rw [ih]
    rfl

/-- A sum over pieces as a sum of integrals. -/
theorem cast_sum_calcError (typ : Nat) (f : ℝ → ℝ) (pieces : List (ℚ × ℚ))
    (h : ∀ p ∈ pieces, ((calcError p typ : ℚ) : ℝ) = ∫ x in (p.1 : ℝ)..p.2, f x) :
    (((pieces.map fun p => calcError p typ).sum : ℚ) : ℝ) =
      ((pieces.map toReal).map fun p => ∫ x in p.1..p.2, f x).sum := by
  induction pieces with
  | nil => exact Rat.cast_zero
  | cons p pieces ih =>
    simp only [List.map_cons, List.sum_cons, Rat.cast_add]
    rw [h p (by simp), ih fun q hq => h q (by simp [hq])]
    rfl

theorem integral_errorAt (h : Disjointed l) : IntervalIntegrable (errorAt l) volume 0 1 ∧
    ∫ x in (0 : ℝ)..1, errorAt l x = ((((gaps 1 0 l).map fun p => calcError p 0).sum +
      (l.map fun p => calcError p 1).sum : ℚ) : ℝ) := by
  have hgaps := h.ordered.gaps_within
  have hreal := ordered_toReal h.ordered
  have hzero := cast_sum_calcError 0 pOne (gaps 1 0 l) fun p hp =>
    integral_pOne (hgaps p hp).1 (hgaps p hp).2.1 (hgaps p hp).2.2
  have hone := cast_sum_calcError 1 (fun x => 1 - pOne x) l fun p hp =>
    integral_one_sub_pOne (h.within p hp).1 (h.within p hp).2.1 (h.within p hp).2.2
  have hgapsReal := gaps_toReal (l := l) 1 0
  rw [Rat.cast_one, Rat.cast_zero] at hreal hgapsReal
  have hglue := integral_glue hreal (f := pOne) (g := fun x => 1 - pOne x)
    (fun a b => by rw [pOne_funext]; exact intervalIntegrable_affine _ _ a b)
    (fun a b => by rw [one_sub_pOne_funext]; exact intervalIntegrable_affine _ _ a b)
  rw [errorAt_eq_glue]
  refine ⟨hglue.1, ?_⟩
  rw [hglue.2, hgapsReal, ← hzero, ← hone, Rat.cast_add]

/-- **The true error is the risk.** -/
theorem calcTrueError_risk (hne : l ≠ []) (h : Disjointed l) : ∃ v : ℚ,
    calcTrueError l = some v ∧ (v : ℝ) = ∫ x in (0 : ℝ)..1, errorAt l x :=
  ⟨_, calcTrueError_eq hne, (integral_errorAt h).2.symm⟩

/-! ## What follows -/

/-- At every point the better and the worse label. -/
theorem errorAt_bounds (l : List (ℚ × ℚ)) (x : ℝ) :
    0.1 + 0.1 * quarters x ≤ errorAt l x ∧ errorAt l x ≤ 0.9 + -0.1 * quarters x := by
  unfold errorAt
  rw [pOne_eq]
  rcases quarters_eq x with hq | hq <;> rw [hq] <;> split <;> norm_num

theorem risk_bounds (h : Disjointed l) :
    0.15 ≤ ∫ x in (0 : ℝ)..1, errorAt l x ∧ ∫ x in (0 : ℝ)..1, errorAt l x ≤ 0.85 := by
  have hint := (integral_errorAt h).1
  have hlow := intervalIntegral.integral_mono zero_le_one (intervalIntegrable_affine 0.1 0.1 0 1)
    hint fun x => (errorAt_bounds l x).1
  have hhigh := intervalIntegral.integral_mono zero_le_one hint
    (intervalIntegrable_affine 0.9 (-0.1) 0 1) fun x => (errorAt_bounds l x).2
  have hhalf : overlap (0 : ℝ) 1 0 0.25 + overlap (0 : ℝ) 1 0.5 0.75 = 0.5 := by
    norm_num [overlap]
  rw [integral_affine _ _ zero_le_one, hhalf] at hlow hhigh
  constructor
  · linarith
  · linarith

/-- **What is covered decides**, one point apart. -/
theorem calcTrueError_congr {l' : List (ℚ × ℚ)} (hne : l ≠ []) (hne' : l' ≠ [])
    (h : Disjointed l) (h' : Disjointed l') (c : ℝ)
    (hcov : ∀ x ≠ c, Covers (l.map toReal) x ↔ Covers (l'.map toReal) x) :
    calcTrueError l = calcTrueError l' := by
  obtain ⟨v, hv, hrisk⟩ := calcTrueError_risk hne h
  obtain ⟨v', hv', hrisk'⟩ := calcTrueError_risk hne' h'
  have hsame : ∫ x in (0 : ℝ)..1, errorAt l x = ∫ x in (0 : ℝ)..1, errorAt l' x := by
    refine intervalIntegral.integral_congr_ae ?_
    filter_upwards [Measure.ae_ne volume c] with x hx _
    rw [errorAt_eq_glue, errorAt_eq_glue]
    exact glue_congr (hcov x hx)
  have heq : v = v' := Rat.cast_injective (hrisk.trans (hsame.trans hrisk'.symm))
  rw [hv, hv', heq]

variable {pre post : List (ℚ × ℚ)} {c : ℚ}

theorem covers_middle {p : ℚ × ℚ} {x : ℝ} :
    Covers ((pre ++ p :: post).map toReal) x ↔
      ((p.1 : ℝ) ≤ x ∧ x ≤ (p.2 : ℝ)) ∨ Covers ((pre ++ post).map toReal) x := by
  simp only [covers_toReal, List.mem_append, List.mem_cons]
  constructor
  · rintro ⟨q, hq | rfl | hq, hqx⟩
    · exact .inr ⟨q, .inl hq, hqx⟩
    · exact .inl hqx
    · exact .inr ⟨q, .inr hq, hqx⟩
  · rintro (hpx | ⟨q, hq | hq, hqx⟩)
    · exact ⟨p, .inr (.inl rfl), hpx⟩
    · exact ⟨q, .inl hq, hqx⟩
    · exact ⟨q, .inr (.inr hq), hqx⟩

/-- The two parts of an interval are in its place. -/
theorem Disjointed.split (h : Disjointed (pre ++ (a, b) :: post)) (hac : a ≤ c) (hcb : c ≤ b) :
    Disjointed (pre ++ (a, c) :: (c, b) :: post) := by
  obtain ⟨hwithin, hapart⟩ := h
  obtain ⟨h0, -, h1⟩ := hwithin (a, b) (by simp)
  rw [List.pairwise_append, List.pairwise_cons] at hapart
  obtain ⟨hpre, ⟨hbehind, hpost⟩, hacross⟩ := hapart
  constructor
  · intro p hp
    simp only [List.mem_append, List.mem_cons] at hp
    rcases hp with hp | rfl | rfl | hp
    · exact hwithin p (by simp [hp])
    · exact ⟨h0, hac, hcb.trans h1⟩
    · exact ⟨h0.trans hac, hcb, h1⟩
    · exact hwithin p (by simp [hp])
  · rw [List.pairwise_append, List.pairwise_cons, List.pairwise_cons]
    refine ⟨hpre, ⟨?_, hbehind, hpost⟩, ?_⟩
    · intro q hq
      rcases List.mem_cons.mp hq with rfl | hq
      · exact le_rfl
      · exact hcb.trans (hbehind q hq)
    · intro q hq r hr
      have hqa : q.2 ≤ a := hacross q hq (a, b) (by simp)
      rcases List.mem_cons.mp hr with rfl | hr
      · exact hqa
      · rcases List.mem_cons.mp hr with rfl | hr
        · exact hqa.trans hac
        · exact hacross q hq r (by simp [hr])

theorem calcTrueError_split (h : Disjointed (pre ++ (a, b) :: post)) (hac : a ≤ c) (hcb : c ≤ b) :
    calcTrueError (pre ++ (a, c) :: (c, b) :: post) = calcTrueError (pre ++ (a, b) :: post) := by
  refine calcTrueError_congr (by simp) (by simp) (h.split hac hcb) h c fun x _ => ?_
  have hac' : (a : ℝ) ≤ c := Rat.cast_le.mpr hac
  have hcb' : (c : ℝ) ≤ b := Rat.cast_le.mpr hcb
  rw [covers_middle, covers_middle, covers_middle, ← or_assoc]
  refine or_congr_left ⟨?_, fun hx => ?_⟩
  · rintro (hx | hx)
    · exact ⟨hx.1, hx.2.trans hcb'⟩
    · exact ⟨hac'.trans hx.1, hx.2⟩
  · rcases le_total x c with hxc | hcx
    · exact .inl ⟨hx.1, hxc⟩
    · exact .inr ⟨hcx, hx.2⟩

theorem Disjointed.remove {p : ℚ × ℚ} (h : Disjointed (pre ++ p :: post)) :
    Disjointed (pre ++ post) := by
  have hsub : List.Sublist (pre ++ post) (pre ++ p :: post) :=
    (List.Sublist.refl pre).append (List.sublist_cons_self p post)
  exact ⟨fun q hq => h.within q (hsub.mem hq), h.apart.sublist hsub⟩

/-- An interval of one point covers one point. -/
theorem calcTrueError_insert (hne : pre ++ post ≠ []) (h : Disjointed (pre ++ (c, c) :: post)) :
    calcTrueError (pre ++ (c, c) :: post) = calcTrueError (pre ++ post) := by
  refine calcTrueError_congr (by simp) hne h h.remove c fun x hx => ?_
  rw [covers_middle]
  exact or_iff_right fun hin => hx (le_antisymm hin.2 hin.1)

/-- **`calcTrueError` is the exact risk.** On sorted intervals within `[0, 1]` that do not overlap
it is the integral of the probability of error, it lies between `0.15` and `0.85`, and neither
splitting an interval at an inner point nor inserting an empty one in order changes it. -/
theorem calcTrueError_exact (hne : l ≠ []) (h : Disjointed l) :
    (∃ v : ℚ, calcTrueError l = some v ∧ (v : ℝ) = ∫ x in (0 : ℝ)..1, errorAt l x ∧
      0.15 ≤ v ∧ v ≤ 0.85) ∧
    (∀ pre a b post c, l = pre ++ (a, b) :: post → a < c → c < b →
      calcTrueError (pre ++ (a, c) :: (c, b) :: post) = calcTrueError l) ∧
    ∀ pre c post, l = pre ++ post → Disjointed (pre ++ (c, c) :: post) →
      calcTrueError (pre ++ (c, c) :: post) = calcTrueError l := by
  refine ⟨?_, ?_, ?_⟩
  · obtain ⟨v, hv, hrisk⟩ := calcTrueError_risk hne h
    obtain ⟨hlow, hhigh⟩ := risk_bounds h
    rw [← hrisk] at hlow hhigh
    refine ⟨v, hv, hrisk, ?_, ?_⟩
    · exact (Rat.cast_le (K := ℝ)).mp (by push_cast; linarith)
    · exact (Rat.cast_le (K := ℝ)).mp (by push_cast; linarith)
  · rintro pre a b post c rfl hac hcb
    exact calcTrueError_split h hac.le hcb.le
  · rintro pre c post rfl hins
    exact calcTrueError_insert hne hins

/-- Two intervals that touch, with an empty one behind them. -/
theorem calcTrueError_touching : ∃ v : ℚ,
    calcTrueError [(0, 0.25), (0.25, 0.5), (0.6, 0.6)] = some v ∧
      (v : ℝ) = ∫ x in (0 : ℝ)..1, errorAt [(0, 0.25), (0.25, 0.5), (0.6, 0.6)] x ∧
      0.15 ≤ v ∧ v ≤ 0.85 :=
  (calcTrueError_exact (by decide) ⟨by decide +kernel, by decide +kernel⟩).1

end OsHw.Hw1
