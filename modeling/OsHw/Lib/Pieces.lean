import Mathlib.MeasureTheory.Integral.IntervalIntegral.Basic
import Mathlib.Tactic.Linarith

/-!
# OsHw — closed intervals in a row, and integrals over them

A list of closed intervals from `lo` to `hi`, each one behind the one before it; they may touch or
have length zero.

* **`overlap_add`** — the length that an interval has in common with two neighbours is the one it
  has in common with both together.
* **`integral_indicator_Icc`** — this length as an integral.
* **`integral_glue`** — a function that is `g` on the intervals and `f` elsewhere is integrated gap
  by gap and interval by interval.
-/

namespace Pieces

open MeasureTheory Set

/-! ## Common lengths -/

/-- Clipping to two neighbours. -/
theorem clip_add {α : Type*} [AddCommMonoid α] [LinearOrder α] {c d e : α} (hcd : c ≤ d)
    (hde : d ≤ e) (x : α) :
    max c (min x d) + max d (min x e) = max c (min x e) + d := by
  rcases le_total x d with hxd | hdx
  · rw [min_eq_left hxd, min_eq_left (hxd.trans hde), max_eq_left hxd]
  · have hd : d ≤ min x e := le_min hdx hde
    rw [min_eq_right hdx, max_eq_right hcd, max_eq_right hd, max_eq_right (hcd.trans hd), add_comm]

section
variable {α : Type*} [Field α] [LinearOrder α] [IsStrictOrderedRing α] {a b c d e : α}

/-- The length of what two intervals have in common. -/
def overlap (a b c d : α) : α := max 0 (min b d - max a c)

/-- What lies in `[c, d]` of an interval, as a difference of clipped end points. -/
theorem overlap_eq_sub (hab : a ≤ b) (hcd : c ≤ d) :
    overlap a b c d = max c (min b d) - max c (min a d) := by
  unfold overlap
  rcases le_total b c with hbc | hcb
  · rw [min_eq_left (hbc.trans hcd), max_eq_right (hab.trans hbc), max_eq_left (by linarith),
      min_eq_left (hab.trans (hbc.trans hcd)), max_eq_left hbc, max_eq_left (hab.trans hbc),
      sub_self]
  · rcases le_total a d with had | hda
    · rw [min_eq_left had, max_comm a c, max_eq_right (a := c) (le_min hcb hcd), max_eq_right]
      exact sub_nonneg.mpr (max_le (le_min hcb hcd) (le_min hab had))
    · rw [min_eq_right hda, min_eq_right (hda.trans hab), max_eq_left (hcd.trans hda),
        max_eq_left (by linarith), sub_self]

/-- **The common length is additive.** -/
theorem overlap_add (hab : a ≤ b) (hcd : c ≤ d) (hde : d ≤ e) :
    overlap a b c d + overlap a b d e = overlap a b c e := by
  rw [overlap_eq_sub hab hcd, overlap_eq_sub hab hde, overlap_eq_sub hab (hcd.trans hde)]
  linarith [clip_add hcd hde a, clip_add hcd hde b]

theorem overlap_of_subset (hca : c ≤ a) (hab : a ≤ b) (hbd : b ≤ d) : overlap a b c d = b - a := by
  rw [overlap, min_eq_left hbd, max_eq_left hca, max_eq_right (sub_nonneg.mpr hab)]

end

/-- The common length is the integral of the one over the other. -/
theorem integral_indicator_Icc {a b : ℝ} (hab : a ≤ b) (c d : ℝ) :
    ∫ x in a..b, (Icc c d).indicator (fun _ => (1 : ℝ)) x = overlap a b c d := by
  rw [intervalIntegral.integral_of_le hab, ← integral_Icc_eq_integral_Ioc,
    setIntegral_indicator measurableSet_Icc, Icc_inter_Icc, setIntegral_const, smul_eq_mul,
    mul_one, Real.volume_real_Icc]
  exact max_comm _ _

theorem intervalIntegrable_indicator_Icc (a b c d : ℝ) :
    IntervalIntegrable ((Icc c d).indicator fun _ => (1 : ℝ)) volume a b := by
  refine (intervalIntegrable_const (c := (1 : ℝ))).mono_fun ?_ ?_
  · exact (measurable_const.indicator measurableSet_Icc).aestronglyMeasurable
  · refine Filter.Eventually.of_forall fun x => ?_
    by_cases hx : x ∈ Icc c d <;> simp [hx]

/-! ## Intervals in a row -/

section
variable {α : Type*} [LE α]

/-- `x` lies in one of the intervals. -/
def Covers (l : List (α × α)) (x : α) : Prop := ∃ p ∈ l, p.1 ≤ x ∧ x ≤ p.2

/-- The intervals follow each other from `lo` to `hi`. -/
def Ordered (hi : α) : α → List (α × α) → Prop
  | lo, [] => lo ≤ hi
  | lo, p :: l => lo ≤ p.1 ∧ p.1 ≤ p.2 ∧ Ordered hi p.2 l

/-- What the intervals leave out between `lo` and `hi`. -/
def gaps (hi : α) : α → List (α × α) → List (α × α)
  | lo, [] => [(lo, hi)]
  | lo, p :: l => (lo, p.1) :: gaps hi p.2 l

end

section
variable {α : Type*} [LinearOrder α] {lo hi x : α} {l : List (α × α)}

theorem Ordered.le (h : Ordered hi lo l) : lo ≤ hi := by
  induction l generalizing lo with
  | nil => exact h
  | cons p l ih => exact h.1.trans (h.2.1.trans (ih h.2.2))

/-- Nothing is covered in front of the first interval. -/
theorem Ordered.le_of_covers (h : Ordered hi lo l) (hx : Covers l x) : lo ≤ x := by
  induction l generalizing lo with
  | nil =>
    obtain ⟨p, hp, -⟩ := hx
    cases hp
  | cons p l ih =>
    obtain ⟨q, hq, hqx⟩ := hx
    rcases List.mem_cons.mp hq with rfl | hq
    · exact h.1.trans hqx.1
    · exact h.1.trans (h.2.1.trans (ih h.2.2 ⟨q, hq, hqx⟩))

/-- The gaps lie between the bounds. -/
theorem Ordered.gaps_within (h : Ordered hi lo l) :
    ∀ p ∈ gaps hi lo l, lo ≤ p.1 ∧ p.1 ≤ p.2 ∧ p.2 ≤ hi := by
  induction l generalizing lo with
  | nil =>
    intro p hp
    obtain rfl := List.mem_singleton.mp hp
    exact ⟨le_rfl, h, le_rfl⟩
  | cons q l ih =>
    intro p hp
    rcases List.mem_cons.mp hp with rfl | hp
    · exact ⟨le_rfl, h.1, h.2.1.trans h.2.2.le⟩
    · obtain ⟨hlo, hp⟩ := ih h.2.2 p hp
      exact ⟨h.1.trans (h.2.1.trans hlo), hp⟩

end

/-! ## Integrals -/

section
variable {E : Type*} {f g : ℝ → E} {lo hi : ℝ} {l : List (ℝ × ℝ)}

open Classical in
/-- `g` on the intervals, `f` elsewhere. -/
noncomputable def glue (l : List (ℝ × ℝ)) (f g : ℝ → E) (x : ℝ) : E :=
  if Covers l x then g x else f x

theorem glue_of_covers {x : ℝ} (h : Covers l x) : glue l f g x = g x := if_pos h

theorem glue_of_not_covers {x : ℝ} (h : ¬ Covers l x) : glue l f g x = f x := if_neg h

/-- What covers `x` does not matter. -/
theorem glue_congr {l' : List (ℝ × ℝ)} {x : ℝ} (h : Covers l x ↔ Covers l' x) :
    glue l f g x = glue l' f g x := by
  by_cases hcov : Covers l x
  · rw [glue_of_covers hcov, glue_of_covers (h.mp hcov)]
  · rw [glue_of_not_covers hcov, glue_of_not_covers (mt h.mpr hcov)]

/-- In front of the first interval. -/
theorem glue_gap {p : ℝ × ℝ} (h : Ordered hi lo (p :: l)) :
    (Ioo lo p.1).EqOn f (glue (p :: l) f g) := by
  intro x hx
  refine (glue_of_not_covers fun hcov => ?_).symm
  have hfirst : Ordered hi p.1 (p :: l) := ⟨le_rfl, h.2⟩
  exact absurd (hfirst.le_of_covers hcov) (not_le.mpr hx.2)

/-- On the first interval. -/
theorem glue_head (p : ℝ × ℝ) (l : List (ℝ × ℝ)) :
    (Ioo p.1 p.2).EqOn g (glue (p :: l) f g) := fun _ hx =>
  (glue_of_covers ⟨p, by simp, hx.1.le, hx.2.le⟩).symm

/-- Behind the first interval. -/
theorem glue_rest (p : ℝ × ℝ) (l : List (ℝ × ℝ)) (hi : ℝ) :
    (Ioo p.2 hi).EqOn (glue l f g) (glue (p :: l) f g) := by
  intro x hx
  by_cases hcov : Covers l x
  · obtain ⟨q, hq, hqx⟩ := hcov
    rw [glue_of_covers ⟨q, hq, hqx⟩, glue_of_covers ⟨q, by simp [hq], hqx⟩]
  · rw [glue_of_not_covers hcov, glue_of_not_covers]
    rintro ⟨q, hq, hqx⟩
    rcases List.mem_cons.mp hq with rfl | hq
    · exact absurd hqx.2 (not_le.mpr hx.1)
    · exact hcov ⟨q, hq, hqx⟩

variable [NormedAddCommGroup E] [NormedSpace ℝ E]

/-- **Piece by piece.** Induction on the intervals: the gap in front of the first one, the first
one, and the rest. -/
theorem integral_glue (h : Ordered hi lo l) (hf : ∀ a b, IntervalIntegrable f volume a b)
    (hg : ∀ a b, IntervalIntegrable g volume a b) :
    IntervalIntegrable (glue l f g) volume lo hi ∧
      ∫ x in lo..hi, glue l f g x =
        ((gaps hi lo l).map fun p => ∫ x in p.1..p.2, f x).sum +
          (l.map fun p => ∫ x in p.1..p.2, g x).sum := by
  induction l generalizing lo with
  | nil =>
    have hglue : glue [] f g = f := by
      funext x
      refine glue_of_not_covers fun hcov => ?_
      obtain ⟨p, hp, -⟩ := hcov
      cases hp
    rw [hglue]
    exact ⟨hf lo hi, by simp [gaps]⟩
  | cons p l ih =>
    obtain ⟨hrest, hsum⟩ := ih h.2.2
    have hgap := glue_gap (f := f) (g := g) h
    have hhead := glue_head (f := f) (g := g) p l
    have hbehind := glue_rest (f := f) (g := g) p l hi
    have hle := h.2.2.le
    -- each piece is integrable and integrated as the function it is made of
    have hgap' : IntervalIntegrable (glue (p :: l) f g) volume lo p.1 :=
      (hf lo p.1).congr_uIoo (by rw [uIoo_of_le h.1]; exact hgap)
    have hhead' : IntervalIntegrable (glue (p :: l) f g) volume p.1 p.2 :=
      (hg p.1 p.2).congr_uIoo (by rw [uIoo_of_le h.2.1]; exact hhead)
    have hbehind' : IntervalIntegrable (glue (p :: l) f g) volume p.2 hi :=
      hrest.congr_uIoo (by rw [uIoo_of_le hle]; exact hbehind)
    refine ⟨(hgap'.trans hhead').trans hbehind', ?_⟩
    rw [← intervalIntegral.integral_add_adjacent_intervals (hgap'.trans hhead') hbehind',
      ← intervalIntegral.integral_add_adjacent_intervals hgap' hhead',
      ← intervalIntegral.integral_congr_Ioo_of_le h.1 hgap,
      ← intervalIntegral.integral_congr_Ioo_of_le h.2.1 hhead,
      ← intervalIntegral.integral_congr_Ioo_of_le hle hbehind, hsum]
    simp only [gaps, List.map_cons, List.sum_cons]
    abel

end

end Pieces
