import OsHw.Hw1.Intervals
import OsHw.Lib.Loops
import OsHw.Lib.Segments
import Mathlib.Data.List.GetD
import Mathlib.Tactic.Ring

/-!
# OsHw — `find_best_interval` minimises the empirical error

A choice of intervals is a family of index ranges (`Lib/Segments.lean`): a covered point costs 1
if its label is 0, any other if its label is 1.

* **`lastInterval_spec`**, **`fillCell_filled`** — one cell: the least error over all last
  intervals, where it is reached, and that the cells filled before stay.
* **`exists_fill`** — the tables: every cell has the least cost (by `Segments.isLeast_succ`) and
  the last range of a family that has it.
* **`exists_extract`** — the way back through `P` collects such a family.
* **`find_best_exact`** — the result.
-/

namespace OsHw.Hw1

open Finset Segments

/-- The label of a point. -/
def label (ys : List Int) (i : Nat) : Int := ys.getD i 0

/-- The errors of a choice of ranges: the zeros inside and the ones outside. -/
def errors (ys : List Int) (F : List Bounds) : Nat :=
  (List.range ys.length).countP (fun i => Covered F i ∧ label ys i = 0) +
    (List.range ys.length).countP (fun i => ¬ Covered F i ∧ label ys i = 1)

/-- What a point costs inside. -/
def zero (ys : List Int) (i : Nat) : Int := if label ys i = 0 then 1 else 0

/-- What a point costs outside. -/
def one (ys : List Int) (i : Nat) : Int := if label ys i = 1 then 1 else 0

section

variable {ys : List Int} {i j k l m u : Nat}

/-- The errors are the cost of the family. -/
theorem errors_eq_cost (ys : List Int) (F : List Bounds) :
    (errors ys F : Int) = cost (zero ys) (one ys) ys.length F := by
  unfold errors cost
  induction ys.length with
  | zero => rfl
  | succ n ih =>
    rw [List.range_succ, List.countP_append, List.countP_append, sum_range_succ, ← ih]
    by_cases hcov : Covered F n <;> simp [hcov, zero, one] <;> split <;> omega

/-! ## Sums -/

theorem cumsumFrom_getD (total : Int) (xs : List Int) (n : Nat) (hn : n ≤ xs.length) :
    (total :: cumsumFrom total xs).getD n 0 = total + (xs.take n).sum := by
  induction xs generalizing total n with
  | nil =>
    obtain rfl : n = 0 := by simpa using hn
    simp
  | cons x xs ih =>
    cases n with
    | zero => simp
    | succ n =>
      have hrec := ih (total + x) n (by simpa using hn)
      rw [List.getD_cons_succ, cumsumFrom, hrec, List.take_succ_cons, List.sum_cons, add_assoc]

/-- `concatenate([[0], cumsum(xs)])` holds the sums of the first entries. -/
theorem cumsum_getD (xs : List Int) (n : Nat) (hn : n ≤ xs.length) :
    (0 :: cumsum xs).getD n 0 = (xs.take n).sum := by
  rw [cumsum, cumsumFrom_getD 0 xs n hn, zero_add]

theorem cumsumFrom_length (total : Int) (xs : List Int) :
    (cumsumFrom total xs).length = xs.length := by
  induction xs generalizing total with
  | nil => rfl
  | cons x xs ih => simp [cumsumFrom, ih]

/-- A window of a list, mapped and added up. -/
theorem sum_window (f : Int → Int) (ys : List Int) (hi : l + m ≤ ys.length) :
    (((ys.drop l).take m).map f).sum = ∑ n ∈ Ico l (l + m), f (label ys n) := by
  induction m with
  | zero => simp
  | succ m ih =>
    have hlt : l + m < ys.length := by omega
    rw [List.take_add_one, List.map_append, List.sum_append, ih (by omega), ← add_assoc,
      sum_Ico_succ_top (by omega), List.getElem?_drop, List.getElem?_eq_getElem hlt]
    simp [label, List.getD_eq_getElem?_getD, List.getElem?_eq_getElem hlt]

theorem sum_take (ys : List Int) (hi : i ≤ ys.length) :
    (ys.take i).sum = ∑ n ∈ Ico 0 i, label ys n := by
  have hsum := sum_window (l := 0) (m := i) id ys (by omega)
  rw [List.drop_zero, List.map_id, Nat.zero_add] at hsum
  exact hsum

/-! ## The best of a list -/

theorem exists_argmin (xs : List Int) (hne : xs ≠ []) :
    ∃ d, argmin xs = some d ∧ d < xs.length ∧
      (∀ n < xs.length, xs.getD d 0 ≤ xs.getD n 0) ∧ ∀ n < d, xs.getD d 0 < xs.getD n 0 := by
  obtain ⟨x, hx⟩ := Option.ne_none_iff_exists'.mp (mt List.min?_eq_none_iff.mp hne)
  obtain ⟨hmem, hle⟩ := List.min?_eq_some_iff.mp hx
  have hlt : xs.idxOf x < xs.length := List.idxOf_lt_length_iff.mpr hmem
  refine ⟨xs.idxOf x, by rw [argmin, hx]; rfl, hlt, ?_, ?_⟩
  · intro n hn
    rw [List.getD_eq_getElem xs 0 hlt, List.getD_eq_getElem xs 0 hn, List.getElem_idxOf]
    exact hle _ (List.getElem_mem hn)
  · intro n hn
    have hnlt : n < xs.length := hn.trans hlt
    have hne : xs[n] ≠ x := by simpa using List.not_of_lt_findIdx hn
    rw [List.getD_eq_getElem xs 0 hlt, List.getD_eq_getElem xs 0 hnlt, List.getElem_idxOf]
    exact lt_of_le_of_ne (hle _ (List.getElem_mem hnlt)) hne.symm

theorem foldl_tupleLt (xs : List (Int × Bounds)) (x : Int × Bounds) :
    let least := xs.foldl (fun least y => if tupleLt y least then y else least) x
    (least = x ∨ least ∈ xs) ∧ least.1 ≤ x.1 ∧ ∀ y ∈ xs, least.1 ≤ y.1 := by
  induction xs generalizing x with
  | nil => simp
  | cons z xs ih =>
    rw [List.foldl_cons]
    obtain ⟨hmem, hle, hall⟩ := ih (if tupleLt z x then z else x)
    by_cases hlt : tupleLt z x
    · rw [if_pos hlt] at hmem hle hall ⊢
      have hzx : z.1 ≤ x.1 := by
        rcases hlt with hlt | ⟨heq, -⟩
        · exact hlt.le
        · exact heq.le
      refine ⟨?_, hle.trans hzx, ?_⟩
      · rcases hmem with hmem | hmem
        · exact Or.inr (by rw [hmem]; simp)
        · exact Or.inr (List.mem_cons_of_mem _ hmem)
      · intro y hy
        rcases List.mem_cons.mp hy with rfl | hy
        · exact hle
        · exact hall y hy
    · rw [if_neg hlt] at hmem hle hall ⊢
      have hxz : x.1 ≤ z.1 := by
        by_contra hgt
        exact hlt (Or.inl (by omega))
      refine ⟨?_, hle, ?_⟩
      · rcases hmem with hmem | hmem
        · exact Or.inl hmem
        · exact Or.inr (List.mem_cons_of_mem _ hmem)
      · intro y hy
        rcases List.mem_cons.mp hy with rfl | hy
        · exact hle.trans hxz
        · exact hall y hy

theorem foldl_tupleLt_least (xs : List (Int × Bounds)) (x : Int × Bounds) :
    let least := xs.foldl (fun least y => if tupleLt y least then y else least) x
    ¬ tupleLt x least ∧ ∀ y ∈ xs, ¬ tupleLt y least := by
  induction xs generalizing x with
  | nil =>
    refine ⟨?_, by simp⟩
    show ¬ tupleLt x x
    unfold tupleLt
    omega
  | cons z xs ih =>
    rw [List.foldl_cons]
    obtain ⟨hfirst, hall⟩ := ih (if tupleLt z x then z else x)
    -- whichever of the two is kept is not above the other one
    have hboth : ∀ least, ¬ tupleLt (if tupleLt z x then z else x) least →
        ¬ tupleLt x least ∧ ¬ tupleLt z least := by
      intro least hkept
      split at hkept <;> unfold tupleLt at * <;> omega
    obtain ⟨hx, hz⟩ := hboth _ hfirst
    refine ⟨hx, fun y hy => ?_⟩
    rcases List.mem_cons.mp hy with rfl | hy
    · exact hz
    · exact hall y hy

theorem exists_minTuple (xs : List (Int × Bounds)) (hne : xs ≠ []) :
    ∃ x, minTuple xs = some x ∧ x ∈ xs ∧ (∀ y ∈ xs, x.1 ≤ y.1) ∧ ∀ y ∈ xs, ¬ tupleLt y x := by
  cases xs with
  | nil => exact absurd rfl hne
  | cons x xs =>
    obtain ⟨hmem, hle, hall⟩ := foldl_tupleLt xs x
    obtain ⟨hfirst, hleast⟩ := foldl_tupleLt_least xs x
    refine ⟨_, rfl, ?_, ?_, ?_⟩
    · rcases hmem with hmem | hmem
      · rw [hmem]
        simp
      · exact List.mem_cons_of_mem _ hmem
    · intro y hy
      rcases List.mem_cons.mp hy with rfl | hy
      · exact hle
      · exact hall y hy
    · intro y hy
      rcases List.mem_cons.mp hy with rfl | hy
      · exact hfirst
      · exact hleast y hy

/-! ## One cell -/

/-- The error of the last range `[l, u)` and the rest up to `i`. -/
def lastCost (ys : List Int) (l u i : Nat) : Int :=
  ∑ n ∈ Ico l u, zero ys n + ∑ n ∈ Ico u i, one ys n

/-- The labels are 0 and 1. -/
def Binary (ys : List Int) : Prop := ∀ y ∈ ys, y = 0 ∨ y = 1

theorem Binary.label (h : Binary ys) (n : Nat) : label ys n = 0 ∨ label ys n = 1 := by
  unfold Hw1.label
  by_cases hn : n < ys.length
  · rw [List.getD_eq_getElem ys 0 hn]
    exact h _ (List.getElem_mem hn)
  · rw [List.getD_eq_default ys 0 (by omega)]
    exact Or.inl rfl

theorem next_errors_length (ys cy : List Int) (E : Nat → Nat → Int) (hl : l ≤ i)
    (hi : i ≤ ys.length) : (next_errors ys cy E i j l).length = i - l + 1 := by
  simp only [next_errors, cumsum, List.length_map, List.length_cons, cumsumFrom_length,
    List.length_drop, List.length_take]
  omega

/-- **The errors of the last ranges from `l` on.** -/
theorem next_errors_getD (h : Binary ys) (E : Nat → Nat → Int) {d : Nat} (hd : l + d ≤ i)
    (hi : i ≤ ys.length) :
    (next_errors ys (0 :: cumsum ys) E i j l).getD d 0 =
      E l (j - 1) + lastCost ys l (l + d) i := by
  have hone : ∀ n, label ys n = one ys n := by
    intro n
    rcases h.label n with hn | hn <;> simp [one, hn]
  have hsign : ∀ n, (if label ys n = 1 then -1 else 1) = zero ys n - one ys n := by
    intro n
    rcases h.label n with hn | hn <;> simp [zero, one, hn]
  have hcy : (0 :: cumsum ys).getD i 0 - (0 :: cumsum ys).getD l 0 =
      ∑ n ∈ Ico l i, one ys n := by
    rw [cumsum_getD ys i hi, cumsum_getD ys l (by omega), sum_take ys hi, sum_take ys (by omega),
      ← sum_Ico_consecutive _ (Nat.zero_le l) (show l ≤ i by omega), add_sub_cancel_left]
    exact sum_congr rfl fun n _ => hone n
  have hsigns : (0 :: cumsum (((ys.take i).drop l).map fun y =>
      if y = 1 then -1 else 1)).getD d 0 = ∑ n ∈ Ico l (l + d), (zero ys n - one ys n) := by
    have hlen : d ≤ (((ys.take i).drop l).map fun y : Int =>
        if y = 1 then (-1 : Int) else 1).length := by
      simp only [List.length_map, List.length_drop, List.length_take]
      omega
    rw [cumsum_getD _ d hlen, ← List.map_take, List.drop_take, List.take_take,
      min_eq_left (by omega), sum_window _ ys (by omega)]
    exact sum_congr rfl fun n _ => hsign n
  have hlt : d < (0 :: cumsum (((ys.take i).drop l).map fun y : Int =>
      if y = 1 then (-1 : Int) else 1)).length := by
    simp only [cumsum, List.length_cons, cumsumFrom_length, List.length_map, List.length_drop,
      List.length_take]
    omega
  unfold next_errors
  dsimp only
  rw [List.getD_eq_getElem _ 0 (by rw [List.length_map]; exact hlt), List.getElem_map,
    ← List.getD_eq_getElem _ 0 hlt, hsigns, hcy, lastCost, sum_sub_distrib,
    ← sum_Ico_consecutive (one ys) (show l ≤ l + d by omega) hd]
  ring

/-- **The best last interval from `l` on**, and the shortest one of them. -/
theorem lastInterval_spec (h : Binary ys) (E : Nat → Nat → Int) (hl : l ≤ i)
    (hi : i ≤ ys.length) :
    ∃ x, lastInterval ys (0 :: cumsum ys) E i j l = some x ∧
      x.2.1 = l ∧ l ≤ x.2.2 ∧ x.2.2 ≤ i ∧ x.1 = E l (j - 1) + lastCost ys l x.2.2 i ∧
      (∀ u, l ≤ u → u ≤ i → x.1 ≤ E l (j - 1) + lastCost ys l u i) ∧
      ∀ u, l ≤ u → u < x.2.2 → x.1 < E l (j - 1) + lastCost ys l u i := by
  have hlen := next_errors_length (j := j) ys (0 :: cumsum ys) E hl hi
  obtain ⟨d, hd, hlt, hle, hfirst⟩ := exists_argmin (next_errors ys (0 :: cumsum ys) E i j l)
    (List.ne_nil_of_length_pos (by omega))
  rw [hlen] at hlt hle
  have hvalue := next_errors_getD h E (d := d) (j := j) (show l + d ≤ i by omega) hi
  have hrange : (List.range' l (i + 1 - l)).getD d 0 = l + d := by
    rw [List.getD_eq_getElem _ 0 (by rw [List.length_range']; omega), List.getElem_range']
    omega
  refine ⟨(E l (j - 1) + lastCost ys l (l + d) i, l, l + d), ?_, rfl, Nat.le_add_right l d, ?_,
    rfl, ?_, ?_⟩
  · unfold lastInterval
    dsimp only
    rw [hd]
    simp only [Option.bind_eq_bind, Option.bind_some, Option.pure_def, hvalue, hrange]
  · show l + d ≤ i
    omega
  · intro u hlu hui
    have hother := next_errors_getD h E (d := u - l) (j := j) (show l + (u - l) ≤ i by omega) hi
    have hbest := hle (u - l) (by omega)
    rw [hother, hvalue, Nat.add_sub_cancel' hlu] at hbest
    exact hbest
  · intro u hlu hud
    have hud : u < l + d := hud
    have hother := next_errors_getD h E (d := u - l) (j := j) (show l + (u - l) ≤ i by omega) hi
    have hbest := hfirst (u - l) (by omega)
    rw [hother, hvalue, Nat.add_sub_cancel' hlu] at hbest
    exact hbest

/-- A cell holds the least error, and the last range of a family that has it unless there are no
points or no ranges. -/
structure CellOk (ys : List Int) (t : Tables) (i j : Nat) : Prop where
  least : IsLeast (costs (zero ys) (one ys) i j) (t.E i j)
  none_iff : t.P i j = none ↔ i = 0 ∨ j = 0
  last : ∀ l u, t.P i j = some (l, u) →
    l ≤ u ∧ u ≤ i ∧ t.E i j = t.E l (j - 1) + lastCost ys l u i

/-- The cell `(a, b)` is filled when the loops come to `(i, j)`. -/
def Filled (i j a b : Nat) : Prop := a = 0 ∨ b = 0 ∨ a < i ∨ (a = i ∧ b < j)

/-- The tables when the loops come to `(i, j)`. -/
def FilledTo (ys : List Int) (k i j : Nat) (t : Tables) : Prop :=
  ∀ a b, a ≤ ys.length → b ≤ k → Filled i j a b → CellOk ys t a b

theorem set_self (t : Tables) (i j : Nat) (e : Int) (p : Bounds) :
    (t.set i j e p).E i j = e ∧ (t.set i j e p).P i j = some p := by
  simp [Tables.set]

theorem set_of_ne (t : Tables) {a b : Nat} (e : Int) (p : Bounds) (hne : ¬ (a = i ∧ b = j)) :
    (t.set i j e p).E a b = t.E a b ∧ (t.set i j e p).P a b = t.P a b := by
  by_cases ha : a = i
  · have hb : b ≠ j := fun hb => hne ⟨ha, hb⟩
    subst ha
    simp [Tables.set, hb]
  · simp [Tables.set, ha]

/-- A filled cell stays: neither it nor the cells it refers to are written again. -/
theorem CellOk.set {t : Tables} {a b : Nat} (hcell : CellOk ys t a b) (hj : 1 ≤ j) (hi : 1 ≤ i)
    (hfilled : Filled i j a b) (e : Int) (p : Bounds) : CellOk ys (t.set i j e p) a b := by
  have hne : ¬ (a = i ∧ b = j) := by
    unfold Filled at hfilled
    omega
  obtain ⟨hE, hP⟩ := set_of_ne t e p hne
  constructor
  · rw [hE]
    exact hcell.least
  · rw [hP]
    exact hcell.none_iff
  · intro l u hlast
    rw [hP] at hlast
    obtain ⟨hlu, hui, heq⟩ := hcell.last l u hlast
    have hfrom : ¬ (l = i ∧ b - 1 = j) := by
      unfold Filled at hfilled
      omega
    rw [hE, (set_of_ne t e p hfrom).1]
    exact ⟨hlu, hui, heq⟩

/-- What is stored in a cell is the best last interval, with its error; of several ones, the first
in the order of tuples. -/
theorem exists_fillCell (h : Binary ys) (t : Tables) (him : i ≤ ys.length) :
    ∃ e p, fillCell ys (0 :: cumsum ys) i t j = some (t.set i j e p) ∧
      p.1 ≤ p.2 ∧ p.2 ≤ i ∧ e = t.E p.1 (j - 1) + lastCost ys p.1 p.2 i ∧
      (∀ l u, l ≤ u → u ≤ i → e ≤ t.E l (j - 1) + lastCost ys l u i) ∧
      ∀ l u, l ≤ u → u ≤ i → e = t.E l (j - 1) + lastCost ys l u i →
        p.1 < l ∨ (p.1 = l ∧ p.2 ≤ u) := by
  -- the options: the best last interval for each of its lower boundaries
  obtain ⟨options, hoptions, hall⟩ := Loops.exists_mapM (l := List.range (i + 1))
    (f := lastInterval ys (0 :: cumsum ys) t.E i j) fun l hl =>
      lastInterval_spec h t.E (Nat.lt_succ_iff.mp (List.mem_range.mp hl)) him
  obtain ⟨hlen, hget⟩ := List.forall₂_iff_get.mp hall
  rw [List.length_range] at hlen
  have hspec : ∀ l (hl : l < options.length), (options.get ⟨l, hl⟩).2.1 = l ∧
      l ≤ (options.get ⟨l, hl⟩).2.2 ∧ (options.get ⟨l, hl⟩).2.2 ≤ i ∧
      (options.get ⟨l, hl⟩).1 =
        t.E l (j - 1) + lastCost ys l (options.get ⟨l, hl⟩).2.2 i ∧
      (∀ u, l ≤ u → u ≤ i →
        (options.get ⟨l, hl⟩).1 ≤ t.E l (j - 1) + lastCost ys l u i) ∧
      ∀ u, l ≤ u → u < (options.get ⟨l, hl⟩).2.2 →
        (options.get ⟨l, hl⟩).1 < t.E l (j - 1) + lastCost ys l u i := by
    intro l hl
    have hx := hget l (by rw [List.length_range]; omega) hl
    simp only [List.get_eq_getElem, List.getElem_range] at hx
    exact hx
  obtain ⟨⟨e, p⟩, hmin, hmem, hle, hleast⟩ := exists_minTuple options
    (List.ne_nil_of_length_pos (by omega))
  obtain ⟨⟨l, hl⟩, hx⟩ := List.get_of_mem hmem
  obtain ⟨hpl, hlu, hui, he, -, hshort⟩ := hspec l hl
  rw [hx] at hpl hlu hui he hshort
  dsimp only at hpl hlu hui he hshort
  subst hpl
  refine ⟨e, p, ?_, hlu, hui, he, ?_, ?_⟩
  · unfold fillCell
    rw [hoptions]
    simp only [Option.bind_eq_bind, Option.bind_some, hmin, Option.pure_def]
  · intro l u hlu hui
    have hl : l < options.length := by omega
    exact (hle _ (List.get_mem options ⟨l, hl⟩)).trans ((hspec l hl).2.2.2.2.1 u hlu hui)
  · intro l u hlu hui htie
    have hl : l < options.length := by omega
    obtain ⟨hol, -, -, -, hbest, -⟩ := hspec l hl
    have hoption := hleast _ (List.get_mem options ⟨l, hl⟩)
    have hother := hbest u hlu hui
    -- the option for `l` is as good, so it does not come before `p`
    unfold tupleLt at hoption
    by_cases hpl : p.1 = l
    · refine Or.inr ⟨hpl, ?_⟩
      by_contra hlt
      have hworse := hshort u (by omega) (by omega)
      rw [hpl] at hworse
      omega
    · dsimp only at hoption
      omega

/-- **One cell.** -/
theorem fillCell_filled (h : Binary ys) {t : Tables} (hi : 1 ≤ i) (him : i ≤ ys.length)
    (hj : 1 ≤ j) (hjk : j ≤ k) (ht : FilledTo ys k i j t) :
    ∃ t', fillCell ys (0 :: cumsum ys) i t j = some t' ∧ FilledTo ys k i (j + 1) t' := by
  obtain ⟨e, ⟨l, u⟩, hcell, hlu, hui, he, hbest, -⟩ := exists_fillCell (j := j) h t him
  dsimp only at hlu hui he
  refine ⟨t.set i j e (l, u), hcell, ?_⟩
  intro a b ha hb hfilled
  obtain ⟨hE, hP⟩ := set_self t i j e (l, u)
  by_cases hnew : a = i ∧ b = j
  · obtain ⟨rfl, rfl⟩ := hnew
    have hprevious : ¬ (l = a ∧ b - 1 = b) := by omega
    constructor
    · rw [hE, show b = b - 1 + 1 by omega]
      apply isLeast_succ (v := fun l => t.E l (b - 1))
      · intro l hla
        refine (ht l (b - 1) (hla.trans ha) (by omega) ?_).least
        unfold Filled
        omega
      · exact ⟨l, u, hlu, hui, he⟩
      · exact hbest
    · rw [hP]
      constructor
      · intro hnone
        cases hnone
      · omega
    · intro l' u' hlast
      rw [hP] at hlast
      cases hlast
      rw [hE, (set_of_ne t e (l, u) hprevious).1]
      exact ⟨hlu, hui, he⟩
  · have hold : Filled i j a b := by
      unfold Filled at hfilled ⊢
      omega
    exact (ht a b ha hb hold).set hj hi hold e (l, u)

/-! ## The tables -/

theorem start_filled (h : Binary ys) (k : Nat) :
    FilledTo ys k 1 1 (Tables.start (0 :: cumsum ys)) := by
  intro a b ha hb hfilled
  have hborder : a = 0 ∨ b = 0 := by
    unfold Filled at hfilled
    omega
  constructor
  · rcases hborder with rfl | rfl
    · rw [costs_below_zero]
      have hzero : (Tables.start (0 :: cumsum ys)).E 0 b = 0 := by
        simp [Tables.start]
      rw [hzero]
      exact isLeast_singleton
    · rw [costs_zero]
      have hcy : (Tables.start (0 :: cumsum ys)).E a 0 = ∑ n ∈ range a, one ys n := by
        show (0 :: cumsum ys).getD a 0 = _
        rw [cumsum_getD ys a ha, sum_take ys ha, range_eq_Ico]
        refine sum_congr rfl fun n _ => ?_
        rcases h.label n with hn | hn <;> simp [one, hn]
      rw [hcy]
      exact isLeast_singleton
  · exact ⟨fun _ => hborder, fun _ => rfl⟩
  · intro l u hlast
    cases hlast

/-- **The loops fill the tables.** -/
theorem exists_fill (h : Binary ys) (k : Nat) :
    ∃ t, fill ys (0 :: cumsum ys) k = some t ∧
      ∀ i j, i ≤ ys.length → j ≤ k → CellOk ys t i j := by
  obtain ⟨t, ht, hfilled⟩ := Loops.foldlM_range' 1 ys.length
    (I := fun i t => FilledTo ys k i 1 t) (start_filled h k) fun i t hi him hrow => by
      obtain ⟨t', ht', hfilled⟩ := Loops.foldlM_range' 1 k
        (f := fillCell ys (0 :: cumsum ys) i) (I := fun j t => FilledTo ys k i j t) hrow
        fun j t hj hjk => fillCell_filled h hi (by omega) hj (by omega)
      refine ⟨t', ht', fun a b ha hb hcell => hfilled a b ha hb ?_⟩
      unfold Filled at hcell ⊢
      omega
  refine ⟨t, ht, fun i j hi hj => hfilled i j hi hj ?_⟩
  unfold Filled
  omega

/-! ## The way back -/

/-- **The way back** from a cell collects the ranges of a family that has the cell's error. -/
theorem exists_extract {t : Tables} (ht : ∀ i j, i ≤ ys.length → j ≤ k → CellOk ys t i j)
    (hi : 1 ≤ i) (him : i ≤ ys.length) (hj : 1 ≤ j) (hjk : j ≤ k) (best : List Bounds) :
    ∃ F, extract t.P j (t.P i j) best = some (best ++ F) ∧ Descending i F ∧ F.length ≤ j ∧
      cost (zero ys) (one ys) i F = t.E i j := by
  induction j generalizing i best with
  | zero => omega
  | succ j ih =>
    have hcell := ht i (j + 1) him hjk
    cases hP : t.P i (j + 1) with
    | none =>
      have hborder := hcell.none_iff.mp hP
      omega
    | some last =>
      obtain ⟨l, u⟩ := last
      obtain ⟨hlu, hui, hE⟩ := hcell.last l u hP
      have hbelow := ht l j (by omega) (by omega)
      rw [extract, Option.bind_eq_bind, Option.bind_some]
      dsimp only
      cases hnext : t.P l j with
      | none =>
        -- no points are left, or no ranges: the last range is the only one
        refine ⟨[(l, u)], rfl, .cons hlu hui (.nil l), by simp, ?_⟩
        rw [cost_cons hlu hui (.nil l), hE]
        have hleast : cost (zero ys) (one ys) l [] = t.E l j := by
          have hmem := hbelow.least.1
          rcases hbelow.none_iff.mp hnext with rfl | rfl
          · rw [costs_below_zero] at hmem
            exact hmem.symm
          · rw [costs_zero] at hmem
            rw [cost_nil]
            exact hmem.symm
        rw [hleast]
        rfl
      | some next =>
        have hinner : ¬ (l = 0 ∨ j = 0) := by
          rw [← hbelow.none_iff, hnext]
          intro hnone
          cases hnone
        obtain ⟨F, hF, hdesc, hlen, hcost⟩ := ih (i := l) (by omega) (by omega) (by omega)
          (by omega) (best ++ [(l, u)])
        rw [hnext] at hF
        refine ⟨(l, u) :: F, ?_, .cons hlu hui hdesc, by simpa using hlen, ?_⟩
        · show extract t.P j (some next) (best ++ [(l, u)]) = _
          rw [hF, List.append_assoc]
          rfl
        · rw [cost_cons hlu hui hdesc, hcost, hE]
          rfl

/-! ## The result -/

instance boundsLe_total : Std.Total boundsLe where
  total r s := by
    unfold boundsLe
    omega

instance boundsLe_trans : IsTrans Bounds boundsLe where
  trans r s t hrs hst := by
    unfold boundsLe at hrs hst ⊢
    omega

instance boundsLe_antisymm : Std.Antisymm boundsLe where
  antisymm r s hrs hsr := by
    unfold boundsLe at hrs hsr
    apply Prod.ext <;> omega

/-- A choice is extracted from its last range to its first one; sorting turns it around. -/
theorem insertionSort_eq_reverse {F : List Bounds} (h : Descending m F) :
    F.insertionSort boundsLe = F.reverse := by
  have hsorted : F.reverse.Pairwise boundsLe := by
    refine List.pairwise_reverse.mpr (List.Pairwise.imp_of_mem ?_ h.pairwise)
    intro r s hr hs hbelow
    have hle := (h.mem hr).1
    have hle' := (h.mem hs).1
    unfold boundsLe
    omega
  exact ((List.perm_insertionSort boundsLe F).trans F.reverse_perm.symm).eq_of_pairwise'
    (List.pairwise_insertionSort boundsLe F) hsorted

/-- The choices of at most `k` ranges that `find_best` minimises over. -/
structure Choice (ys : List Int) (k : Nat) (F : List Bounds) : Prop where
  length_le : F.length ≤ k
  bounds : ∀ r ∈ F, r.1 ≤ r.2 ∧ r.2 ≤ ys.length
  apart : F.Pairwise Apart

/-- Every choice makes as many errors as some family of the tables, and the other way round. -/
theorem choices_eq_costs (ys : List Int) (k : Nat) :
    {e : Int | ∃ F, Choice ys k F ∧ (errors ys F : Int) = e} =
      costs (zero ys) (one ys) ys.length k := by
  ext e
  constructor
  · rintro ⟨F, hF, rfl⟩
    obtain ⟨G, hG, hlen, hcov⟩ := exists_descending hF.apart hF.bounds
    refine ⟨G, hG, hlen.trans hF.length_le, ?_⟩
    rw [errors_eq_cost, cost_congr hcov]
  · rintro ⟨F, hF, hlen, rfl⟩
    exact ⟨F, ⟨hlen, fun r hr => hF.mem hr, hF.apart⟩, errors_eq_cost ys F⟩

/-- **`find_best_interval` is an exact minimiser**: `besterror` is the least error of at most `k`
disjoint ranges, and `best` is a sorted choice that has it. -/
theorem find_best_exact (ys : List Int) (k : Nat) (hys : ∀ y ∈ ys, y = 0 ∨ y = 1)
    (hm : 1 ≤ ys.length) (hk : 1 ≤ k) :
    ∃ best besterror, find_best ys k = some (best, besterror) ∧
      IsLeast {e : Int | ∃ F, Choice ys k F ∧ (errors ys F : Int) = e} besterror ∧
      best.length ≤ k ∧ (∀ r ∈ best, r.1 ≤ r.2 ∧ r.2 ≤ ys.length) ∧
      best.Pairwise boundsLe ∧ best.Pairwise (fun r s => r.2 ≤ s.1) ∧
      (errors ys best : Int) = besterror ∧
      ∀ xs : List ℚ, xs = xs.insertionSort (· ≤ ·) → xs.length = ys.length →
        find_best_interval xs ys k =
          some (best.map fun r => ((representatives xs).getD r.1 0,
            (representatives xs).getD r.2 0), besterror) := by
  obtain ⟨t, ht, hcells⟩ := exists_fill hys k
  obtain ⟨F, hextract, hF, hlen, hcost⟩ :=
    exists_extract hcells hm le_rfl hk le_rfl []
  have hbest : find_best ys k = some (F.reverse, t.E ys.length k) := by
    unfold find_best
    dsimp only
    rw [ht, Option.bind_eq_bind, Option.bind_some, hextract, Option.bind_eq_bind,
      Option.bind_some, List.nil_append, insertionSort_eq_reverse hF]
    rfl
  refine ⟨F.reverse, t.E ys.length k, hbest, ?_, ?_, ?_, ?_, ?_, ?_, ?_⟩
  · rw [choices_eq_costs]
    exact (hcells ys.length k le_rfl le_rfl).least
  · rwa [List.length_reverse]
  · intro r hr
    exact hF.mem (List.mem_reverse.mp hr)
  · rw [← insertionSort_eq_reverse hF]
    exact List.pairwise_insertionSort boundsLe F
  · exact List.pairwise_reverse.mpr hF.pairwise
  · rw [errors_eq_cost, cost_congr fun i => Covered.perm F.reverse_perm, hcost]
  · intro xs hsorted hxs
    unfold find_best_interval
    rw [if_pos ⟨hsorted, hxs⟩, hbest]
    rfl

/-- Two ones around a zero take two ranges. -/
theorem find_best_exact_two :
    find_best [1, 0, 1] 2 = some ([(0, 1), (2, 3)], 0) ∧
      IsLeast {e : Int | ∃ F, Choice [1, 0, 1] 2 F ∧ (errors [1, 0, 1] F : Int) = e} 0 := by
  obtain ⟨best, besterror, hbest, hleast, -⟩ :=
    find_best_exact [1, 0, 1] 2 (by decide) (by decide) (by decide)
  have hvalue : find_best [1, 0, 1] 2 = some ([(0, 1), (2, 3)], 0) := by decide +kernel
  rw [hvalue] at hbest
  cases hbest
  exact ⟨hvalue, hleast⟩

end

end OsHw.Hw1
