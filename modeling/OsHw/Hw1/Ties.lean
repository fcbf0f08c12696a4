import OsHw.Hw1.Minimiser

/-!
# OsHw — which of the best intervals `find_best_interval` takes

Of several last intervals with the same error, `argmin` and `min` take the first one in the order
of tuples: the one with the least lower boundary, and of these the shortest.

* **`Solved`** — the tables behind the loops: every cell has the least cost, and the first of the
  last ranges that have it.
* **`Solved.lower`**, **`Solved.upper`** — so both boundaries of a range separate a point of label 1
  inside from one of label 0 outside, as far as there are points on both sides.
* **`extract_tight`** — and all ranges that are extracted do.
* **`extract_nil_range`** — given enough ranges, the empty one before the first point is among them
  if this point has label 0.
-/

namespace OsHw.Hw1

open Finset Segments

section

variable {ys : List Int} {t : Tables} {i j k l u l' u' : Nat}

/-! ## The first of the best -/

/-- The cell holds the first of its best last ranges. -/
def CellFirst (ys : List Int) (t : Tables) (i j : Nat) : Prop :=
  ∀ l u, t.P i j = some (l, u) → ∀ l' u', l' ≤ u' → u' ≤ i →
    t.E i j ≤ t.E l' (j - 1) + lastCost ys l' u' i ∧
      (t.E i j = t.E l' (j - 1) + lastCost ys l' u' i → l < l' ∨ (l = l' ∧ u ≤ u'))

/-- The tables when the loops come to `(i, j)`. -/
def FirstTo (ys : List Int) (k i j : Nat) (t : Tables) : Prop :=
  ∀ a b, a ≤ ys.length → b ≤ k → Filled i j a b → CellFirst ys t a b

/-- A filled cell stays. -/
theorem CellFirst.set {a b : Nat} (hcell : CellFirst ys t a b) (hj : 1 ≤ j) (hi : 1 ≤ i)
    (hfilled : Filled i j a b) (e : Int) (p : Bounds) : CellFirst ys (t.set i j e p) a b := by
  unfold Filled at hfilled
  obtain ⟨hE, hP⟩ := set_of_ne t e p (show ¬ (a = i ∧ b = j) by omega)
  intro l u hlast l' u' hlu hua
  have hfrom := (set_of_ne t e p (show ¬ (l' = i ∧ b - 1 = j) by omega)).1
  rw [hP] at hlast
  rw [hE, hfrom]
  exact hcell l u hlast l' u' hlu hua

theorem fillCell_first (h : Binary ys) (hi : 1 ≤ i) (him : i ≤ ys.length) (hj : 1 ≤ j)
    (hjk : j ≤ k) (ht : FilledTo ys k i j t) (hf : FirstTo ys k i j t) :
    ∃ t', fillCell ys (0 :: cumsum ys) i t j = some t' ∧ FilledTo ys k i (j + 1) t' ∧
      FirstTo ys k i (j + 1) t' := by
  obtain ⟨t', hcell, hfilled⟩ := fillCell_filled h hi him hj hjk ht
  refine ⟨t', hcell, hfilled, ?_⟩
  obtain ⟨e, p, hstored, hlu, hui, -, hbest, hfirst⟩ := exists_fillCell (j := j) h t him
  obtain rfl : t' = t.set i j e p := Option.some.inj (hcell.symm.trans hstored)
  intro a b ha hb hnew
  by_cases hab : a = i ∧ b = j
  · obtain ⟨rfl, rfl⟩ := hab
    obtain ⟨hE, hP⟩ := set_self t a b e p
    intro l u hlast l' u' hlu' hua
    rw [hP] at hlast
    obtain rfl := Option.some.inj hlast
    rw [hE, (set_of_ne t e (l, u) (show ¬ (l' = a ∧ b - 1 = b) by omega)).1]
    exact ⟨hbest l' u' hlu' hua, hfirst l' u' hlu' hua⟩
  · have hold : Filled i j a b := by
      unfold Filled at hnew ⊢
      omega
    exact (hf a b ha hb hold).set hj hi hold e p

/-- The tables behind the loops. -/
structure Solved (ys : List Int) (k : Nat) (t : Tables) : Prop where
  binary : Binary ys
  ok : ∀ i j, i ≤ ys.length → j ≤ k → CellOk ys t i j
  first : ∀ i j, i ≤ ys.length → j ≤ k → CellFirst ys t i j

/-- **The loops fill the tables** with the first of the best. -/
theorem exists_solved (h : Binary ys) (k : Nat) :
    ∃ t, fill ys (0 :: cumsum ys) k = some t ∧ Solved ys k t := by
  have hstart : FirstTo ys k 1 1 (Tables.start (0 :: cumsum ys)) := by
    intro a b _ _ _ l u hlast
    cases hlast
  obtain ⟨t, ht, hfilled, hfirst⟩ := Loops.foldlM_range' 1 ys.length
    (I := fun i t => FilledTo ys k i 1 t ∧ FirstTo ys k i 1 t) ⟨start_filled h k, hstart⟩
    fun i t hi him hrow => by
      obtain ⟨t', ht', hfilled, hfirst⟩ := Loops.foldlM_range' 1 k
        (f := fillCell ys (0 :: cumsum ys) i)
        (I := fun j t => FilledTo ys k i j t ∧ FirstTo ys k i j t) hrow
        fun j t hj hjk hI => fillCell_first h hi (by omega) hj (by omega) hI.1 hI.2
      have hrow' : ∀ a b, b ≤ k → Filled (i + 1) 1 a b → Filled i (1 + k) a b := by
        intro a b hb hcell
        unfold Filled at hcell ⊢
        omega
      exact ⟨t', ht', fun a b ha hb hcell => hfilled a b ha hb (hrow' a b hb hcell),
        fun a b ha hb hcell => hfirst a b ha hb (hrow' a b hb hcell)⟩
  have hall : ∀ a b, a ≤ ys.length → Filled (1 + ys.length) 1 a b := by
    intro a b ha
    unfold Filled
    omega
  exact ⟨t, ht, h, fun a b ha hb => hfilled a b ha hb (hall a b ha),
    fun a b ha hb => hfirst a b ha hb (hall a b ha)⟩

/-! ## Moving a boundary -/

theorem zero_nonneg (ys : List Int) (n : Nat) : 0 ≤ zero ys n := by
  unfold zero
  split <;> decide

theorem one_nonneg (ys : List Int) (n : Nat) : 0 ≤ one ys n := by
  unfold one
  split <;> decide

theorem lastCost_succ_left (ys : List Int) (i : Nat) (h : l < u) :
    lastCost ys l u i = zero ys l + lastCost ys (l + 1) u i := by
  rw [lastCost, lastCost, sum_eq_sum_Ico_succ_bot h, add_assoc]

theorem lastCost_succ_right (ys : List Int) (hlu : l ≤ u) (hui : u < i) :
    lastCost ys l (u + 1) i + one ys u = lastCost ys l u i + zero ys u := by
  rw [lastCost, lastCost, sum_Ico_succ_top hlu, sum_eq_sum_Ico_succ_bot hui]
  ring

/-- An empty range leaves the next point out. -/
theorem lastCost_empty (ys : List Int) (h : l < i) :
    lastCost ys l l i = one ys l + lastCost ys (l + 1) (l + 1) i := by
  rw [lastCost, lastCost, Ico_self, Ico_self, sum_eq_sum_Ico_succ_bot h, sum_empty, zero_add,
    zero_add]

theorem lastCost_self (ys : List Int) (i : Nat) : lastCost ys i i i = 0 := by
  simp [lastCost]

namespace Solved

/-- A point less costs no more. -/
theorem E_le_succ (h : Solved ys k t) (hi : i + 1 ≤ ys.length) (hj : j ≤ k) :
    t.E i j ≤ t.E (i + 1) j := by
  obtain ⟨c, hc, hle⟩ := exists_costs_pred (zero_nonneg ys) (one_nonneg ys)
    (h.ok (i + 1) j hi hj).least.1
  exact ((h.ok i j (by omega) hj).least.2 hc).trans hle

/-- A point more costs at most what it costs outside. -/
theorem E_succ_le (h : Solved ys k t) (hi : i + 1 ≤ ys.length) (hj : j ≤ k) :
    t.E (i + 1) j ≤ t.E i j + one ys i :=
  (h.ok (i + 1) j hi hj).least.2 (costs_succ (h.ok i j (by omega) hj).least.1)

variable (h : Solved ys k t) (him : i ≤ ys.length) (hjk : j + 1 ≤ k)
  (hP : t.P i (j + 1) = some (l, u))

include h him hjk hP

/-- The chosen range against another one. -/
theorem chosen_le (hlu : l' ≤ u') (hui : u' ≤ i) :
    t.E l j + lastCost ys l u i ≤ t.E l' j + lastCost ys l' u' i ∧
      (t.E l j + lastCost ys l u i = t.E l' j + lastCost ys l' u' i →
        l < l' ∨ (l = l' ∧ u ≤ u')) := by
  have hE := ((h.ok i (j + 1) him hjk).last l u hP).2.2
  have hfirst := h.first i (j + 1) him hjk l u hP l' u' hlu hui
  rw [hE] at hfirst
  exact hfirst

theorem bounds : l ≤ u ∧ u ≤ i := by
  obtain ⟨hlu, hui, -⟩ := (h.ok i (j + 1) him hjk).last l u hP
  exact ⟨hlu, hui⟩

/-- **The range does not begin behind the last point**: one that begins with this point is no
worse. -/
theorem lower_lt (hi : 1 ≤ i) : l < i := by
  obtain ⟨hlu, hui⟩ := h.bounds him hjk hP
  by_contra hle
  obtain rfl : l = i := by omega
  obtain rfl : u = l := by omega
  obtain ⟨n, rfl⟩ := Nat.exists_eq_add_of_le' hi
  have hless := h.E_le_succ him (show j ≤ k by omega)
  rcases h.binary.label n with hzero | hone
  · obtain ⟨hle, hfirst⟩ := h.chosen_le him hjk hP (le_refl n) (show n ≤ n + 1 by omega)
    have hempty := lastCost_empty ys (show n < n + 1 by omega)
    have hout : one ys n = 0 := by simp [one, hzero]
    have := lastCost_self ys (n + 1)
    omega
  · obtain ⟨hle, hfirst⟩ := h.chosen_le him hjk hP (show n ≤ n + 1 by omega) (le_refl (n + 1))
    have hfull := lastCost_succ_left ys (n + 1) (show n < n + 1 by omega)
    have hin : zero ys n = 0 := by simp [zero, hone]
    have := lastCost_self ys (n + 1)
    omega

/-- The point before the lower boundary has label 0: a range that takes it in is no worse. -/
theorem label_below (hl : 1 ≤ l) : label ys (l - 1) = 0 := by
  obtain ⟨hlu, hui⟩ := h.bounds him hjk hP
  obtain ⟨n, rfl⟩ := Nat.exists_eq_add_of_le' hl
  rw [Nat.add_sub_cancel]
  rcases h.binary.label n with hzero | hone
  · exact hzero
  · obtain ⟨hle, hfirst⟩ := h.chosen_le him hjk hP (show n ≤ u by omega) hui
    have hless := h.E_le_succ (show n + 1 ≤ ys.length by omega) (show j ≤ k by omega)
    have hfull := lastCost_succ_left ys i (show n < u by omega)
    have hin : zero ys n = 0 := by simp [zero, hone]
    omega

/-- Only the range before the first point is empty. -/
theorem nonempty (hi : 1 ≤ i) (hl : 1 ≤ l) : l < u := by
  obtain ⟨hlu, hui⟩ := h.bounds him hjk hP
  have hli := h.lower_lt him hjk hP hi
  have hbelow := h.label_below him hjk hP hl
  by_contra hle
  obtain rfl : u = l := by omega
  obtain ⟨n, rfl⟩ := Nat.exists_eq_add_of_le' hl
  rw [Nat.add_sub_cancel] at hbelow
  obtain ⟨hle, hfirst⟩ := h.chosen_le him hjk hP (le_refl n) (show n ≤ i by omega)
  have hless := h.E_le_succ (show n + 1 ≤ ys.length by omega) (show j ≤ k by omega)
  have hempty := lastCost_empty ys (show n < i by omega)
  have hout : one ys n = 0 := by simp [one, hbelow]
  omega

/-- A range begins with label 1: one that leaves a first zero out is better. -/
theorem label_lower (hlu : l < u) : label ys l = 1 := by
  have hui := (h.bounds him hjk hP).2
  rcases h.binary.label l with hzero | hone
  · have hle := (h.chosen_le him hjk hP (show l + 1 ≤ u by omega) hui).1
    have hmore := h.E_succ_le (show l + 1 ≤ ys.length by omega) (show j ≤ k by omega)
    have hfull := lastCost_succ_left ys i hlu
    have hin : zero ys l = 1 := by simp [zero, hzero]
    have hout : one ys l = 0 := by simp [one, hzero]
    omega
  · exact hone

/-- And it ends with label 1. -/
theorem label_upper (hlu : l < u) : label ys (u - 1) = 1 := by
  have hui := (h.bounds him hjk hP).2
  obtain ⟨n, rfl⟩ := Nat.exists_eq_add_of_le' (show 1 ≤ u by omega)
  rw [Nat.add_sub_cancel]
  rcases h.binary.label n with hzero | hone
  · have hle := (h.chosen_le him hjk hP (show l ≤ n by omega) (show n ≤ i by omega)).1
    have hstep := lastCost_succ_right ys (show l ≤ n by omega) (show n < i by omega)
    have hin : zero ys n = 1 := by simp [zero, hzero]
    have hout : one ys n = 0 := by simp [one, hzero]
    omega
  · exact hone

/-- Behind a range comes label 0: one that takes a following 1 in is better. -/
theorem label_above (hui : u < i) : label ys u = 0 := by
  have hlu := (h.bounds him hjk hP).1
  rcases h.binary.label u with hzero | hone
  · exact hzero
  · have hle := (h.chosen_le him hjk hP (show l ≤ u + 1 by omega) hui).1
    have hstep := lastCost_succ_right ys hlu hui
    have hin : zero ys u = 0 := by simp [zero, hone]
    have hout : one ys u = 1 := by simp [one, hone]
    omega

end Solved

/-! ## The way back -/

/-- Each boundary of a range has points of different labels on its two sides; the empty range
before the first point is taken only if this point has label 0. -/
structure Tight (ys : List Int) (r : Bounds) : Prop where
  lower : 1 ≤ r.1 → r.1 < ys.length ∧ label ys (r.1 - 1) = 0 ∧ label ys r.1 = 1
  upper : r.2 < ys.length → label ys r.2 = 0 ∧ (1 ≤ r.2 → label ys (r.2 - 1) = 1)

/-- The range of a cell, if the point in front of its upper bound has label 0. -/
theorem Solved.tight (h : Solved ys k t) (hi : 1 ≤ i) (him : i ≤ ys.length) (hjk : j + 1 ≤ k)
    (hP : t.P i (j + 1) = some (l, u)) (hbound : i < ys.length → label ys (i - 1) = 0) :
    Tight ys (l, u) := by
  have hui := (h.bounds him hjk hP).2
  have hli := h.lower_lt him hjk hP hi
  have hlu : 1 ≤ u → l < u := by
    intro hu
    rcases Nat.eq_zero_or_pos l with hl | hl
    · omega
    · exact h.nonempty him hjk hP hi hl
  constructor
  · intro hl
    exact ⟨by dsimp only; omega, h.label_below him hjk hP hl,
      h.label_lower him hjk hP (h.nonempty him hjk hP hi hl)⟩
  · intro hum
    dsimp only at hum ⊢
    refine ⟨?_, fun hu => h.label_upper him hjk hP (hlu hu)⟩
    rcases Nat.lt_or_ge u i with hlt | hge
    · exact h.label_above him hjk hP hlt
    · -- at the bound the label would be 0 and 1
      obtain rfl : u = i := by omega
      have hzero := hbound hum
      have hone := h.label_upper him hjk hP hli
      omega

theorem exists_range (h : Solved ys k t) (hi : 1 ≤ i) (him : i ≤ ys.length) (hjk : j + 1 ≤ k) :
    ∃ l u, t.P i (j + 1) = some (l, u) := by
  cases hP : t.P i (j + 1) with
  | none =>
    have hborder := (h.ok i (j + 1) him hjk).none_iff.mp hP
    omega
  | some r => exact ⟨r.1, r.2, rfl⟩

/-- One step of the way back: the range of the cell, and the way from the cell below it. -/
theorem extract_cell {P : Nat → Nat → Option Bounds} {best : List Bounds}
    (hP : P i (j + 1) = some (l, u)) : extract P (j + 1) (P i (j + 1)) best =
      if P l j = none then some (best ++ [(l, u)])
      else extract P j (P l j) (best ++ [(l, u)]) := by
  rw [hP, extract, Option.bind_eq_bind, Option.bind_some]
  dsimp only
  cases P l j with
  | none => rfl
  | some next => rfl

/-- **All extracted ranges separate labels.** Induction on the number of ranges left. -/
theorem extract_tight (h : Solved ys k t) (hi : 1 ≤ i) (him : i ≤ ys.length) (hj : 1 ≤ j)
    (hjk : j ≤ k) (hbound : i < ys.length → label ys (i - 1) = 0) {best result : List Bounds}
    (hextract : extract t.P j (t.P i j) best = some result) :
    ∀ r ∈ result, r ∈ best ∨ Tight ys r := by
  induction j generalizing i best with
  | zero => omega
  | succ j ih =>
    obtain ⟨l, u, hP⟩ := exists_range h hi him hjk
    have htight := h.tight hi him hjk hP hbound
    have hhere : ∀ r ∈ best ++ [(l, u)], r ∈ best ∨ Tight ys r := by
      intro r hr
      rcases List.mem_append.mp hr with hr | hr
      · exact .inl hr
      · obtain rfl := List.mem_singleton.mp hr
        exact .inr htight
    rw [extract_cell hP] at hextract
    split at hextract
    · obtain rfl := Option.some.inj hextract
      exact hhere
    · next hnext =>
      have hli := h.lower_lt him hjk hP hi
      have hinner : ¬ (l = 0 ∨ j = 0) :=
        mt (h.ok l j (by omega) (by omega)).none_iff.mpr hnext
      have hbelow := fun _ : l < ys.length => h.label_below him hjk hP (by omega)
      have hrest := ih (by omega) (by omega) (by omega) (by omega) hbelow hextract
      intro r hr
      rcases hrest r hr with hr | hr
      · exact hhere r hr
      · exact .inr hr

/-- **The empty range at the beginning** is reached when there are more ranges than points, since
each range begins below the one before it. -/
theorem extract_nil_range (h : Solved ys k t) (hi : 1 ≤ i) (him : i ≤ ys.length) (hij : i < j)
    (hjk : j ≤ k) (hzero : label ys 0 = 0) {best result : List Bounds}
    (hextract : extract t.P j (t.P i j) best = some result) : (0, 0) ∈ result := by
  induction j generalizing i best with
  | zero => omega
  | succ j ih =>
    obtain ⟨l, u, hP⟩ := exists_range h hi him hjk
    have hli := h.lower_lt him hjk hP hi
    have hnone := (h.ok l j (by omega) (by omega)).none_iff
    rw [extract_cell hP] at hextract
    rcases Nat.eq_zero_or_pos l with rfl | hl
    · rw [if_pos (hnone.mpr (.inl rfl))] at hextract
      obtain rfl := Option.some.inj hextract
      -- a range with points in it would begin with label 1
      have hu : u = 0 := by
        by_contra hne
        have hone := h.label_lower him hjk hP (Nat.pos_of_ne_zero hne)
        omega
      simp [hu]
    · have hinner : t.P l j ≠ none := mt hnone.mp (by omega)
      rw [if_neg hinner] at hextract
      exact ih hl (by omega) (by omega) (by omega) hextract

end

end OsHw.Hw1
