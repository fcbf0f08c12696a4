import OsHw.Lib.Segments

/-!
# OsHw — the blocks of a predicate, and how many ranges cover it

The numbers below `m` with a property come in blocks. Covering exactly these numbers takes as many
ranges as there are blocks, whether or not the ranges may overlap.

* **`blocks p m`** — the numbers at which a block begins.
* **`exists_descending_of_blocks`** — a range for each block.
* **`card_blocks_le`** — fewer ranges do not do.
* **`exists_descending_of_covered`** — so overlapping ranges cover nothing that as many ranges in
  order do not.
* **`costs_exchange`** — two predicates whose numbers of blocks differ by two or more can be cut
  at one place and put together crosswise, so that each of the results has a block more than the
  one, or a block less than the other.
-/

namespace Segments

open Finset

variable {p : ℕ → Prop} [DecidablePred p] {F : List (ℕ × ℕ)} {i m : ℕ}

/-- The numbers below `m` at which a block of `p` begins. -/
def blocks (p : ℕ → Prop) [DecidablePred p] (m : ℕ) : Finset ℕ :=
  (range m).filter fun i => p i ∧ (i = 0 ∨ ¬ p (i - 1))

theorem mem_blocks : i ∈ blocks p m ↔ i < m ∧ p i ∧ (i = 0 ∨ ¬ p (i - 1)) := by
  rw [blocks, mem_filter, mem_range]

/-- A number that begins no block adds none. -/
theorem blocks_succ_of_not (h : ¬ (p m ∧ (m = 0 ∨ ¬ p (m - 1)))) :
    blocks p (m + 1) = blocks p m := by
  rw [blocks, range_add_one, filter_insert, if_neg h]
  rfl

theorem card_blocks_succ (h : p m ∧ (m = 0 ∨ ¬ p (m - 1))) :
    (blocks p (m + 1)).card = (blocks p m).card + 1 := by
  rw [blocks, range_add_one, filter_insert, if_pos h, card_insert_of_notMem]
  · rfl
  · rw [mem_filter, mem_range]
    exact fun hin => lt_irrefl m hin.1

/-- A descending family without empty ranges that covers the last number reaches up to it. -/
theorem Descending.of_covered_last (h : Descending (m + 1) F) (hpos : ∀ r ∈ F, r.1 < r.2)
    (hcov : Covered F m) : ∃ l G, F = (l, m + 1) :: G ∧ l ≤ m ∧ Descending l G := by
  cases h with
  | nil => exact absurd hcov covered_nil
  | @cons _ l u G hlu hui hG =>
    have hlt : l < u := hpos (l, u) (by simp)
    rcases covered_cons.mp hcov with hin | hin
    · obtain ⟨hle, hup⟩ := hin
      dsimp only at hle hup
      obtain rfl : u = m + 1 := by omega
      exact ⟨l, G, rfl, hle, hG⟩
    · exact absurd hin (hG.not_covered (by omega))

/-- **A range for each block.** Induction on the bound: a number that goes on with a block makes
its range longer. -/
theorem exists_descending_of_blocks (p : ℕ → Prop) [DecidablePred p] (m : ℕ) :
    ∃ F, Descending m F ∧ (∀ r ∈ F, r.1 < r.2) ∧ F.length = (blocks p m).card ∧
      ∀ n < m, Covered F n ↔ p n := by
  induction m with
  | zero => exact ⟨[], .nil 0, nofun, rfl, nofun⟩
  | succ m ih =>
    obtain ⟨F, hF, hpos, hlen, hcov⟩ := ih
    by_cases hm : p m
    · by_cases hfirst : m = 0 ∨ ¬ p (m - 1)
      · -- the number begins a block
        refine ⟨(m, m + 1) :: F, .cons (Nat.le_succ m) le_rfl hF, ?_, ?_, fun n hn => ?_⟩
        · rintro r hr
          rcases List.mem_cons.mp hr with rfl | hr
          · exact Nat.lt_succ_self m
          · exact hpos r hr
        · rw [List.length_cons, hlen, card_blocks_succ ⟨hm, hfirst⟩]
        · rw [covered_cons]
          rcases Nat.lt_succ_iff_lt_or_eq.mp hn with hlt | rfl
          · rw [hcov n hlt]
            exact or_iff_right fun hin => absurd hin.1 (by dsimp only; omega)
          · exact iff_of_true (Or.inl ⟨le_rfl, Nat.lt_succ_self n⟩) hm
      · -- it goes on with one
        rw [not_or, not_not] at hfirst
        obtain ⟨n, rfl⟩ := Nat.exists_eq_succ_of_ne_zero hfirst.1
        have hlast : Covered F n := (hcov n (Nat.lt_succ_self n)).mpr hfirst.2
        obtain ⟨l, G, rfl, hle, hG⟩ := hF.of_covered_last hpos hlast
        refine ⟨(l, n + 2) :: G, .cons (by omega) le_rfl hG, ?_, ?_, fun k hk => ?_⟩
        · rintro r hr
          rcases List.mem_cons.mp hr with rfl | hr
          · show l < n + 2
            omega
          · exact hpos r (List.mem_cons_of_mem _ hr)
        · rw [blocks_succ_of_not (by rw [not_and, not_or, not_not]; exact fun _ => hfirst), ← hlen]
          rfl
        · rw [covered_cons]
          rcases Nat.lt_succ_iff_lt_or_eq.mp hk with hlt | rfl
          · rw [← hcov k hlt, covered_cons]
            refine or_congr_left (and_congr_right fun _ => ?_)
            dsimp only
            omega
          · exact iff_of_true (Or.inl ⟨by dsimp only; omega, Nat.lt_succ_self _⟩) hm
    · refine ⟨F, hF.mono (Nat.le_succ m), hpos, ?_, fun n hn => ?_⟩
      · rw [blocks_succ_of_not fun h => hm h.1, hlen]
      · rcases Nat.lt_succ_iff_lt_or_eq.mp hn with hlt | rfl
        · exact hcov n hlt
        · exact iff_of_false (hF.not_covered le_rfl) hm

/-- **Fewer ranges do not do**: the first number of a block is the lower bound of a range. -/
theorem card_blocks_le (hcov : ∀ n < m, Covered F n ↔ p n) : (blocks p m).card ≤ F.length := by
  have hsub : blocks p m ⊆ (F.map Prod.fst).toFinset := by
    intro i hi
    obtain ⟨hlt, hp, hfirst⟩ := mem_blocks.mp hi
    obtain ⟨r, hr, hle, hup⟩ := (hcov i hlt).mpr hp
    rw [List.mem_toFinset, List.mem_map]
    refine ⟨r, hr, le_antisymm hle ?_⟩
    by_contra hbelow
    -- otherwise the number before is in the range too
    rcases hfirst with rfl | hnot
    · omega
    · exact hnot ((hcov (i - 1) (by omega)).mp ⟨r, hr, by omega, by omega⟩)
  have hcard := (card_le_card hsub).trans (List.toFinset_card_le _)
  rwa [List.length_map] at hcard

/-- **Ranges in order** cover what as many overlapping ones do. -/
theorem exists_descending_of_covered (F : List (ℕ × ℕ)) (m : ℕ) :
    ∃ G, Descending m G ∧ G.length ≤ F.length ∧ ∀ n < m, Covered G n ↔ Covered F n := by
  obtain ⟨G, hG, -, hlen, hcov⟩ := exists_descending_of_blocks (Covered F) m
  refine ⟨G, hG, ?_, hcov⟩
  rw [hlen]
  exact card_blocks_le fun n _ => Iff.rfl

/-! ## Cutting two predicates -/

/-- A step down by at most one at a time leaves nothing out. -/
theorem exists_eq_of_steps {f : ℕ → ℤ} {y : ℤ} {n : ℕ} (hstart : y ≤ f 0)
    (hstep : ∀ t, f t - 1 ≤ f (t + 1)) (hend : f n ≤ y) : ∃ t ≤ n, f t = y := by
  induction n with
  | zero => exact ⟨0, le_rfl, le_antisymm hend hstart⟩
  | succ n ih =>
    by_cases hn : f n ≤ y
    · obtain ⟨t, ht, heq⟩ := ih hn
      exact ⟨t, ht.trans (Nat.le_succ n), heq⟩
    · have hdown := hstep n
      exact ⟨n + 1, le_rfl, by omega⟩

section Cut

variable {q : ℕ → Prop} [DecidablePred q] {t : ℕ}

/-- The number before `t` has the property. -/
def Before (p : ℕ → Prop) (t : ℕ) : Prop := t ≠ 0 ∧ p (t - 1)

instance : Decidable (Before p t) := inferInstanceAs (Decidable (_ ∧ _))

/-- How often `p` begins or ends in front of `t`. -/
def changes (p : ℕ → Prop) [DecidablePred p] (t : ℕ) : ℤ :=
  2 * (blocks p t).card - if Before p t then 1 else 0

/-- It begins or ends at a number, or neither. -/
theorem changes_succ (p : ℕ → Prop) [DecidablePred p] (t : ℕ) :
    changes p t ≤ changes p (t + 1) ∧ changes p (t + 1) ≤ changes p t + 1 := by
  have hbefore : Before p (t + 1) ↔ p t := and_iff_right (Nat.succ_ne_zero t)
  have hfirst : (t = 0 ∨ ¬ p (t - 1)) ↔ ¬ Before p t := by
    rw [Before, not_and_or, not_not]
  unfold changes
  by_cases hp : p t
  · by_cases hb : Before p t
    · rw [blocks_succ_of_not fun h => hfirst.mp h.2 hb, if_pos (hbefore.mpr hp), if_pos hb]
      omega
    · rw [card_blocks_succ ⟨hp, hfirst.mpr hb⟩, if_pos (hbefore.mpr hp), if_neg hb]
      omega
  · rw [blocks_succ_of_not fun h => hp h.1, if_neg (mt hbefore.mp hp)]
    split <;> omega

/-- `p` in front of `t`, and `q` from there on. -/
def splice (p q : ℕ → Prop) (t n : ℕ) : Prop := if n < t then p n else q n

instance : DecidablePred (splice p q t) := fun n => by
  unfold splice
  infer_instance

/-- The blocks that begin in front of `t`. -/
theorem filter_blocks_lt (ht : t ≤ m) : (blocks p m).filter (· < t) = blocks p t := by
  ext i
  rw [mem_filter, mem_blocks, mem_blocks]
  constructor
  · rintro ⟨⟨-, hp⟩, hlt⟩
    exact ⟨hlt, hp⟩
  · rintro ⟨hlt, hp⟩
    exact ⟨⟨hlt.trans_le ht, hp⟩, hlt⟩

/-- **A cut where both go on alike** neither makes a block nor loses one. -/
theorem card_blocks_splice (ht : t ≤ m) (hcut : Before p t ↔ Before q t) :
    (blocks (splice p q t) m).card + (blocks q t).card =
      (blocks p t).card + (blocks q m).card := by
  have hfront : blocks (splice p q t) t = blocks p t := by
    ext i
    rw [mem_blocks, mem_blocks]
    refine and_congr_right fun hlt => ?_
    have hpred : i - 1 < t := by omega
    rw [splice, splice, if_pos hlt, if_pos hpred]
  have hback : (blocks (splice p q t) m).filter (¬ · < t) = (blocks q m).filter (¬ · < t) := by
    ext i
    rw [mem_filter, mem_filter, mem_blocks, mem_blocks]
    refine and_congr_left fun hge => and_congr_right fun _ => ?_
    rw [splice, if_neg hge]
    refine and_congr_right fun _ => ?_
    by_cases hzero : i = 0
    · rw [hzero]
      simp
    · rw [splice]
      by_cases hpred : i - 1 < t
      · -- the first number behind the cut
        obtain rfl : i = t := by omega
        rw [if_pos hpred, or_iff_right hzero, or_iff_right hzero]
        unfold Before at hcut
        tauto
      · rw [if_neg hpred]
  have hleft := card_filter_add_card_filter_not (s := blocks (splice p q t) m) (· < t)
  have hright := card_filter_add_card_filter_not (s := blocks q m) (· < t)
  rw [filter_blocks_lt ht, hfront, hback] at hleft
  rw [filter_blocks_lt ht] at hright
  omega

/-- **A place to cut.** The changes of the two drift apart one at a time, so somewhere they are
apart by two; there both go on alike, and one has begun one block more than the other. -/
theorem exists_cut (h : (blocks p m).card + 2 ≤ (blocks q m).card) :
    ∃ t ≤ m, (Before p t ↔ Before q t) ∧ (blocks p t).card + 1 = (blocks q t).card := by
  have hstart : (-2 : ℤ) ≤ changes p 0 - changes q 0 := by
    have hzero : ∀ r : ℕ → Prop, [DecidablePred r] → changes r 0 = 0 := fun r _ => rfl
    rw [hzero p, hzero q]
    decide
  have hend : changes p m - changes q m ≤ -2 := by
    unfold changes
    split <;> split <;> omega
  have hstep : ∀ t, changes p t - changes q t - 1 ≤ changes p (t + 1) - changes q (t + 1) := by
    intro t
    have hp := changes_succ p t
    have hq := changes_succ q t
    omega
  obtain ⟨t, ht, heq⟩ := exists_eq_of_steps (f := fun t => changes p t - changes q t) hstart hstep
    hend
  refine ⟨t, ht, ?_⟩
  unfold changes at heq
  by_cases hp : Before p t
  · by_cases hq : Before q t
    · rw [if_pos hp, if_pos hq] at heq
      exact ⟨iff_of_true hp hq, by omega⟩
    · rw [if_pos hp, if_neg hq] at heq
      omega
  · by_cases hq : Before q t
    · rw [if_neg hp, if_pos hq] at heq
      omega
    · rw [if_neg hp, if_neg hq] at heq
      exact ⟨iff_of_false hp hq, by omega⟩

end Cut

/-! ## Costs -/

section Cost

variable {M : Type*} [AddCommMonoid M] {a b : ℕ → M} {k : ℕ}

/-- The price of the numbers below `m`: `a` where they have the property, `b` where not. -/
def price (a b : ℕ → M) (m : ℕ) (p : ℕ → Prop) [DecidablePred p] : M :=
  ∑ i ∈ range m, if p i then a i else b i

/-- What at most `k` blocks cost, at most `k` ranges do. -/
theorem price_mem_costs (hp : (blocks p m).card ≤ k) : price a b m p ∈ costs a b m k := by
  obtain ⟨F, hF, -, hlen, hcov⟩ := exists_descending_of_blocks p m
  refine ⟨F, hF, hlen.trans_le hp, ?_⟩
  exact sum_congr rfl fun n hn => if_congr (hcov n (mem_range.mp hn)) rfl rfl

/-- And the other way round. -/
theorem exists_price {c : M} (hc : c ∈ costs a b m k) : ∃ p : ℕ → Prop, ∃ _ : DecidablePred p,
    (blocks p m).card ≤ k ∧ price a b m p = c := by
  obtain ⟨F, -, hlen, rfl⟩ := hc
  exact ⟨Covered F, inferInstance, (card_blocks_le fun n _ => Iff.rfl).trans hlen, rfl⟩

theorem costs_mono {j : ℕ} (hjk : j ≤ k) : costs a b m j ⊆ costs a b m k := by
  rintro c ⟨F, hF, hlen, rfl⟩
  exact ⟨F, hF, hlen.trans hjk, rfl⟩

/-- Put together crosswise, two predicates cost what they cost before. -/
theorem price_splice (p q : ℕ → Prop) [DecidablePred p] [DecidablePred q] (t : ℕ) :
    price a b m (splice p q t) + price a b m (splice q p t) = price a b m p + price a b m q := by
  unfold price
  rw [← sum_add_distrib, ← sum_add_distrib]
  refine sum_congr rfl fun n _ => ?_
  by_cases hn : n < t
  · simp only [splice, if_pos hn]
  · simp only [splice, if_neg hn]
    exact add_comm _ _

/-- **Exchange.** What at most `k` and at most `k + 2` ranges cost together, two families of at
most `k + 1` ranges do. -/
theorem costs_exchange {c d : M} (hc : c ∈ costs a b m k) (hd : d ∈ costs a b m (k + 2)) :
    ∃ c' ∈ costs a b m (k + 1), ∃ d' ∈ costs a b m (k + 1), c' + d' = c + d := by
  obtain ⟨p, _, hp, rfl⟩ := exists_price hc
  obtain ⟨q, _, hq, rfl⟩ := exists_price hd
  by_cases hmany : (blocks q m).card ≤ k + 1
  · exact ⟨_, costs_mono (Nat.le_succ k) hc, _, price_mem_costs hmany, rfl⟩
  · obtain ⟨t, ht, hcut, hone⟩ := exists_cut
      (show (blocks p m).card + 2 ≤ (blocks q m).card by omega)
    have hleft := card_blocks_splice ht hcut
    have hright := card_blocks_splice ht hcut.symm
    exact ⟨_, price_mem_costs (show (blocks (splice p q t) m).card ≤ k + 1 by omega),
      _, price_mem_costs (show (blocks (splice q p t) m).card ≤ k + 1 by omega),
      price_splice p q t⟩

end Cost

end Segments
