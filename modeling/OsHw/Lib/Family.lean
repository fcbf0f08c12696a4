import Mathlib.Data.List.Basic

/-!
# OsHw — families of threads as lists

The threads of a system are a list; one step replaces one entry. What an invariant says about
the threads together is a count (`List.countP`), a sum, or a fold with a commutative operation.

* **`exists_split`** — the entry at an index as the middle of `pre ++ a :: post`, where setting
  it is replacing the middle. Counts and sums then follow by `simp`, and what holds of all
  entries by `forall_replace`.
* **`fold`** — the fold of an operation over a measure of the entries; `fold_middle` takes the
  middle entry out when the operation is commutative and associative.
-/

namespace Family

variable {α β M : Type*}

/-- Split a list at an index: setting that entry replaces the middle of the split. -/
theorem exists_split {l : List α} {i : Nat} {a : α} (h : l[i]? = some a) :
    ∃ pre post, pre.length = i ∧ l = pre ++ a :: post ∧ ∀ b, l.set i b = pre ++ b :: post := by
  obtain ⟨hi, rfl⟩ := List.getElem?_eq_some_iff.mp h
  refine ⟨l.take i, l.drop (i + 1), by simp; omega, ?_, fun b => ?_⟩
  · rw [← List.drop_eq_getElem_cons hi, List.take_append_drop]
  · exact List.set_eq_take_append_cons_drop.trans (if_pos hi)

/-- What holds of all entries holds of the middle one and of the others. -/
theorem forall_middle {P : α → Prop} {pre post : List α} {a : α} :
    (∀ b ∈ pre ++ a :: post, P b) ↔ P a ∧ ∀ b ∈ pre ++ post, P b := by
  rw [List.forall_mem_append, List.forall_mem_cons, List.forall_mem_append]
  exact and_left_comm

/-- Replacing the middle entry needs a proof about the new one only. -/
theorem forall_replace {P : α → Prop} {pre post : List α} {a b : α}
    (h : ∀ c ∈ pre ++ a :: post, P c) (hb : P b) : ∀ c ∈ pre ++ b :: post, P c :=
  forall_middle.mpr ⟨hb, (forall_middle.mp h).2⟩

/-- If as many entries satisfy `q` as satisfy the stronger `p`, they are the same entries. -/
theorem of_countP_eq {p q : α → Bool} {l : List α} (hpq : ∀ a, p a → q a)
    (h : l.countP p = l.countP q) : ∀ a ∈ l, q a → p a := by
  induction l with
  | nil => simp
  | cons b l ih =>
    have hle : l.countP p ≤ l.countP q := List.countP_mono_left fun a _ => hpq a
    simp only [List.countP_cons] at h
    have hb : q b → p b := by
      intro hq
      by_contra hp
      simp only [hq, hp, if_true, if_false] at h
      omega
    have hrest : l.countP p = l.countP q := by
      by_cases hp : p b
      · simp only [hp, hpq b hp, if_true] at h
        omega
      · have hq : ¬ q b := fun hq => hp (hb hq)
        simp only [hp, hq, if_false, Bool.false_eq_true] at h
        omega
    intro a ha hq
    rcases List.mem_cons.mp ha with rfl | ha
    · exact hb hq
    · exact ih hrest a ha hq

/-! ## Folds -/

/-- The fold of `op` over `f a` for the entries `a`, ending in `e`. -/
def fold (op : M → M → M) (e : M) (f : α → M) : List α → M
  | [] => e
  | a :: l => op (f a) (fold op e f l)

variable {op : M → M → M} {e : M} {f g : α → M}

@[simp] theorem fold_nil : fold op e f [] = e := rfl

@[simp] theorem fold_cons (a : α) (l : List α) :
    fold op e f (a :: l) = op (f a) (fold op e f l) := rfl

@[simp] theorem fold_map (h : β → α) (l : List β) :
    fold op e f (l.map h) = fold op e (fun b => f (h b)) l := by
  induction l with
  | nil => rfl
  | cons b l ih => simp [ih]

/-- Entries that are measured alike fold alike. -/
theorem fold_congr {l : List α} (h : ∀ a ∈ l, f a = g a) : fold op e f l = fold op e g l := by
  induction l with
  | nil => rfl
  | cons a l ih =>
    rw [fold_cons, fold_cons, h a (by simp), ih fun b hb => h b (by simp [hb])]

/-- Entries that are all measured as a left unit fold to the end value. -/
theorem fold_eq_unit {l : List α} {z : M} (hz : op z e = e) (h : ∀ a ∈ l, f a = z) :
    fold op e f l = e := by
  induction l with
  | nil => rfl
  | cons a l ih => rw [fold_cons, ih fun b hb => h b (by simp [hb]), h a (by simp), hz]

/-- **The middle entry can be taken out first** when the order does not matter. -/
theorem fold_middle [hc : Std.Commutative op] [ha : Std.Associative op] (pre post : List α)
    (a : α) : fold op e f (pre ++ a :: post) = op (f a) (fold op e f (pre ++ post)) := by
  induction pre with
  | nil => rfl
  | cons b pre ih =>
    simp only [List.cons_append, fold_cons, ih]
    rw [← ha.assoc, hc.comm (f b), ha.assoc]

end Family
