import Mathlib.Tactic.Common

/-!
# OsHw — the fields of a line

The elements of a list that satisfy `p` separate its fields. Separators may stand before the first
field and behind the last one, and any number of them between two fields.

* **`fields p s`** — the fields, in their order; none of them is empty.
* **`Laid p ws s`** — the words `ws` are laid out in `s`, one after the other.
* **`fields_eq_iff`** — the fields of a list are the words that are laid out in it.
-/

namespace Fields

variable {α : Type*} {p : α → Bool} {c : α} {w s : List α} {ws : List (List α)}

def fields (p : α → Bool) (s : List α) : List (List α) :=
  (s.splitOnP p).filter fun w => !w.isEmpty

/-- A field has elements, and none of them is a separator. -/
def Word (p : α → Bool) (w : List α) : Prop := w ≠ [] ∧ ∀ c ∈ w, p c = false

inductive Laid (p : α → Bool) : List (List α) → List α → Prop where
  | nil {gap : List α} (hgap : ∀ c ∈ gap, p c = true) : Laid p [] gap
  | last {gap w : List α} (hgap : ∀ c ∈ gap, p c = true) (hw : Word p w) : Laid p [w] (gap ++ w)
  | cons {gap w s : List α} {c : α} {ws : List (List α)} (hgap : ∀ c ∈ gap, p c = true)
      (hw : Word p w) (hc : p c = true) (h : Laid p ws s) : Laid p (w :: ws) (gap ++ w ++ c :: s)

/-- The first element that does not satisfy `q`, if there is one. -/
theorem exists_span (q : α → Bool) (s : List α) : (∀ c ∈ s, q c = true) ∨
    ∃ before c after, s = before ++ c :: after ∧ (∀ b ∈ before, q b = true) ∧ q c = false := by
  induction s with
  | nil => exact Or.inl fun _ hc => absurd hc List.not_mem_nil
  | cons c s ih =>
    cases hc : q c with
    | false => exact Or.inr ⟨[], c, s, rfl, fun _ hb => absurd hb List.not_mem_nil, hc⟩
    | true =>
      rcases ih with hall | ⟨before, d, after, rfl, hbefore, hd⟩
      · exact Or.inl (List.forall_mem_cons.mpr ⟨hc, hall⟩)
      · exact Or.inr ⟨c :: before, d, after, rfl, List.forall_mem_cons.mpr ⟨hc, hbefore⟩, hd⟩

/-! ## Computing the fields -/

@[simp] theorem fields_nil : fields p [] = [] := by
  rw [fields, List.splitOnP_nil]
  rfl

theorem fields_cons_of_sep (hc : p c = true) (s : List α) : fields p (c :: s) = fields p s := by
  rw [fields, List.splitOnP_cons_eq_if_modifyHead, if_pos hc]
  exact List.filter_cons_of_neg (by simp)

/-- Separators in front do not matter. -/
theorem fields_gap {gap : List α} (hgap : ∀ c ∈ gap, p c = true) (s : List α) :
    fields p (gap ++ s) = fields p s := by
  induction gap with
  | nil => rfl
  | cons c gap ih =>
    rw [List.forall_mem_cons] at hgap
    rw [List.cons_append, fields_cons_of_sep hgap.1, ih hgap.2]

theorem Word.not_isEmpty (hw : Word p w) : (!w.isEmpty) = true := by
  rw [Bool.not_eq_true', List.isEmpty_eq_false_iff]
  exact hw.1

theorem fields_word (hw : Word p w) : fields p w = [w] := by
  rw [fields, List.splitOnP_eq_singleton hw.2]
  exact List.filter_cons_of_pos hw.not_isEmpty

theorem fields_word_sep (hw : Word p w) (hc : p c = true) (s : List α) :
    fields p (w ++ c :: s) = w :: fields p s := by
  rw [fields, List.splitOnP_append_cons_of_forall_mem hw.2 c hc]
  exact List.filter_cons_of_pos hw.not_isEmpty

/-! ## The fields are what is laid out -/

theorem Laid.fields_eq (h : Laid p ws s) : fields p s = ws := by
  induction h with
  | @nil gap hgap => rw [← List.append_nil gap, fields_gap hgap, fields_nil]
  | last hgap hw => rw [fields_gap hgap, fields_word hw]
  | cons hgap hw hc _ ih => rw [List.append_assoc, fields_gap hgap, fields_word_sep hw hc, ih]

/-- In every list some words are laid out. Induction on its length: what is behind the first field
is shorter. -/
theorem exists_laid (p : α → Bool) (s : List α) : ∃ ws, Laid p ws s := by
  induction hn : s.length using Nat.strongRecOn generalizing s with
  | ind n ih =>
    rcases exists_span p s with hall | ⟨gap, c, body, rfl, hgap, hc⟩
    · exact ⟨[], .nil hall⟩
    have hfirst := exists_span (fun d => !p d) body
    rcases hfirst with hall | ⟨w, d, rest, rfl, hw, hd⟩
    · have hword : Word p (c :: body) :=
        ⟨List.cons_ne_nil c body, List.forall_mem_cons.mpr ⟨hc, by simpa using hall⟩⟩
      exact ⟨[c :: body], .last hgap hword⟩
    · have hword : Word p (c :: w) :=
        ⟨List.cons_ne_nil c w, List.forall_mem_cons.mpr ⟨hc, by simpa using hw⟩⟩
      have hlt : rest.length < n := by
        rw [← hn, List.length_append, List.length_cons, List.length_append, List.length_cons]
        omega
      obtain ⟨ws, hlaid⟩ := ih rest.length hlt rest rfl
      have hsplit : gap ++ c :: (w ++ d :: rest) = gap ++ (c :: w) ++ d :: rest := by
        rw [List.append_assoc, List.cons_append]
      exact ⟨(c :: w) :: ws, hsplit ▸ .cons hgap hword (by simpa using hd) hlaid⟩

/-- **The fields** of a list are the words that are laid out in it. -/
theorem fields_eq_iff : fields p s = ws ↔ Laid p ws s := by
  constructor
  · rintro rfl
    obtain ⟨ws, hlaid⟩ := exists_laid p s
    rw [hlaid.fields_eq]
    exact hlaid
  · exact Laid.fields_eq

end Fields
