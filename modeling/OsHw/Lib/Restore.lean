import OsHw.Lib.Substitute

/-!
# OsHw — what a replacement leaves behind

* **`substitute_restores`** — replacing a word by one that begins with a fresh element can be
  undone: the new word occurs only where the old one was.
* **`search_substitute`** — where neither word has the first element of the other one, the old word
  does not occur any more, not even across the places where something was put in.
-/

namespace Substitute

variable {α : Type*} [DecidableEq α] {w r s v : List α} {c d e : α}

theorem mem_substitute (hw : w ≠ []) (hc : c ∈ substitute w r s) : c ∈ r ∨ c ∈ s := by
  induction hn : s.length using Nat.strongRecOn generalizing s with
  | ind n ih =>
    cases s with
    | nil => exact Or.inr hc
    | cons d s =>
      rw [List.length_cons] at hn
      by_cases hmatch : w <+: d :: s
      · have hpos := List.length_pos_iff.mpr hw
        rw [substitute_of_match hw hmatch, List.mem_append] at hc
        refine hc.elim Or.inl fun hc => (ih _ ?_ hc rfl).imp_right List.mem_of_mem_drop
        rw [List.length_drop, List.length_cons]
        omega
      · rw [substitute_cons hmatch, List.mem_cons] at hc
        rcases hc with rfl | hc
        · exact Or.inr List.mem_cons_self
        · exact (ih s.length (by omega) hc rfl).imp_right (List.mem_cons_of_mem d)

/-! ## The old word -/

/-- A prefix without the first element of the new word was there before. Induction on the pass. -/
theorem prefix_of_prefix_substitute (hw : w ≠ []) (he : e ∉ v)
    (h : v <+: substitute w (e :: r) s) : v <+: s := by
  induction s generalizing v with
  | nil => exact h
  | cons c s ih =>
    cases v with
    | nil => exact List.nil_prefix
    | cons d v =>
      by_cases hmatch : w <+: c :: s
      · rw [substitute_of_match hw hmatch, List.cons_append, List.cons_prefix_cons] at h
        exact absurd (by rw [h.1]; exact List.mem_cons_self) he
      · rw [substitute_cons hmatch, List.cons_prefix_cons] at h
        rw [List.cons_prefix_cons]
        exact ⟨h.1, ih (mt (List.mem_cons_of_mem d) he) h.2⟩

omit [DecidableEq α] in
/-- No occurrence begins within the new word. -/
theorem not_prefix_drop_append (hd : d ∉ r) (hs : ∀ j, ¬ d :: w <+: s.drop j) (j : ℕ) :
    ¬ d :: w <+: (r ++ s).drop j := by
  rcases Nat.lt_or_ge j r.length with hlt | hge
  · rw [List.drop_append_of_le_length (Nat.le_of_lt hlt), List.drop_eq_getElem_cons hlt,
      List.cons_append, List.cons_prefix_cons]
    rintro ⟨rfl, -⟩
    exact hd (List.getElem_mem hlt)
  · obtain ⟨n, rfl⟩ := Nat.exists_eq_add_of_le hge
    rw [← List.drop_drop, List.drop_left]
    exact hs n

/-- **The old word is gone.** Induction on the length: behind a match the pass goes on further
down. -/
theorem search_substitute (hd : d ∉ e :: r) (he : e ∉ d :: w) :
    search (d :: w) (substitute (d :: w) (e :: r) s) = none := by
  have hw : d :: w ≠ [] := List.cons_ne_nil d w
  rw [search_eq_none_iff]
  induction hn : s.length using Nat.strongRecOn generalizing s with
  | ind n ih =>
    cases s with
    | nil =>
      have hnil : substitute (d :: w) (e :: r) [] = [] := rfl
      intro j
      rw [hnil, List.drop_nil, List.prefix_nil]
      exact hw
    | cons c s =>
      rw [List.length_cons] at hn
      by_cases hmatch : d :: w <+: c :: s
      · rw [substitute_of_match hw hmatch]
        refine not_prefix_drop_append hd (ih ((c :: s).drop (d :: w).length).length ?_ rfl)
        rw [List.length_drop, List.length_cons, List.length_cons]
        omega
      · intro j
        rw [substitute_cons hmatch]
        cases j with
        | zero =>
          -- an occurrence here would be one in the text itself
          intro h
          rw [List.drop_zero, List.cons_prefix_cons] at h
          have hbefore := prefix_of_prefix_substitute hw (mt (List.mem_cons_of_mem d) he) h.2
          exact hmatch (List.cons_prefix_cons.mpr ⟨h.1, hbefore⟩)
        | succ j => exact ih s.length (by omega) rfl j

/-! ## The new word -/

/-- **Back again.** If the text does not have the first element of the new word, replacing that
word by the old one restores the text. -/
theorem substitute_restores (hw : w ≠ []) (he : e ∉ s) :
    substitute (e :: r) w (substitute w (e :: r) s) = s := by
  have hr : e :: r ≠ [] := List.cons_ne_nil e r
  induction hn : s.length using Nat.strongRecOn generalizing s with
  | ind n ih =>
    cases s with
    | nil => rfl
    | cons c s =>
      rw [List.length_cons] at hn
      by_cases hmatch : w <+: c :: s
      · have hpos := List.length_pos_iff.mpr hw
        have hrest := ih ((c :: s).drop w.length).length
          (by rw [List.length_drop, List.length_cons]; omega) (mt List.mem_of_mem_drop he) rfl
        rw [substitute_of_match hw hmatch, substitute_of_match hr (List.prefix_append _ _),
          List.drop_left, hrest]
        exact List.prefix_iff_eq_append.mp hmatch
      · have hnot : ¬ e :: r <+: c :: substitute w (e :: r) s := by
          intro h
          rw [List.cons_prefix_cons] at h
          exact he (by rw [h.1]; exact List.mem_cons_self)
        rw [substitute_cons hmatch, substitute_cons hnot,
          ih s.length (by omega) (mt (List.mem_cons_of_mem c) he) rfl]

end Substitute
