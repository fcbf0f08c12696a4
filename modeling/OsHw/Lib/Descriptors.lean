import Mathlib.Tactic.Common

/-!
# OsHw — tables of file descriptors

A process refers to its open files by small numbers. Its table says which file is open under
which number; the files are of an arbitrary type.

* **`get`** / **`put`** — the file open under a number; `@[simp]` lemmas reduce the one on the
  other.
* **`close`**, **`dup2`** — as the system calls.
* **`pipe`** — opens the two ends of a pipe under the two lowest free numbers, the read end under
  the lower one.
* **`freeBelow`** — how many numbers below a limit are free; `pipe` needs two of them.
-/

namespace Descriptors

variable {α : Type*}

/-- The file open under each number; a number behind the end of the list is free. -/
abbrev Table (α : Type*) := List (Option α)

def get (t : Table α) (n : ℕ) : Option α := t[n]?.join

/-- Set an entry of the table. -/
def put : Table α → ℕ → Option α → Table α
  | [], 0, f => [f]
  | [], n + 1, f => none :: put [] n f
  | _ :: t, 0, f => f :: t
  | g :: t, n + 1, f => g :: put t n f

/-- Closing a number that is free changes nothing. -/
def close (t : Table α) (n : ℕ) : Table α := put t n none

/-- There is no result if `old` is free. If the two numbers are the same, nothing is closed. -/
def dup2 (t : Table α) (old new : ℕ) : Option (Table α) :=
  (get t old).map fun f => if old = new then t else put t new (some f)

def lowestFree : Table α → ℕ
  | [] => 0
  | none :: _ => 0
  | some _ :: t => lowestFree t + 1

/-- The numbers of the read end and of the write end, and the table with both. -/
def pipe (t : Table α) (readEnd writeEnd : α) : (ℕ × ℕ) × Table α :=
  let r := lowestFree t
  let t := put t r (some readEnd)
  let w := lowestFree t
  ((r, w), put t w (some writeEnd))

variable {t : Table α} {n old : ℕ} {g : α}

theorem get_nil (n : ℕ) : get ([] : Table α) n = none := rfl

@[simp] theorem get_put (t : Table α) (n m : ℕ) (f : Option α) :
    get (put t n f) m = if m = n then f else get t m := by
  induction t, n, f using put.induct generalizing m with
  | case1 f =>
    cases m with
    | zero => rfl
    | succ m => rfl
  | case2 n f ih =>
    cases m with
    | zero => rfl
    | succ m =>
      show get (put [] n f) m = _
      rw [ih]
      simp [get_nil]
  | case3 g t f =>
    cases m with
    | zero => rfl
    | succ m => rfl
  | case4 g t n f ih =>
    cases m with
    | zero => rfl
    | succ m =>
      show get (put t n f) m = _
      rw [ih]
      simp [get]

@[simp] theorem get_close (t : Table α) (n m : ℕ) :
    get (close t n) m = if m = n then none else get t m := get_put t n m none

/-- **`dup2`** opens the file of `old` under `new`. -/
theorem exists_dup2 (h : get t old = some g) (new : ℕ) : ∃ t', dup2 t old new = some t' ∧
    ∀ m, get t' m = if m = new then some g else get t m := by
  unfold dup2
  rw [h, Option.map_some]
  refine ⟨_, rfl, fun m => ?_⟩
  by_cases heq : old = new
  · rw [if_pos heq]
    by_cases hm : m = new
    · rw [if_pos hm, hm, ← heq, h]
    · rw [if_neg hm]
  · rw [if_neg heq, get_put]

theorem get_lowestFree (t : Table α) : get t (lowestFree t) = none := by
  induction t with
  | nil => rfl
  | cons f t ih =>
    cases f with
    | none => rfl
    | some f => exact ih

theorem get_of_lt (h : n < lowestFree t) : get t n ≠ none := by
  induction t generalizing n with
  | nil => cases h
  | cons f t ih =>
    cases f with
    | none => cases h
    | some f =>
      cases n with
      | zero =>
        intro hnone
        cases hnone
      | succ n => exact ih (Nat.lt_of_succ_lt_succ h)

theorem lowestFree_le (h : get t n = none) : lowestFree t ≤ n := by
  by_contra hlt
  exact get_of_lt (Nat.lt_of_not_le hlt) h

/-- **`pipe`** opens its ends under two free numbers, the read end under the lower one. -/
theorem exists_pipe (t : Table α) (readEnd writeEnd : α) :
    ∃ r w t', pipe t readEnd writeEnd = ((r, w), t') ∧ get t r = none ∧ get t w = none ∧ r < w ∧
      ∀ m, get t' m =
        if m = w then some writeEnd else if m = r then some readEnd else get t m := by
  have hr := get_lowestFree t
  have hw := get_lowestFree (put t (lowestFree t) (some readEnd))
  rw [get_put] at hw
  have hne : lowestFree (put t (lowestFree t) (some readEnd)) ≠ lowestFree t := by
    intro heq
    rw [if_pos heq] at hw
    cases hw
  rw [if_neg hne] at hw
  have hle := lowestFree_le hw
  refine ⟨_, _, _, rfl, hr, hw, by omega, fun m => ?_⟩
  rw [get_put, get_put]

/-! ## Running out of numbers -/

/-- The free numbers below `limit`. -/
def freeBelow (t : Table α) (limit : ℕ) : ℕ :=
  (List.range limit).countP fun n => (get t n).isNone

theorem freeBelow_congr {t' : Table α} (h : ∀ n, get t' n = get t n) (limit : ℕ) :
    freeBelow t' limit = freeBelow t limit := by
  simp only [freeBelow, h]

/-- A number that is not free any more. -/
theorem freeBelow_put {limit : ℕ} (hfree : get t n = none) (hn : n < limit) (f : α) :
    freeBelow (put t n (some f)) limit + 1 = freeBelow t limit := by
  induction limit with
  | zero => cases hn
  | succ limit ih =>
    simp only [freeBelow, List.range_succ, List.countP_append, List.countP_singleton, get_put]
    by_cases heq : limit = n
    · subst heq
      -- below the number nothing has changed
      have hsame : ∀ m ∈ List.range limit,
          (if m = limit then some f else get t m).isNone = true ↔ (get t m).isNone = true := by
        intro m hm
        rw [if_neg (Nat.ne_of_lt (List.mem_range.mp hm))]
      rw [List.countP_congr hsame, hfree, if_pos rfl]
      rfl
    · have hlt : n < limit := by omega
      have hrest := ih hlt
      simp only [freeBelow, get_put] at hrest
      rw [if_neg heq]
      omega

theorem freeBelow_pos_iff {limit : ℕ} : 0 < freeBelow t limit ↔ lowestFree t < limit := by
  rw [freeBelow, List.countP_pos_iff]
  constructor
  · rintro ⟨n, hn, hfree⟩
    exact Nat.lt_of_le_of_lt (lowestFree_le (Option.isNone_iff_eq_none.mp hfree))
      (List.mem_range.mp hn)
  · intro hlt
    exact ⟨_, List.mem_range.mpr hlt, Option.isNone_iff_eq_none.mpr (get_lowestFree t)⟩

/-- **Limits.** `pipe` has its numbers below a limit if two are free there, and takes these. -/
theorem pipe_lt_iff (t : Table α) (readEnd writeEnd : α) (limit : ℕ) :
    (pipe t readEnd writeEnd).1.2 < limit ↔ 2 ≤ freeBelow t limit := by
  have hfree := get_lowestFree t
  show lowestFree (put t (lowestFree t) (some readEnd)) < limit ↔ _
  rw [← freeBelow_pos_iff]
  by_cases hlt : lowestFree t < limit
  · have hput := freeBelow_put hfree hlt readEnd
    omega
  · have hnone : ¬ 0 < freeBelow t limit := mt freeBelow_pos_iff.mp hlt
    have hmore : ¬ 0 < freeBelow (put t (lowestFree t) (some readEnd)) limit := by
      rw [freeBelow_pos_iff]
      intro hlt'
      -- the second number is above the first one
      obtain ⟨r, w, t', hpipe, -, -, hrw, -⟩ := exists_pipe t readEnd writeEnd
      have hnumbers := congrArg Prod.fst hpipe
      have hr : lowestFree t = r := congrArg Prod.fst hnumbers
      have hw : lowestFree (put t (lowestFree t) (some readEnd)) = w := congrArg Prod.snd hnumbers
      omega
    omega

theorem freeBelow_pipe {limit : ℕ} {readEnd writeEnd : α}
    (hlt : (pipe t readEnd writeEnd).1.2 < limit) :
    freeBelow (pipe t readEnd writeEnd).2 limit + 2 = freeBelow t limit := by
  have htwo := (pipe_lt_iff t readEnd writeEnd limit).mp hlt
  have hr : lowestFree t < limit := freeBelow_pos_iff.mp (by omega)
  have hread := freeBelow_put (get_lowestFree t) hr readEnd
  have hwrite := freeBelow_put (get_lowestFree (put t (lowestFree t) (some readEnd))) hlt writeEnd
  show freeBelow (put _ _ _) limit + 2 = _
  omega

end Descriptors
