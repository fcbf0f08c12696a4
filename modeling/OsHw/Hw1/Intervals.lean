import Mathlib.Algebra.Order.Ring.Rat
import Mathlib.Data.List.Sort
import Mathlib.Logic.Function.Basic

/-!
# OsHw — `find_best_interval` of `hw1_subs` (`intervals.py`)

The program fills two tables row by row: `E[i,j]` is the least error that `j` intervals make on
the first `i` points, and `P[i][j]` the last interval of a choice that makes it, as the pair of
its boundaries. It then walks back through `P`.

* A Python call that raises has no result.
* The numbers in the arrays are integers of unbounded size; a label is 0 or 1. The tables are
  functions of their two indices, and are accessed within their bounds only.
* The points are rationals. They matter in the first assertion and at the very end, where the
  boundaries become midpoints between neighbouring points; in between only labels and indices
  are used (`find_best`).
-/

namespace OsHw.Hw1

/-! ## Arrays -/

def cumsumFrom (total : Int) : List Int → List Int
  | [] => []
  | x :: xs => (total + x) :: cumsumFrom (total + x) xs

/-- `cumsum`: the sums of the first entries. -/
def cumsum (xs : List Int) : List Int := cumsumFrom 0 xs

/-- `argmin`: the index of the first smallest entry. -/
def argmin (xs : List Int) : Option Nat := xs.min?.map fun x => xs.idxOf x

/-- A pair of interval boundaries: 0 is before the first point, `m` behind the last one. -/
abbrev Bounds := Nat × Nat

/-- The order of Python tuples. -/
def tupleLt (a b : Int × Bounds) : Prop :=
  a.1 < b.1 ∨ (a.1 = b.1 ∧ (a.2.1 < b.2.1 ∨ (a.2.1 = b.2.1 ∧ a.2.2 < b.2.2)))

instance (a b : Int × Bounds) : Decidable (tupleLt a b) :=
  inferInstanceAs (Decidable (_ ∨ (_ ∧ (_ ∨ (_ ∧ _)))))

/-- `min` of a list of tuples: the first smallest one. -/
def minTuple : List (Int × Bounds) → Option (Int × Bounds)
  | [] => none
  | x :: xs => some (xs.foldl (fun least y => if tupleLt y least then y else least) x)

/-- The order by which `sorted` sorts the boundaries. -/
def boundsLe (r s : Bounds) : Prop := r.1 < s.1 ∨ (r.1 = s.1 ∧ r.2 ≤ s.2)

instance : DecidableRel boundsLe := fun r s =>
  inferInstanceAs (Decidable (r.1 < s.1 ∨ (r.1 = s.1 ∧ r.2 ≤ s.2)))

/-! ## The tables -/

structure Tables where
  E : Nat → Nat → Int
  P : Nat → Nat → Option Bounds

/-- `E[:m+1,0] = cy`; the other entries of `E` are 0 and those of `P` are `None`. -/
def Tables.start (cy : List Int) : Tables where
  E i j := if j = 0 then cy.getD i 0 else 0
  P _ _ := none

/-- `E[i,j], P[i][j] = e, p`. -/
def Tables.set (t : Tables) (i j : Nat) (e : Int) (p : Bounds) : Tables where
  E := Function.update t.E i (Function.update (t.E i) j e)
  P := Function.update t.P i (Function.update (t.P i) j (some p))

/-- The error of the first `i` points, with the best `j - 1` intervals on the first `l` points and
a last interval from `l` on, for each of its upper boundaries from `l` to `i`. -/
def next_errors (ys cy : List Int) (E : Nat → Nat → Int) (i j l : Nat) : List Int :=
  let signs := ((ys.take i).drop l).map fun y => if y = 1 then -1 else 1
  (0 :: cumsum signs).map fun d => E l (j - 1) + (cy.getD i 0 - cy.getD l 0) + d

/-- The best last interval from `l` on, with its error. -/
def lastInterval (ys cy : List Int) (E : Nat → Nat → Int) (i j l : Nat) :
    Option (Int × Bounds) := do
  let errors := next_errors ys cy E i j l
  let min_error ← argmin errors
  return (errors.getD min_error 0, l, (List.range' l (i + 1 - l)).getD min_error 0)

/-- The body of the two loops. -/
def fillCell (ys cy : List Int) (i : Nat) (t : Tables) (j : Nat) : Option Tables := do
  let options ← (List.range (i + 1)).mapM (lastInterval ys cy t.E i j)
  let (e, p) ← minTuple options
  return t.set i j e p

def fill (ys cy : List Int) (k : Nat) : Option Tables :=
  (List.range' 1 ys.length).foldlM
    (fun t i => (List.range' 1 k).foldlM (fillCell ys cy i) t) (Tables.start cy)

/-! ## The intervals -/

/-- The loop that extracts the best interval set, for the values of `i` from the argument down to
1. `None` in `cur` has no `cur[0]`. -/
def extract (P : Nat → Nat → Option Bounds) : Nat → Option Bounds → List Bounds →
    Option (List Bounds)
  | 0, _, best => some best
  | i + 1, cur, best => do
    let last ← cur
    match P last.1 i with
    | none => return best ++ [last]
    | some next => extract P i (some next) (best ++ [last])

/-- `best` and `besterror`, for the labels `ys`. -/
def find_best (ys : List Int) (k : Nat) : Option (List Bounds × Int) := do
  let m := ys.length
  let t ← fill ys (0 :: cumsum ys) k
  let best ← extract t.P k (t.P m k) []
  return (best.insertionSort boundsLe, t.E m k)

/-- The midpoints between neighbouring points, with 0 before the first and 1 behind the last
one. -/
def representatives (xs : List ℚ) : List ℚ :=
  List.zipWith (fun x y => (x + y) / 2) (0 :: xs) (xs ++ [1])

def find_best_interval (xs : List ℚ) (ys : List Int) (k : Nat) :
    Option (List (ℚ × ℚ) × Int) :=
  if xs = xs.insertionSort (· ≤ ·) ∧ xs.length = ys.length then do
    let (best, besterror) ← find_best ys k
    let reps := representatives xs
    return (best.map fun r => (reps.getD r.1 0, reps.getD r.2 0), besterror)
  else none

end OsHw.Hw1
