import Mathlib.Algebra.Order.Ring.Int
import Mathlib.Tactic.Common

/-!
# OsHw — comparing C integers of different types

C compares two integers after it has converted both to a common type, and a negative number does
not survive the conversion to an unsigned type.

* **`IntType`**, **`value`** — the integer types and the numbers that their bits stand for.
* **`common`** — the type of the usual arithmetic conversions, a wider type ranking higher.
* **`Comparison`** — a comparison, its `result` in C and what is `meant` by it.
* **`Comparison.result_eq_meant`** — they agree if neither number is negative.
-/

namespace Conversions

/-- An integer type of C. -/
structure IntType where
  width : Nat
  signed : Bool
  deriving DecidableEq

namespace IntType

variable {t u : IntType}

/-- The number that the bits stand for. -/
def value (t : IntType) (x : BitVec t.width) : Int :=
  if t.signed then x.toInt else x.toNat

/-- The type has bits for this number. -/
def Represents (t : IntType) (n : Int) : Prop :=
  if t.signed then -2 ^ t.width ≤ n * 2 ∧ n * 2 < 2 ^ t.width else 0 ≤ n ∧ n < 2 ^ t.width

/-- A conversion keeps the number modulo the size of the type. -/
def convert (t u : IntType) (x : BitVec t.width) : BitVec u.width :=
  BitVec.ofInt u.width (t.value x)

/-- The type in which two integers are compared: the wider one, and the unsigned one of two types
that have the same width. -/
def common (t u : IntType) : IntType :=
  if t.width < u.width then u
  else if u.width < t.width then t
  else ⟨t.width, t.signed && u.signed⟩

theorem represents_value (t : IntType) (x : BitVec t.width) : t.Represents (t.value x) := by
  unfold Represents value
  cases t.signed with
  | true =>
    have hle := BitVec.le_two_mul_toInt (x := x)
    have hlt := BitVec.two_mul_toInt_lt (x := x)
    simp only [if_true]
    constructor <;> omega
  | false =>
    have hlt : ((x.toNat : Nat) : Int) < ((2 ^ t.width : Nat) : Int) := Int.ofNat_lt.mpr x.isLt
    exact ⟨Int.natCast_nonneg _, by simpa using hlt⟩

/-- A number that the new type can represent is kept. -/
theorem value_convert {x : BitVec t.width} (h : u.Represents (t.value x)) :
    u.value (t.convert u x) = t.value x := by
  unfold convert
  generalize t.value x = n at h
  unfold Represents at h
  unfold value
  have hpow : ((2 ^ u.width : Nat) : Int) = (2 : Int) ^ u.width := by simp
  cases hsigned : u.signed with
  | true =>
    simp only [hsigned, if_true] at h ⊢
    rw [BitVec.toInt_ofInt]
    exact Int.bmod_eq_of_le_mul_two (by omega) (by omega)
  | false =>
    simp only [hsigned, Bool.false_eq_true, if_false] at h ⊢
    rw [BitVec.toNat_ofInt, hpow, Int.emod_eq_of_lt h.1 h.2]
    exact Int.toNat_of_nonneg h.1

/-- What is not negative can be represented in every wider type, and in an unsigned type of the
same width. -/
theorem Represents.mono {n : Int} (h : t.Represents n) (hn : 0 ≤ n)
    (hwidth : t.width < u.width ∨ t.width = u.width ∧ (u.signed = true → t.signed = true)) :
    u.Represents n := by
  have hfit : ∀ (w : Nat), (2 : Int) ^ (w + 1) = 2 ^ w * 2 := fun w => Int.pow_succ 2 w
  have hlt : n < 2 ^ t.width := by
    unfold Represents at h
    cases hsigned : t.signed <;> simp only [hsigned, if_true, Bool.false_eq_true, if_false] at h
      <;> omega
  unfold Represents at h ⊢
  rcases hwidth with hlow | ⟨heq, himp⟩
  · have hle : (2 : Int) ^ (t.width + 1) ≤ 2 ^ u.width :=
      pow_le_pow_right₀ (by decide) hlow
    rw [hfit] at hle
    cases u.signed <;> simp only [if_true, Bool.false_eq_true, if_false] <;> omega
  · rw [← heq]
    cases hsigned : u.signed with
    | true => simpa [himp hsigned] using h
    | false => exact ⟨hn, hlt⟩

theorem represents_common_left {x : BitVec t.width} (hx : 0 ≤ t.value x) :
    (t.common u).Represents (t.value x) := by
  refine (t.represents_value x).mono hx ?_
  unfold common
  split
  · next hlt => exact .inl hlt
  · split
    · exact .inr ⟨rfl, id⟩
    · exact .inr ⟨rfl, fun h => (Bool.and_eq_true_iff.mp h).1⟩

theorem represents_common_right {y : BitVec u.width} (hy : 0 ≤ u.value y) :
    (t.common u).Represents (u.value y) := by
  refine (u.represents_value y).mono hy ?_
  unfold common
  split
  · exact .inr ⟨rfl, id⟩
  · split
    · next hlt => exact .inl hlt
    · exact .inr ⟨by dsimp only; omega, fun h => (Bool.and_eq_true_iff.mp h).2⟩

end IntType

/-! ## Comparisons -/

/-- The operators that compare. -/
inductive Rel where
  | lt
  | le
  | gt
  | eq
  deriving DecidableEq

def Rel.holds (rel : Rel) (m n : Int) : Bool :=
  match rel with
  | .lt => m < n
  | .le => m ≤ n
  | .gt => n < m
  | .eq => m = n

/-- A comparison of two integers, each with its type. -/
structure Comparison where
  rel : Rel
  left : IntType
  x : BitVec left.width
  right : IntType
  y : BitVec right.width

namespace Comparison

/-- What C computes: both sides are converted to the common type. -/
def result (c : Comparison) : Bool :=
  let t := c.left.common c.right
  c.rel.holds (t.value (c.left.convert t c.x)) (t.value (c.right.convert t c.y))

/-- The comparison of the two numbers. -/
def meant (c : Comparison) : Bool :=
  c.rel.holds (c.left.value c.x) (c.right.value c.y)

/-- **Comparing numbers that are not negative** gives the mathematical result. -/
theorem result_eq_meant {c : Comparison} (hx : 0 ≤ c.left.value c.x)
    (hy : 0 ≤ c.right.value c.y) : c.result = c.meant := by
  unfold result meant
  dsimp only
  rw [IntType.value_convert (IntType.represents_common_left hx),
    IntType.value_convert (IntType.represents_common_right hy)]

/-- An `int` that is negative is not less than an unsigned 64-bit number. -/
example : (⟨.lt, ⟨32, true⟩, -1, ⟨64, false⟩, 5⟩ : Comparison).result = false ∧
    (⟨.lt, ⟨32, true⟩, -1, ⟨64, false⟩, 5⟩ : Comparison).meant = true := by decide

end Comparison

end Conversions
