import Mathlib.Tactic.Common
import Mathlib.Data.BitVec

/-!
# OsHw — 32-bit words in memory

A word as the list of its bytes, for the two byte orders. A program that copies the bytes of a
word and reads them back as a word is correct for any `ByteOrder`, whatever it is, as long as
both ends use the same one.
-/

/-- A way to keep a 32-bit word in four bytes. -/
structure ByteOrder where
  encode : BitVec 32 → List UInt8
  decode : List UInt8 → BitVec 32
  length_encode : ∀ n, (encode n).length = 4
  decode_encode : ∀ n, decode (encode n) = n
  encode_decode : ∀ bytes, bytes.length = 4 → encode (decode bytes) = bytes

namespace ByteOrder

/-- The `k` lowest bytes of a number, the lowest first. -/
def split : Nat → Nat → List UInt8
  | 0, _ => []
  | k + 1, n => UInt8.ofNat n :: split k (n / 256)

/-- The number with these bytes, the lowest first. -/
def combine : List UInt8 → Nat
  | [] => 0
  | b :: bytes => b.toNat + 256 * combine bytes

theorem length_split (k n : Nat) : (split k n).length = k := by
  induction k generalizing n with
  | zero => rfl
  | succ k ih => simp [split, ih]

theorem combine_split (k n : Nat) : combine (split k n) = n % 256 ^ k := by
  induction k generalizing n with
  | zero => simp [split, combine, Nat.mod_one]
  | succ k ih =>
    have hpow : 256 ^ (k + 1) = 256 * 256 ^ k := Nat.pow_succ'
    rw [split, combine, ih, UInt8.toNat_ofNat', hpow, Nat.mod_mul]

theorem combine_lt (bytes : List UInt8) : combine bytes < 256 ^ bytes.length := by
  induction bytes with
  | nil => decide
  | cons b bytes ih =>
    have hb := b.toNat_lt
    rw [combine, List.length_cons, Nat.pow_succ']
    omega

theorem split_combine (bytes : List UInt8) : split bytes.length (combine bytes) = bytes := by
  induction bytes with
  | nil => rfl
  | cons b bytes ih =>
    have hb := b.toNat_lt
    have hrest : (b.toNat + 256 * combine bytes) / 256 = combine bytes := by omega
    have hfirst : UInt8.ofNat (b.toNat + 256 * combine bytes) = b := by
      apply UInt8.toNat.inj
      rw [UInt8.toNat_ofNat']
      omega
    rw [List.length_cons, split, combine, hrest, hfirst, ih]

def little : ByteOrder where
  encode n := split 4 n.toNat
  decode bytes := BitVec.ofNat 32 (combine bytes)
  length_encode n := length_split 4 n.toNat
  decode_encode n := by
    apply BitVec.eq_of_toNat_eq
    have hn := n.isLt
    rw [BitVec.toNat_ofNat, combine_split]
    omega
  encode_decode bytes hlen := by
    have hlt := combine_lt bytes
    rw [hlen] at hlt
    rw [BitVec.toNat_ofNat, Nat.mod_eq_of_lt (by omega), ← hlen, split_combine]

def big : ByteOrder where
  encode n := (little.encode n).reverse
  decode bytes := little.decode bytes.reverse
  length_encode n := by rw [List.length_reverse, little.length_encode]
  decode_encode n := by rw [List.reverse_reverse, little.decode_encode]
  encode_decode bytes hlen := by
    rw [little.encode_decode _ (by rw [List.length_reverse, hlen]), List.reverse_reverse]

end ByteOrder
