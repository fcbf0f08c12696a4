import Mathlib.Data.BitVec
import OsHw.Lib.Substitute

/-!
# OsHw — `replaceWords2` of `hw1_subs` (`hw1_subs.c`)

The program reads a file into one buffer and prints it with a word replaced.

* What the operating system answers to `fstat`, `calloc` and the `read`s is an argument: a result
  of `read` is an error or the bytes it has stored.
* `int` has 32 bits and wraps around; `off_t`, `ssize_t` and pointer differences are integers.
* An access outside the buffer, and a `strstr` that runs beyond it, have no result. Neither does a
  loop that does not end: the loop that replaces takes the number of rounds it may make.
* `fwrite` writes what it is given. Its result is a `size_t`, so that the checks `temp < 0` never
  hold.
-/

namespace OsHw.Hw1

/-- The value of an `int`. -/
def toInt32 (x : Int) : Int := Int.bmod x (2 ^ 32)

/-- A C string without its terminating NUL. -/
structure CString where
  bytes : List UInt8
  nul_free : (0 : UInt8) ∉ bytes

/-- The answers of the operating system: `st_size`, whether there is memory, and the results of
the reads. -/
structure Environment where
  fstat : Option Nat
  calloc : Bool
  read : List (Option (List UInt8))

/-- The value that is returned, and the bytes written to stdout. -/
abbrev Result := Int × List UInt8

/-- `printf("not the same size as expected!")`. -/
def notTheSameSize : List UInt8 := "not the same size as expected!".toUTF8.toList

/-! ## The buffer -/

/-- Store bytes from an index on. -/
def store (buffer : List UInt8) (i : Int) (bytes : List UInt8) : Option (List UInt8) :=
  if 0 ≤ i ∧ i + bytes.length ≤ buffer.length then
    some (buffer.take i.toNat ++ bytes ++ buffer.drop (i.toNat + bytes.length))
  else none

/-- The `n` bytes from an index on. -/
def slice (buffer : List UInt8) (i n : Int) : Option (List UInt8) :=
  if 0 ≤ i ∧ 0 ≤ n ∧ i + n ≤ buffer.length then
    some ((buffer.drop i.toNat).take n.toNat)
  else none

/-- The string that starts at an index. -/
def stringAt (buffer : List UInt8) (i : Int) : Option (List UInt8) :=
  if 0 ≤ i ∧ (0 : UInt8) ∈ buffer.drop i.toNat then
    some ((buffer.drop i.toNat).takeWhile (· ≠ 0))
  else none

/-- `strstr(&(buffer[start]), find) - buffer`, or `NULL`. -/
def strstr (buffer : List UInt8) (start : Int) (find : CString) : Option (Option Int) :=
  (stringAt buffer start).map fun string =>
    (Substitute.search find.bytes string).map fun i : Nat => start + i

/-! ## Reading the file -/

/-- The loop that reads, from `total` on: the result of an early return, or `total` and the
buffer. -/
def readLoop (st_size : Int) :
    List (Option (List UInt8)) → Int → List UInt8 → Option (Except Result (Int × List UInt8))
  | [], total, buffer => if total < st_size then none else some (.ok (total, buffer))
  | answer :: answers, total, buffer =>
    if total < st_size then
      match answer with
      | none => some (.error (1, []))
      | some bytes => do
        let buffer ← store buffer total bytes
        if bytes = [] then return .error (1, notTheSameSize)
        else readLoop st_size answers (toInt32 (total + bytes.length)) buffer
    else some (.ok (total, buffer))

/-! ## Replacing -/

/-- What is printed of the `n` chars up until the word to replace. -/
def charsBefore (buffer : List UInt8) (start n : Int) : Option (List UInt8) :=
  if n > 0 then slice buffer start n else some []

/-- The loop that replaces, from `start` on: `start` behind the last match, and what was written
to stdout. -/
def replaceLoop (buffer : List UInt8) (find replace : CString) :
    Nat → Int → List UInt8 → Option (Int × List UInt8)
  | 0, _, _ => none
  | fuel + 1, start, stdout => do
    let nextWord ← strstr buffer start find
    match nextWord with
    | none => return (start, stdout)
    | some nextWord =>
      let before ← charsBefore buffer start (nextWord - start)
      let word := if replace.bytes.length > 0 then replace.bytes else []
      let length := toInt32 (nextWord - start)
      let findLen := toInt32 find.bytes.length
      replaceLoop buffer find replace fuel (toInt32 (toInt32 (start + findLen) + length))
        (stdout ++ before ++ word)

/-- `fuel` bounds the rounds of the loop that replaces; `none` stands for a `NULL` argument. -/
def replaceWords2 (fuel : Nat) (os : Environment) (find replace : Option CString) :
    Option Result :=
  match find, replace with
  | some find, some replace =>
    match os.fstat with
    | none => some (1, [])
    | some st_size =>
      if os.calloc then do
        match ← readLoop st_size os.read 0 (List.replicate (st_size + 1) 0) with
        | .error result => return result
        | .ok (total, buffer) =>
          if total > st_size then return (2, [])
          else
            let buffer ← store buffer total [0]
            let (start, stdout) ← replaceLoop buffer find replace fuel 0 []
            let rest ← slice buffer start (st_size - start)
            return (0, stdout ++ rest)
      else some (1, [])
  | _, _ => some (1, [])

end OsHw.Hw1
