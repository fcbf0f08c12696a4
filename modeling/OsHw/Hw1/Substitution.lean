import OsHw.Hw1.Replace
import Mathlib.Data.List.TakeWhile

/-!
# OsHw — `replaceWords2` replaces the occurrences of a word

* **`readLoop_eq`** — whatever the sizes of the reads, the buffer holds the file.
* **`stringAt_eq`** — the string behind an index, up to the first NUL of the file.
* **`replaceLoop_spec`** — one search after the other outputs what `Substitute.substitute` does.
* **`replaceWords2_of_text`** — a call on a text and what follows it from the first NUL on.
* **`replaceWords2_substitutes`** — the whole call.
-/

namespace OsHw.Hw1

open Substitute

variable {bytes content buffer text tail rest : List UInt8} {find : CString} {fuel start : Nat}
variable {os : Environment}

/-! ## Integers and slices -/

theorem toInt32_natCast {n : Nat} (hn : n < 2 ^ 31) : toInt32 n = n := by
  rw [toInt32]
  apply Int.bmod_eq_of_le_mul_two <;> omega

theorem store_eq (pre old post bytes : List UInt8) (hlen : bytes.length = old.length) :
    store (pre ++ old ++ post) pre.length bytes = some (pre ++ bytes ++ post) := by
  have hroom : (0 : Int) ≤ pre.length ∧
      (pre.length : Int) + bytes.length ≤ (pre ++ old ++ post).length := by
    simp only [List.length_append]
    omega
  have htake : (pre ++ old ++ post).take pre.length = pre := by
    rw [List.append_assoc, List.take_left]
  have hdrop : (pre ++ old ++ post).drop (pre.length + bytes.length) = post := by
    rw [hlen, ← List.length_append, List.drop_left]
  rw [store, if_pos hroom, Int.toNat_natCast, htake, hdrop]

theorem slice_eq {i n : Nat} (hin : i + n ≤ buffer.length) :
    slice buffer i n = some ((buffer.drop i).take n) := by
  have hroom : (0 : Int) ≤ i ∧ (0 : Int) ≤ n ∧ (i : Int) + n ≤ buffer.length := by omega
  rw [slice, if_pos hroom, Int.toNat_natCast, Int.toNat_natCast]

/-! ## Reading the file -/

/-- **The reads.** `pre` is what they have delivered so far. Induction on the reads that
follow. -/
theorem readLoop_eq {chunks : List (List UInt8)} (pre : List UInt8)
    (hpos : ∀ bytes ∈ chunks, bytes ≠ [])
    (hsize : pre.length + chunks.flatten.length < 2 ^ 31) :
    readLoop (pre.length + chunks.flatten.length : Nat) (chunks.map some) pre.length
        (pre ++ List.replicate (chunks.flatten.length + 1) 0) =
      some (.ok ((pre.length + chunks.flatten.length : Nat), pre ++ chunks.flatten ++ [0])) := by
  induction chunks generalizing pre with
  | nil =>
    simp only [List.flatten_nil, List.length_nil, Nat.add_zero, List.map_nil, List.append_nil]
    exact if_neg (Int.lt_irrefl _)
  | cons bytes chunks ih =>
    have hne : bytes ≠ [] := hpos bytes (by simp)
    have hlen := List.length_pos_iff.mpr hne
    simp only [List.flatten_cons, List.length_append] at hsize ⊢
    have hmore : (pre.length : Int) <
        (pre.length + (bytes.length + chunks.flatten.length) : Nat) := by omega
    have hzeros : pre ++ List.replicate (bytes.length + chunks.flatten.length + 1) (0 : UInt8) =
        pre ++ List.replicate bytes.length 0 ++
          List.replicate (chunks.flatten.length + 1) 0 := by
      rw [List.append_assoc, List.replicate_append_replicate, Nat.add_assoc]
    have htotal : toInt32 ((pre.length : Int) + bytes.length) = (pre ++ bytes).length := by
      rw [← Int.natCast_add, ← List.length_append]
      exact toInt32_natCast (by rw [List.length_append]; omega)
    have hrest := ih (pre ++ bytes) (fun b hb => hpos b (by simp [hb]))
      (by rw [List.length_append]; omega)
    rw [List.length_append] at hrest
    rw [List.map_cons, readLoop, if_pos hmore, hzeros]
    have hlen : bytes.length = (List.replicate bytes.length (0 : UInt8)).length :=
      List.length_replicate.symm
    simp only [store_eq pre _ _ bytes hlen, Option.bind_eq_bind, Option.bind_some, if_neg hne,
      htotal]
    rw [← Nat.add_assoc, List.length_append, hrest, List.append_assoc pre bytes]

/-! ## Searching -/

/-- **The string behind an index** of a text that a NUL ends. -/
theorem stringAt_eq (htext : (0 : UInt8) ∉ text) (hstart : start ≤ text.length) :
    stringAt (text ++ 0 :: rest) start = some (text.drop start) := by
  have hdrop : (text ++ 0 :: rest).drop start = text.drop start ++ 0 :: rest :=
    List.drop_append_of_le_length hstart
  have hnul : (0 : Int) ≤ start ∧ (0 : UInt8) ∈ text.drop start ++ 0 :: rest := by
    refine ⟨Int.natCast_nonneg start, ?_⟩
    simp
  have hne : ∀ b ∈ text.drop start, decide (b ≠ 0) = true := by
    intro b hb
    rw [decide_eq_true_iff]
    rintro rfl
    exact htext (List.mem_of_mem_drop hb)
  rw [stringAt, Int.toNat_natCast, hdrop, if_pos hnul, List.takeWhile_append_of_pos hne,
    List.takeWhile_cons_of_neg (by decide), List.append_nil]

theorem strstr_eq (htext : (0 : UInt8) ∉ text) (hstart : start ≤ text.length) (find : CString) :
    strstr (text ++ 0 :: rest) start find =
      some ((search find.bytes (text.drop start)).map fun i => ((start + i : Nat) : Int)) := by
  rw [strstr, stringAt_eq htext hstart, Option.map_some]
  simp only [Int.natCast_add]

/-! ## Replacing -/

/-- One round of the loop that replaces, from `start` and what was written before it. `some none`
is the end of the loop. -/
def round (buffer : List UInt8) (find replace : CString) :
    Int × List UInt8 → Option (Option (Int × List UInt8))
  | (start, stdout) => do
    let nextWord ← strstr buffer start find
    match nextWord with
    | none => return none
    | some nextWord =>
      let before ← charsBefore buffer start (nextWord - start)
      let word := if replace.bytes.length > 0 then replace.bytes else []
      let length := toInt32 (nextWord - start)
      let findLen := toInt32 find.bytes.length
      return some (toInt32 (toInt32 (start + findLen) + length), stdout ++ before ++ word)

/-- The loop is one round and the loop from behind it. -/
theorem replaceLoop_succ (buffer : List UInt8) (find replace : CString) (fuel : Nat) (start : Int)
    (stdout : List UInt8) :
    replaceLoop buffer find replace (fuel + 1) start stdout =
      (round buffer find replace (start, stdout)).bind fun next =>
        match next with
        | none => some (start, stdout)
        | some (start, stdout) => replaceLoop buffer find replace fuel start stdout := by
  rw [replaceLoop, round]
  cases strstr buffer start find with
  | none => rfl
  | some nextWord =>
    cases nextWord with
    | none => rfl
    | some nextWord =>
      simp only [Option.bind_eq_bind, Option.bind_some]
      cases charsBefore buffer start (nextWord - start) <;> rfl

/-- The last round finds no match. -/
theorem round_of_none (rest stdout : List UInt8) (replace : CString)
    (htext : (0 : UInt8) ∉ text) (hstart : start ≤ text.length)
    (hsearch : search find.bytes (text.drop start) = none) :
    round (text ++ 0 :: rest) find replace (start, stdout) = some none := by
  rw [round]
  simp only [strstr_eq htext hstart, hsearch, Option.bind_eq_bind, Option.bind_some,
    Option.map_none]
  rfl

/-- A match ends within the text. -/
theorem search_end_le {i : Nat} (hstart : start ≤ text.length)
    (hsearch : search find.bytes (text.drop start) = some i) :
    start + i + find.bytes.length ≤ text.length := by
  obtain ⟨hi, hmatch, -⟩ := search_eq_some_iff.mp hsearch
  have hlen := hmatch.length_le
  rw [List.drop_drop, List.length_drop] at hlen
  rw [List.length_drop] at hi
  omega

/-- Any other writes what is in front of the match and the new word, and goes on behind the
match. -/
theorem round_of_search (rest stdout : List UInt8) (replace : CString)
    (htext : (0 : UInt8) ∉ text) (hsize : text.length < 2 ^ 31) (hstart : start ≤ text.length)
    {i : Nat} (hsearch : search find.bytes (text.drop start) = some i) :
    round (text ++ 0 :: rest) find replace (start, stdout) =
      some (some (((start + i + find.bytes.length : Nat) : Int),
        stdout ++ (text.drop start).take i ++ replace.bytes)) := by
  have hnext := search_end_le hstart hsearch
  have hdiff : ((start + i : Nat) : Int) - start = i := by omega
  have hbefore : charsBefore (text ++ 0 :: rest) start i =
      some ((text.drop start).take i) := by
    unfold charsBefore
    by_cases hzero : i = 0
    · rw [if_neg (by omega), hzero, List.take_zero]
    · rw [if_pos (by omega), slice_eq (by rw [List.length_append]; omega),
        List.drop_append_of_le_length hstart,
        List.take_append_of_le_length (by rw [List.length_drop]; omega)]
  have hword : (if replace.bytes.length > 0 then replace.bytes else []) = replace.bytes := by
    by_cases hempty : replace.bytes.length > 0
    · rw [if_pos hempty]
    · have hnil : replace.bytes = [] := List.eq_nil_of_length_eq_zero (by omega)
      rw [if_neg hempty, hnil]
  have hadvance : toInt32 (toInt32 ((start : Int) + toInt32 find.bytes.length) +
      toInt32 i) = (start + i + find.bytes.length : Nat) := by
    rw [toInt32_natCast (show find.bytes.length < 2 ^ 31 by omega), ← Int.natCast_add,
      toInt32_natCast (show start + find.bytes.length < 2 ^ 31 by omega),
      toInt32_natCast (show i < 2 ^ 31 by omega), ← Int.natCast_add,
      toInt32_natCast (by omega), Nat.add_right_comm]
  rw [round]
  simp only [strstr_eq htext hstart, hsearch, Option.bind_eq_bind, Option.bind_some,
    Option.map_some, hdiff, hbefore, hword, hadvance]
  rfl

/-- **The loop.** From every start within the text, `fuel` rounds are enough if they are more than
the bytes left, and what is written, followed by the text behind the last match, is the text with
its matches replaced. Induction on the rounds. -/
theorem replaceLoop_spec (rest stdout : List UInt8) (replace : CString)
    (hfind : find.bytes ≠ []) (htext : (0 : UInt8) ∉ text)
    (hsize : text.length < 2 ^ 31) (hstart : start ≤ text.length)
    (hfuel : text.length - start < fuel) :
    ∃ (last : Nat) (written : List UInt8), last ≤ text.length ∧
      replaceLoop (text ++ 0 :: rest) find replace fuel start stdout =
        some ((last : Int), written) ∧
      written ++ text.drop last =
        stdout ++ substitute find.bytes replace.bytes (text.drop start) := by
  induction fuel generalizing start stdout with
  | zero => omega
  | succ fuel ih =>
    rw [replaceLoop_succ]
    cases hsearch : search find.bytes (text.drop start) with
    | none =>
      refine ⟨start, stdout, hstart, ?_, ?_⟩
      · rw [round_of_none rest stdout replace htext hstart hsearch]
        rfl
      · rw [substitute_of_none hsearch]
    | some i =>
      have hpos := List.length_pos_iff.mpr hfind
      have hnext := search_end_le hstart hsearch
      obtain ⟨last, written, hlast, hloop, hout⟩ :=
        ih (stdout ++ (text.drop start).take i ++ replace.bytes) hnext (by omega)
      refine ⟨last, written, hlast, ?_, ?_⟩
      · rw [round_of_search rest stdout replace htext hsize hstart hsearch]
        exact hloop
      · rw [hout, substitute_of_search hfind hsearch, List.drop_drop, ← Nat.add_assoc,
          List.append_assoc, List.append_assoc, List.append_assoc]

/-! ## The call -/

/-- The operating system serves a file: it has memory, and the file stays at its size while the
reads deliver it in pieces of any size. -/
structure Environment.Serves (os : Environment) (content : List UInt8) : Prop where
  fstat : os.fstat = some content.length
  calloc : os.calloc = true
  read : ∃ chunks : List (List UInt8), os.read = chunks.map some ∧ (∀ bytes ∈ chunks, bytes ≠ []) ∧
    chunks.flatten = content

/-- The reads of a file that an `int` can count fill the buffer with it. -/
theorem Environment.Serves.loaded {os : Environment} (hos : os.Serves content)
    (hsize : content.length < 2 ^ 31) :
    readLoop content.length os.read 0 (List.replicate (content.length + 1) 0) =
      some (.ok ((content.length : Int), content ++ [0])) := by
  obtain ⟨-, -, chunks, hread, hpos, hcontent⟩ := hos
  have hloaded := readLoop_eq [] hpos (by rw [hcontent]; simpa using hsize)
  rw [hcontent, ← hread] at hloaded
  simpa only [List.length_nil, Nat.zero_add, Int.natCast_zero, List.nil_append] using hloaded

/-- The NUL for `strstr` is there already. -/
theorem store_nul (content : List UInt8) :
    store (content ++ [0]) content.length [0] = some (content ++ [0]) := by
  have hstored := store_eq content [0] [] [0] rfl
  rw [List.append_nil] at hstored
  exact hstored

/-- The part of a file before its first NUL. -/
def textOf (content : List UInt8) : List UInt8 := content.takeWhile (· ≠ 0)

/-- Behind the text comes a NUL: one of the file, or the one that the program appends. -/
theorem exists_text (content : List UInt8) : ∃ tail rest,
    content = textOf content ++ tail ∧ tail ++ [0] = 0 :: rest ∧ (0 : UInt8) ∉ textOf content := by
  induction content with
  | nil => exact ⟨[], [], rfl, rfl, List.not_mem_nil⟩
  | cons b content ih =>
    by_cases hb : b = 0
    · subst hb
      have hnil : textOf (0 :: content) = [] := List.takeWhile_cons_of_neg (by decide)
      rw [hnil]
      exact ⟨0 :: content, content ++ [0], rfl, rfl, List.not_mem_nil⟩
    · obtain ⟨tail, rest, hsplit, htail, hnul⟩ := ih
      have hcons : textOf (b :: content) = b :: textOf content :=
        List.takeWhile_cons_of_pos (decide_eq_true hb)
      rw [hcons]
      refine ⟨tail, rest, congrArg (b :: ·) hsplit, htail, ?_⟩
      rw [List.mem_cons, not_or]
      exact ⟨fun h => hb h.symm, hnul⟩

/-- What is left of the text behind the last match is written with what follows the text. -/
theorem replaceWords2_of_loaded (replace : CString) (hnul : (0 : UInt8) ∉ text)
    (htail : tail ++ [0] = 0 :: rest) (hfstat : os.fstat = some (text ++ tail).length)
    (hcalloc : os.calloc = true)
    (hread : readLoop (text ++ tail).length os.read 0
        (List.replicate ((text ++ tail).length + 1) 0) =
      some (.ok (((text ++ tail).length : Int), text ++ tail ++ [0])))
    (hsize : (text ++ tail).length < 2 ^ 31) (hfind : find.bytes ≠ [])
    (hfuel : (text ++ tail).length < fuel) :
    replaceWords2 fuel os (some find) (some replace) =
      some (0, substitute find.bytes replace.bytes text ++ tail) := by
  have hbuffer : text ++ tail ++ [0] = text ++ 0 :: rest := by rw [List.append_assoc, htail]
  have hle : text.length ≤ (text ++ tail).length := by
    rw [List.length_append]
    exact Nat.le_add_right _ _
  obtain ⟨last, written, hlast, hloop, hout⟩ := replaceLoop_spec rest [] replace hfind hnul
    (by omega) (Nat.zero_le text.length) (show _ < fuel by omega)
  have hrest : slice (text ++ 0 :: rest) last (((text ++ tail).length : Int) - last) =
      some (text.drop last ++ tail) := by
    have hdiff : ((text ++ tail).length : Int) - last = ((text ++ tail).length - last : Nat) := by
      omega
    have hroom : last + ((text ++ tail).length - last) ≤ (text ++ tail ++ [0]).length := by
      have hone : (text ++ tail ++ [0]).length = (text ++ tail).length + 1 :=
        List.length_append
      omega
    rw [hdiff, ← hbuffer, slice_eq hroom, List.drop_append_of_le_length (by omega),
      List.take_append_of_le_length (by simp), List.take_of_length_le (by simp),
      List.drop_append_of_le_length hlast]
  unfold replaceWords2
  simp only [hfstat, hcalloc, if_true, hread, Option.bind_eq_bind, Option.bind_some,
    gt_iff_lt, Int.lt_irrefl, if_false, store_nul]
  rw [hbuffer, ← Int.natCast_zero, hloop, Option.bind_some, hrest, Option.bind_some,
    ← List.append_assoc, hout, List.nil_append, List.drop_zero]
  rfl

theorem replaceWords2_of_text (replace : CString) (hnul : (0 : UInt8) ∉ text)
    (htail : tail ++ [0] = 0 :: rest) (hos : os.Serves (text ++ tail))
    (hsize : (text ++ tail).length < 2 ^ 31) (hfind : find.bytes ≠ [])
    (hfuel : (text ++ tail).length < fuel) :
    replaceWords2 fuel os (some find) (some replace) =
      some (0, substitute find.bytes replace.bytes text ++ tail) :=
  replaceWords2_of_loaded replace hnul htail hos.fstat hos.calloc (hos.loaded hsize) hsize hfind
    hfuel

/-- **`replaceWords2`** writes the text before the first NUL of the file with the occurrences of
the word replaced, and behind it the rest of the file as it is. -/
theorem replaceWords2_substitutes (content : List UInt8) {os : Environment}
    (hos : os.Serves content) (hsize : content.length < 2 ^ 31) (hfind : find.bytes ≠ [])
    (replace : CString) (hfuel : content.length < fuel) :
    replaceWords2 fuel os (some find) (some replace) =
      some (0, substitute find.bytes replace.bytes (textOf content) ++
        content.drop (textOf content).length) := by
  obtain ⟨tail, rest, hsplit, htail, hnul⟩ := exists_text content
  generalize textOf content = text at hsplit hnul ⊢
  subst hsplit
  rw [List.drop_left]
  exact replaceWords2_of_text replace hnul htail hos hsize hfind hfuel

/-- "aab" with "ab" replaced by "b" is "ab": the match does not start at the first byte, and what
was put in is not searched again. The file is read in two pieces, and its NUL and what follows
stay. -/
theorem replaceWords2_overlap :
    replaceWords2 6 ⟨some 5, true, [some [97, 97], some [98, 0, 98]]⟩
        (some ⟨[97, 98], by decide⟩) (some ⟨[98], by decide⟩) =
      some (0, [97, 98, 0, 98]) :=
  replaceWords2_substitutes [97, 97, 98, 0, 98]
    ⟨rfl, rfl, [[97, 97], [98, 0, 98]], rfl, by decide, rfl⟩ (by decide) (by decide) _ (by decide)

end OsHw.Hw1
