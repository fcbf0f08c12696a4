import OsHw.Hw1.Substitution

/-!
# OsHw — how often `replaceWords2` goes round

`main` hands `argv[1]` to `replaceWords2` as it is, the empty string included.

* **`Makes`** — a call makes at least `n` rounds of the loop that replaces.
* **`makes_le`** — a word that is not empty advances `start`, so that a call makes no more rounds
  than the file has bytes, whatever the reads return.
* **`makes_empty`** — the empty word is found where the search starts and `start` stays `0`. The
  call does not return (`replaceWords2_empty`).
* **`rounds_bounded_iff`** — the two together, for a file that is read.
-/

namespace OsHw.Hw1

open Substitute

variable {answers : List (Option (List UInt8))} {bytes buffer loaded content text : List UInt8}
variable {find : CString} {os : Environment} {st_size : Nat}

/-! ## Reaching the loop -/

/-- The buffer with which the loop that replaces is entered, if it is. -/
def entered (os : Environment) : Option (List UInt8) := do
  let st_size ← os.fstat
  if os.calloc then
    match ← readLoop st_size os.read 0 (List.replicate (st_size + 1) 0) with
    | .error _ => none
    | .ok (total, buffer) => if total > st_size then none else store buffer total [0]
  else none

theorem store_some {i : Int} (h : store buffer i bytes = some loaded) : ∃ pre post : List UInt8,
    i = pre.length ∧ loaded = pre ++ bytes ++ post ∧ loaded.length = buffer.length := by
  unfold store at h
  split at h
  · next hroom =>
    obtain rfl := Option.some.inj h
    refine ⟨buffer.take i.toNat, buffer.drop (i.toNat + bytes.length), ?_, rfl, ?_⟩
    · rw [List.length_take]
      omega
    · simp only [List.length_append, List.length_take, List.length_drop]
      omega
  · cases h

/-- Behind the reads `total` is an `int` that has reached the size, and the buffer has its length.
Induction on the reads. -/
theorem readLoop_ok {size last total : Int} (htotal : total < 2 ^ 31)
    (h : readLoop size answers total buffer = some (.ok (last, loaded))) :
    size ≤ last ∧ last < 2 ^ 31 ∧ loaded.length = buffer.length := by
  induction answers generalizing total buffer with
  | nil =>
    rw [readLoop] at h
    split at h
    · cases h
    · cases h
      exact ⟨by omega, htotal, rfl⟩
  | cons answer answers ih =>
    unfold readLoop at h
    split at h
    · cases answer with
      | none => cases h
      | some bytes =>
        simp only [Option.bind_eq_bind, Option.bind_eq_some_iff] at h
        obtain ⟨stored, hstore, h⟩ := h
        split at h
        · cases h
        · obtain ⟨pre, post, -, -, hlen⟩ := store_some hstore
          have hint : toInt32 (total + bytes.length) < 2 ^ 31 :=
            Int.bmod_lt (x := total + bytes.length) (m := 4294967296) (by decide)
          rw [← hlen]
          exact ih hint h
    · cases h
      exact ⟨by omega, htotal, rfl⟩

/-- **The loop is entered** with a text that a NUL ends, no longer than the file and than an `int`
can count. -/
theorem entered_text (hsize : os.fstat = some st_size) (h : entered os = some buffer) :
    ∃ text rest : List UInt8, buffer = text ++ 0 :: rest ∧ (0 : UInt8) ∉ text ∧
      text.length ≤ st_size ∧ text.length < 2 ^ 31 ∧ st_size < 2 ^ 31 := by
  simp only [entered, hsize, Option.bind_eq_bind, Option.bind_some] at h
  split at h
  · obtain ⟨result, hread, h⟩ := Option.bind_eq_some_iff.mp h
    cases result with
    | error result => cases h
    | ok result =>
      obtain ⟨total, loaded⟩ := result
      obtain ⟨hend, hint, -⟩ := readLoop_ok (by decide) hread
      simp only [] at h
      split at h
      · cases h
      · obtain ⟨pre, post, hpre, rfl, -⟩ := store_some h
        obtain ⟨tail, rest, hsplit, htail, hnul⟩ := exists_text pre
        have hle : (textOf pre).length ≤ pre.length := by
          conv_rhs => rw [hsplit, List.length_append]
          exact Nat.le_add_right _ _
        refine ⟨textOf pre, rest ++ post, ?_, hnul, by omega, by omega, by omega⟩
        conv_lhs => rw [hsplit, List.append_assoc (textOf pre), htail]
        simp
  · cases h

/-- A file that is read and not too long for an `int` is what the loop is entered with. -/
theorem entered_of_serves (hos : os.Serves content) (hsize : content.length < 2 ^ 31) :
    entered os = some (content ++ [0]) := by
  simp only [entered, hos.fstat, hos.calloc, if_true, Option.bind_eq_bind, Option.bind_some,
    hos.loaded hsize, gt_iff_lt, Int.lt_irrefl, if_false, store_nul]

/-! ## Rounds -/

/-- Where the loop is after `n` rounds, if it makes that many. -/
def rounds (buffer : List UInt8) (find replace : CString) :
    Nat → Int × List UInt8 → Option (Int × List UInt8)
  | 0, at_start => some at_start
  | n + 1, at_start => (round buffer find replace at_start).join.bind (rounds buffer find replace n)

/-- The loop of the model runs out of fuel when it has made that many rounds. -/
theorem replaceLoop_eq_none {replace : CString} {n : Nat} {start : Int} {stdout : List UInt8}
    (h : (rounds buffer find replace n (start, stdout)).isSome) :
    replaceLoop buffer find replace n start stdout = none := by
  induction n generalizing start stdout with
  | zero => rfl
  | succ n ih =>
    rw [rounds] at h
    rw [replaceLoop_succ]
    cases hround : round buffer find replace (start, stdout) with
    | none => rfl
    | some next =>
      cases next with
      | none => simp [hround] at h
      | some next =>
        simp only [hround, Option.join_some, Option.bind_some] at h
        exact ih h

/-- The call makes at least `n` rounds of the loop that replaces. -/
def Makes (os : Environment) (find replace : CString) (n : Nat) : Prop :=
  ∃ buffer, entered os = some buffer ∧ (rounds buffer find replace n (0, [])).isSome

/-- A call that makes as many rounds as it may has not returned. -/
theorem replaceWords2_eq_none {replace : CString} {n : Nat} (h : Makes os find replace n) :
    replaceWords2 n os (some find) (some replace) = none := by
  obtain ⟨buffer, hentered, hrounds⟩ := h
  have hloop := replaceLoop_eq_none hrounds
  unfold entered at hentered
  unfold replaceWords2
  cases hsize : os.fstat with
  | none => simp [hsize] at hentered
  | some st_size =>
    simp only [hsize, Option.bind_eq_bind, Option.bind_some] at hentered ⊢
    split at hentered
    · next hcalloc =>
      obtain ⟨result, hread, hentered⟩ := Option.bind_eq_some_iff.mp hentered
      rw [if_pos hcalloc, hread, Option.bind_some]
      cases result with
      | error result => cases hentered
      | ok result =>
        obtain ⟨total, loaded⟩ := result
        simp only [] at hentered ⊢
        split at hentered
        · cases hentered
        · next hle =>
          rw [if_neg hle, hentered, Option.bind_some, hloop]
          rfl
    · cases hentered

/-- **Rounds of a word that is not empty.** Each one puts `start` behind a match. Induction on
their number. -/
theorem start_add_rounds_le {rest stdout : List UInt8} {replace : CString} {start n : Nat}
    (hfind : find.bytes ≠ []) (htext : (0 : UInt8) ∉ text) (hsize : text.length < 2 ^ 31)
    (hstart : start ≤ text.length)
    (h : (rounds (text ++ 0 :: rest) find replace n (start, stdout)).isSome) :
    start + n ≤ text.length := by
  induction n generalizing start stdout with
  | zero => exact hstart
  | succ n ih =>
    rw [rounds] at h
    cases hsearch : search find.bytes (text.drop start) with
    | none =>
      rw [round_of_none rest stdout replace htext hstart hsearch] at h
      cases h
    | some i =>
      rw [round_of_search rest stdout replace htext hsize hstart hsearch] at h
      have hpos := List.length_pos_iff.mpr hfind
      have hnext := ih (search_end_le hstart hsearch) h
      omega

/-- **A word that is not empty** is searched at most once a byte, for any results of the reads. -/
theorem makes_le {replace : CString} {n : Nat} (hsize : os.fstat = some st_size)
    (hfind : find.bytes ≠ []) (h : Makes os find replace n) : n ≤ st_size := by
  obtain ⟨buffer, hentered, hrounds⟩ := h
  obtain ⟨text, rest, rfl, htext, hle, hint, -⟩ := entered_text hsize hentered
  have hrounds : 0 + n ≤ text.length :=
    start_add_rounds_le hfind htext hint (Nat.zero_le _) hrounds
  omega

/-- A search for the empty word ends where it starts. Induction on the number of rounds. -/
theorem rounds_of_empty {rest stdout : List UInt8} {replace : CString} (n : Nat)
    (hfind : find.bytes = []) (htext : (0 : UInt8) ∉ text) (hsize : text.length < 2 ^ 31) :
    (rounds (text ++ 0 :: rest) find replace n (0, stdout)).isSome := by
  induction n generalizing stdout with
  | zero => rfl
  | succ n ih =>
    have hsearch : search find.bytes (text.drop 0) = some 0 := by
      refine search_eq_some_iff.mpr ⟨Nat.zero_le _, ?_, fun j hj => absurd hj (Nat.not_lt_zero j)⟩
      rw [hfind]
      exact List.nil_prefix
    have hround := round_of_search rest stdout replace htext hsize (Nat.zero_le _) hsearch
    rw [hfind] at hround
    rw [rounds]
    show ((round (text ++ 0 :: rest) find replace (((0 : Nat) : Int), stdout)).join.bind _).isSome
    rw [hround]
    exact ih

/-- **The empty word** is found for ever once the loop is entered. -/
theorem makes_empty (replace : CString) (hsize : os.fstat = some st_size)
    (hentered : entered os = some buffer) (hfind : find.bytes = []) (n : Nat) :
    Makes os find replace n := by
  refine ⟨buffer, hentered, ?_⟩
  obtain ⟨text, rest, rfl, htext, -, hint, -⟩ := entered_text hsize hentered
  exact rounds_of_empty n hfind htext hint

/-- However long one waits, the call has not returned. -/
theorem replaceWords2_empty (replace : CString) (hsize : os.fstat = some st_size)
    (hentered : entered os = some buffer) (hfind : find.bytes = []) (fuel : Nat) :
    replaceWords2 fuel os (some find) (some replace) = none :=
  replaceWords2_eq_none (makes_empty replace hsize hentered hfind fuel)

/-- **When the loop that replaces ends.** The rounds over a file are no more than its bytes plus one
exactly when the word is not empty, or the file is too long for the loop to be entered. -/
theorem rounds_bounded_iff (hos : os.Serves content) (find replace : CString) :
    (∀ n, Makes os find replace n → n ≤ content.length + 1) ↔
      find.bytes ≠ [] ∨ 2 ^ 31 ≤ content.length := by
  constructor
  · intro hbound
    by_contra hnot
    simp only [not_or, not_not, not_le] at hnot
    obtain ⟨hempty, hsize⟩ := hnot
    have hmakes := makes_empty replace hos.fstat (entered_of_serves hos hsize) hempty
    have := hbound _ (hmakes (content.length + 2))
    omega
  · rintro (hfind | hlong) n hmakes
    · exact Nat.le_succ_of_le (makes_le hos.fstat hfind hmakes)
    -- `total` cannot get past the size
    · obtain ⟨buffer, hentered, -⟩ := hmakes
      obtain ⟨-, -, -, -, -, -, hshort⟩ := entered_text hos.fstat hentered
      omega

/-- The rounds over "ab" for the word "b". -/
theorem rounds_bounded_one :
    Makes ⟨some 2, true, [some [97, 98]]⟩ ⟨[98], by decide⟩ ⟨[], by decide⟩ 1 ∧
      ∀ n, Makes ⟨some 2, true, [some [97, 98]]⟩ ⟨[98], by decide⟩ ⟨[], by decide⟩ n → n ≤ 3 := by
  have hos : Environment.Serves ⟨some 2, true, [some [97, 98]]⟩ [97, 98] :=
    ⟨rfl, rfl, [[97, 98]], rfl, by decide, rfl⟩
  refine ⟨⟨[97, 98, 0], by decide, by decide⟩, ?_⟩
  exact (rounds_bounded_iff hos _ _).mpr (.inl (by decide))

/-- The empty word on "a": there is no last round. -/
theorem empty_word_loops : ¬ ∃ bound, ∀ n,
    Makes ⟨some 1, true, [some [97]]⟩ ⟨[], by decide⟩ ⟨[98], by decide⟩ n → n ≤ bound := by
  rintro ⟨bound, hbound⟩
  have hentered : entered ⟨some 1, true, [some [97]]⟩ = some [97, 0] := by decide
  have hmakes := @makes_empty _ ⟨[], by decide⟩ _ 1 ⟨[98], by decide⟩ rfl hentered rfl
  exact absurd (hbound _ (hmakes (bound + 1))) (Nat.not_succ_le_self bound)

end OsHw.Hw1
