import OsHw.Hw1.Loading
import OsHw.Hw1.Substitution

/-!
# OsHw — `main` of `hw1_subs` (`hw1_subs.c`)

The program finds its file through two environment variables, and its two words on the command
line.

* **`createPath_eq`** — the path fits into the block that is allocated for it, which has a byte
  more than it needs.
* **`Delivered`** — what the loop that reads has read when it ends, whatever the reads return.
* **`replaceWords2_zero_iff`** — the calls that return `0`, and what they have written.
* **`main_succeeds_iff`** — the runs that exit with `0`: the text of `strerror` follows the file.
* **`main_overread_iff`** — the runs that report a file longer than its size, with all its bytes
  in the buffer: it has grown by one byte.
-/

namespace OsHw.Hw1

open Substitute

variable {answers : List (Option (List UInt8))} {bytes content block pre text rest : List UInt8}
variable {stdout loaded : List UInt8} {find replace : CString} {os : Environment} {last : Int}
variable {fuel n s total : Nat}

/-! ## The path -/

/-- What the program finds: its arguments, the variables, what a block of memory happens to hold if
there is one, the files, and what `strerror(errno)` says where it is asked for. -/
structure Process where
  argv : List CString
  getenv : String → Option CString
  malloc : Option (Nat → UInt8)
  openFile : List UInt8 → Option Environment
  strerror : List UInt8

def EV_DIR : String := "HW1DIR"

def EV_FILE : String := "HW1TF"

def strcpy (block bytes : List UInt8) : Option (List UInt8) := store block 0 (bytes ++ [0])

def strcat (block bytes : List UInt8) : Option (List UInt8) := do
  let string ← stringAt block 0
  store block string.length (bytes ++ [0])

/-- "/". -/
def slash : List UInt8 := [47]

/-- The block with the path, or `NULL`. -/
def createPath (malloc : Option (Nat → UInt8)) (dir file : Option CString) :
    Option (Option (List UInt8)) :=
  match dir, file with
  | some dir, some file =>
    match malloc with
    | none => some none
    | some fresh => do
      let fullPath := (List.range (dir.bytes.length + file.bytes.length + 3)).map fresh
      let fullPath ← strcpy fullPath dir.bytes
      let fullPath ← strcat fullPath slash
      let fullPath ← strcat fullPath file.bytes
      return some fullPath
  | _, _ => some none

/-! ## The program -/

def notEnough : List UInt8 := "Not enough arguments".toUTF8.toList

def notSet : List UInt8 := "enivronment variables are not set".toUTF8.toList

def readMore : List UInt8 :=
  "Error, read more bytes then the file's alleged size.".toUTF8.toList

/-- The exit status, and what is written to stdout. A call that has succeeded is followed by
`strerror` as well. -/
def main (fuel : Nat) (process : Process) : Option Result :=
  if process.argv.length < 3 then some (1, notEnough)
  else
    match process.getenv EV_DIR, process.getenv EV_FILE with
    | some hw1dir, some hw1tf => do
      match ← createPath process.malloc (some hw1dir) (some hw1tf) with
      | none => return (1, process.strerror)
      | some fullPath =>
        let path ← stringAt fullPath 0
        match process.openFile path with
        | none => return (1, process.strerror)
        | some os =>
          let (ret, stdout) ← replaceWords2 fuel os process.argv[1]? process.argv[2]?
          let stdout := if ret = 0 then stdout ++ process.strerror else stdout
          let stdout := if ret = 2 then stdout ++ readMore else stdout
          return (ret, stdout)
    | _, _ => some (1, notSet)

/-! ## Building the path -/

theorem store_within {i : Nat} (h : i + bytes.length ≤ block.length) :
    store block i bytes = some (block.take i ++ bytes ++ block.drop (i + bytes.length)) := by
  have hroom : (0 : Int) ≤ i ∧ (i : Int) + bytes.length ≤ block.length := by omega
  rw [store, if_pos hroom, Int.toNat_natCast]

theorem strcpy_eq (h : bytes.length < block.length) :
    strcpy block bytes = some (bytes ++ 0 :: block.drop (bytes.length + 1)) := by
  have hlen : (bytes ++ [(0 : UInt8)]).length = bytes.length + 1 := List.length_append
  have hroom : 0 + (bytes ++ [(0 : UInt8)]).length ≤ block.length := by omega
  have hstore := store_within hroom
  rw [strcpy, ← Int.natCast_zero, hstore, hlen, List.take_zero, List.nil_append, Nat.zero_add,
    List.append_assoc]
  rfl

/-- The NUL of the first string is the first byte that is stored at. -/
theorem strcat_eq (hnul : (0 : UInt8) ∉ text) (h : bytes.length ≤ rest.length) :
    strcat (text ++ 0 :: rest) bytes = some (text ++ bytes ++ 0 :: rest.drop bytes.length) := by
  have hlen : (bytes ++ [(0 : UInt8)]).length = bytes.length + 1 := List.length_append
  have hstring : stringAt (text ++ 0 :: rest) 0 = some text :=
    stringAt_eq hnul (Nat.zero_le text.length)
  have hroom : text.length + (bytes ++ [(0 : UInt8)]).length ≤ (text ++ 0 :: rest).length := by
    rw [hlen, List.length_append, List.length_cons]
    omega
  rw [strcat, hstring, Option.bind_eq_bind, Option.bind_some, store_within hroom, List.take_left,
    hlen, ← List.drop_drop, List.drop_left, List.drop_succ_cons]
  simp only [List.append_assoc, List.cons_append, List.nil_append]

/-- **The path**, with its NUL and the byte behind it that nothing is stored at. -/
theorem createPath_eq (fresh : Nat → UInt8) (dir file : CString) :
    createPath (some fresh) (some dir) (some file) =
      some (some (dir.bytes ++ slash ++ file.bytes ++
        [0, fresh (dir.bytes.length + file.bytes.length + 2)])) := by
  have hslash : (0 : UInt8) ∉ dir.bytes ++ slash := by
    rw [List.mem_append, not_or]
    exact ⟨dir.nul_free, by decide⟩
  generalize hblock :
    (List.range (dir.bytes.length + file.bytes.length + 3)).map fresh = block
  have hlen : block.length = dir.bytes.length + file.bytes.length + 3 := by
    rw [← hblock, List.length_map, List.length_range]
  have hspare : block.drop (dir.bytes.length + file.bytes.length + 2) =
      [fresh (dir.bytes.length + file.bytes.length + 2)] := by
    rw [← hblock, List.range_succ, List.map_append, List.drop_left' (by simp)]
    rfl
  unfold createPath
  simp only [hblock]
  rw [strcpy_eq (by omega), Option.bind_eq_bind, Option.bind_some,
    strcat_eq dir.nul_free (by simp only [List.length_drop, slash, List.length_singleton]; omega),
    Option.bind_some,
    strcat_eq hslash (by simp only [List.length_drop, slash, List.length_singleton]; omega),
    List.drop_drop, List.drop_drop]
  have hindex : dir.bytes.length + 1 + (slash.length + file.bytes.length) =
      dir.bytes.length + file.bytes.length + 2 := by
    simp only [slash, List.length_singleton]
    omega
  rw [hindex, hspare]
  rfl

/-- What `open` is called with. -/
theorem stringAt_createPath (dir file : CString) (b : UInt8) :
    stringAt (dir.bytes ++ slash ++ file.bytes ++ [0, b]) 0 =
      some (dir.bytes ++ slash ++ file.bytes) := by
  have hnul : (0 : UInt8) ∉ dir.bytes ++ slash ++ file.bytes := by
    simp only [List.mem_append, not_or]
    exact ⟨⟨dir.nul_free, by decide⟩, file.nul_free⟩
  exact stringAt_eq hnul (Nat.zero_le _)

/-! ## What is read -/

/-- With `total` bytes read before, the reads deliver these, and the loop ends. -/
inductive Delivered (size : Nat) : List (Option (List UInt8)) → Nat → List UInt8 → Prop
  | done {answers : List (Option (List UInt8))} {total : Nat} (hend : size ≤ total) :
      Delivered size answers total []
  | read {answers : List (Option (List UInt8))} {bytes content : List UInt8} {total : Nat}
      (hmore : total < size) (hne : bytes ≠ [])
      (hrest : Delivered size answers (total + bytes.length) content) :
      Delivered size (some bytes :: answers) total (bytes ++ content)

theorem Delivered.of_le (h : Delivered s answers total content) (hend : s ≤ total) :
    content = [] := by
  cases h with
  | done => rfl
  | read hmore => omega

/-- **A read that succeeds** is one that delivers something, and the loop ends behind it. -/
theorem delivered_cons_iff (hmore : total < s) {answer : Option (List UInt8)} :
    Delivered s (answer :: answers) total content ↔
      ∃ bytes rest, answer = some bytes ∧ bytes ≠ [] ∧ content = bytes ++ rest ∧
        Delivered s answers (total + bytes.length) rest := by
  constructor
  · intro h
    cases h with
    | done hend => omega
    | read _ hne hrest => exact ⟨_, _, rfl, hne, rfl, hrest⟩
  · rintro ⟨bytes, rest, rfl, hne, rfl, hrest⟩
    exact .read hmore hne hrest

/-- The buffer at the end of the loop that reads: behind `pre`, what is delivered in front of the
zeros that are left of `n`. -/
def Buffered (size : Nat) (answers : List (Option (List UInt8))) (pre : List UInt8) (n : Nat)
    (last : Int) (loaded : List UInt8) : Prop :=
  ∃ content, Delivered size answers pre.length content ∧ content.length ≤ n ∧
    last = (pre ++ content).length ∧
    loaded = pre ++ content ++ List.replicate (n - content.length) 0

theorem buffered_done_iff (hend : s ≤ pre.length) : Buffered s answers pre n last loaded ↔
    last = pre.length ∧ loaded = pre ++ List.replicate n 0 := by
  constructor
  · rintro ⟨content, hcontent, -, rfl, rfl⟩
    obtain rfl := hcontent.of_le hend
    rw [List.append_nil, List.length_nil, Nat.sub_zero]
    exact ⟨rfl, rfl⟩
  · rintro ⟨rfl, rfl⟩
    refine ⟨[], .done hend, Nat.zero_le n, ?_, ?_⟩
    · rw [List.append_nil]
    · rw [List.append_nil, List.length_nil, Nat.sub_zero]

/-- One read that fits. -/
theorem buffered_cons_iff (hmore : pre.length < s) (hroom : bytes.length ≤ n) (hne : bytes ≠ []) :
    Buffered s (some bytes :: answers) pre n last loaded ↔
      Buffered s answers (pre ++ bytes) (n - bytes.length) last loaded := by
  have hlen : (pre ++ bytes).length = pre.length + bytes.length := List.length_append
  constructor
  · rintro ⟨content, hcontent, hfits, rfl, rfl⟩
    obtain ⟨first, rest, hfirst, -, rfl, hrest⟩ := (delivered_cons_iff hmore).mp hcontent
    obtain rfl := Option.some.inj hfirst
    rw [List.length_append] at hfits
    refine ⟨rest, by rw [hlen]; exact hrest, by omega, by rw [List.append_assoc], ?_⟩
    rw [List.length_append, Nat.sub_sub, List.append_assoc pre bytes]
  · rintro ⟨rest, hrest, hfits, rfl, rfl⟩
    rw [hlen] at hrest
    refine ⟨bytes ++ rest, .read hmore hne hrest, ?_, by rw [List.append_assoc], ?_⟩
    · rw [List.length_append]
      omega
    · rw [List.append_assoc pre, List.length_append, Nat.sub_sub]

/-- Where `total` has wrapped around, another read stores outside of the buffer. -/
theorem readLoop_negative {buffer : List UInt8} {total : Int} (h : total < 0) :
    readLoop s answers total buffer ≠ some (.ok (last, loaded)) := by
  have hmore : total < s := h.trans_le (Int.natCast_nonneg s)
  intro hok
  cases answers with
  | nil =>
    simp only [readLoop, if_pos hmore] at hok
    cases hok
  | cons answer answers =>
    simp only [readLoop, if_pos hmore] at hok
    cases answer with
    | none => cases hok
    | some bytes =>
      have houtside : ¬ (0 ≤ total ∧ total + bytes.length ≤ buffer.length) :=
        fun hin => not_le.mpr h hin.1
      simp only [store, if_neg houtside, Option.bind_eq_bind, Option.bind_none] at hok
      cases hok

/-- The loop is left with what was read before. -/
theorem left_iff (hend : s ≤ pre.length) (hpre : pre.length < 2 ^ 31) :
    (some (.ok ((pre.length : Int), pre ++ List.replicate n 0)) :
      Option (Except Result (Int × List UInt8))) = some (.ok (last, loaded)) ↔
        Buffered s answers pre n last loaded ∧ last < 2 ^ 31 := by
  rw [buffered_done_iff hend, Option.some.injEq, Except.ok.injEq, Prod.mk.injEq, eq_comm,
    eq_comm (b := loaded)]
  refine ⟨fun h => ⟨h, ?_⟩, fun h => h.1⟩
  rw [h.1]
  omega

/-- **The loop that reads** ends with what is delivered, if there is room for it and an `int` can
count it. Induction on the answers. -/
theorem readLoop_eq_ok_iff (hs : s < 2 ^ 31) (hlen : pre.length + n = s + 1)
    (hpre : pre.length < 2 ^ 31) :
    readLoop s answers pre.length (pre ++ List.replicate n 0) = some (.ok (last, loaded)) ↔
      Buffered s answers pre n last loaded ∧ last < 2 ^ 31 := by
  induction answers generalizing pre n with
  | nil =>
    unfold readLoop
    split
    · next hlt =>
      refine iff_of_false (fun h => by cases h) ?_
      rintro ⟨⟨content, hcontent, -⟩, -⟩
      cases hcontent with
      | done hend => omega
    · next hge => exact left_iff (by omega) hpre
  | cons answer answers ih =>
    unfold readLoop
    split
    · next hlt =>
      have hmore : pre.length < s := Int.ofNat_lt.mp hlt
      cases answer with
      | none =>
        refine iff_of_false (fun h => by cases h) ?_
        rintro ⟨⟨content, hcontent, -⟩, -⟩
        obtain ⟨bytes, -, hnone, -⟩ := (delivered_cons_iff hmore).mp hcontent
        cases hnone
      | some bytes =>
        simp only [Option.bind_eq_bind]
        rcases Nat.lt_or_ge n bytes.length with htight | hroom
        · -- the store is outside of the buffer
          have houtside : ¬ ((0 : Int) ≤ pre.length ∧ (pre.length : Int) + bytes.length ≤
              (pre ++ List.replicate n (0 : UInt8)).length) := by
            rw [List.length_append, List.length_replicate]
            omega
          rw [store, if_neg houtside]
          refine iff_of_false (fun h => by cases h) ?_
          rintro ⟨⟨content, hcontent, hfits, -⟩, -⟩
          obtain ⟨first, rest, hfirst, -, rfl, -⟩ := (delivered_cons_iff hmore).mp hcontent
          obtain rfl := Option.some.inj hfirst
          rw [List.length_append] at hfits
          omega
        · have hzeros : pre ++ List.replicate n (0 : UInt8) =
              pre ++ List.replicate bytes.length 0 ++ List.replicate (n - bytes.length) 0 := by
            rw [List.append_assoc, List.replicate_append_replicate, Nat.add_sub_cancel' hroom]
          rw [hzeros, store_eq pre _ _ bytes List.length_replicate.symm, Option.bind_some]
          by_cases hne : bytes = []
          · rw [if_pos hne]
            refine iff_of_false (fun h => by cases h) ?_
            rintro ⟨⟨content, hcontent, -⟩, -⟩
            obtain ⟨first, rest, hfirst, hfull, -⟩ := (delivered_cons_iff hmore).mp hcontent
            obtain rfl := Option.some.inj hfirst
            exact hfull hne
          · rw [if_neg hne, buffered_cons_iff hmore hroom hne]
            have hnext : (pre ++ bytes).length = pre.length + bytes.length := List.length_append
            rcases Nat.lt_or_ge (pre ++ bytes).length (2 ^ 31) with hcounts | hwraps
            · have htotal : toInt32 ((pre.length : Int) + bytes.length) =
                  (pre ++ bytes).length := by
                rw [← Int.natCast_add, ← hnext]
                exact toInt32_natCast hcounts
              rw [htotal]
              exact ih (by omega) hcounts
            · -- one byte more than an `int` can count: `total` is its least value
              have htotal : toInt32 ((pre.length : Int) + bytes.length) < 0 := by
                have hsum : (pre.length : Int) + bytes.length = 2 ^ 31 := by omega
                rw [hsum]
                decide
              refine iff_of_false (readLoop_negative htotal) ?_
              rintro ⟨⟨content, -, -, rfl, -⟩, hlast⟩
              rw [List.length_append] at hlast
              omega
    · next hge => exact left_iff (by omega) hpre

/-- The loop from its start. -/
theorem readLoop_start_iff (hs : s < 2 ^ 31) :
    readLoop s answers 0 (List.replicate (s + 1) 0) = some (.ok (last, loaded)) ↔
      (∃ content, Delivered s answers 0 content ∧ content.length ≤ s + 1 ∧
        last = content.length ∧ loaded = content ++ List.replicate (s + 1 - content.length) 0) ∧
      last < 2 ^ 31 :=
  @readLoop_eq_ok_iff _ [] _ _ _ _ hs (Nat.zero_add (s + 1)) (Nat.two_pow_pos 31)

/-- The loop that reads returns early with `1` only. -/
theorem readLoop_error {size total : Int} {buffer : List UInt8} {result : Result}
    (h : readLoop size answers total buffer = some (.error result)) : result.1 = 1 := by
  induction answers generalizing total buffer with
  | nil =>
    unfold readLoop at h
    split at h <;> cases h
  | cons answer answers ih =>
    unfold readLoop at h
    split at h
    · cases answer with
      | none =>
        cases h
        rfl
      | some bytes =>
        obtain ⟨stored, -, h⟩ := Option.bind_eq_some_iff.mp h
        split at h
        · cases h
          rfl
        · exact ih h
    · cases h

/-- The loop reaches the size. -/
theorem Delivered.size_le (h : Delivered s answers total content) : s ≤ total + content.length := by
  induction h with
  | done hend => omega
  | read hmore hne hrest ih =>
    rw [List.length_append]
    omega

/-- A file that is delivered as it was. -/
theorem Delivered.buffered (h : Delivered content.length answers 0 content)
    (hsize : content.length < 2 ^ 31) :
    readLoop content.length answers 0 (List.replicate (content.length + 1) 0) =
      some (.ok ((content.length : Int), content ++ [0])) := by
  refine (readLoop_start_iff hsize).mpr ⟨⟨content, h, Nat.le_succ _, rfl, ?_⟩, by omega⟩
  rw [Nat.add_sub_cancel_left]
  rfl

/-! ## The results of a call -/

/-- **A call that does not return `1`** has read its file, and compares its length. -/
theorem replaceWords2_reads {ret : Int} (hret : ret ≠ 1)
    (h : replaceWords2 fuel os (some find) (some replace) = some (ret, stdout)) :
    ∃ s last loaded, os.fstat = some s ∧ os.calloc = true ∧
      readLoop s os.read 0 (List.replicate (s + 1) 0) = some (.ok (last, loaded)) ∧
      (last > s ∧ ret = 2 ∧ stdout = [] ∨ last ≤ s ∧ ret = 0) := by
  unfold replaceWords2 at h
  simp only [] at h
  cases hfstat : os.fstat with
  | none =>
    rw [hfstat] at h
    cases h
    exact absurd rfl hret
  | some s =>
    cases hcalloc : os.calloc with
    | false =>
      simp only [hfstat, hcalloc, Bool.false_eq_true, if_false] at h
      cases h
      exact absurd rfl hret
    | true =>
      simp only [hfstat, hcalloc, if_true] at h
      obtain ⟨result, hread, h⟩ := Option.bind_eq_some_iff.mp h
      cases result with
      | error result =>
        cases h
        exact absurd (readLoop_error hread) hret
      | ok result =>
        obtain ⟨last, loaded⟩ := result
        refine ⟨s, last, loaded, rfl, rfl, hread, ?_⟩
        simp only [] at h
        split at h
        · next hmore =>
          cases h
          exact Or.inl ⟨hmore, rfl, rfl⟩
        · next hle =>
          simp only [Option.bind_eq_bind, Option.bind_eq_some_iff] at h
          obtain ⟨buffer, -, next, -, rest, -, h⟩ := h
          cases h
          exact Or.inr ⟨Int.not_lt.mp hle, rfl⟩

/-- **The calls that return `0`.** The word is not empty, the reads deliver as many bytes as
`fstat` has said, and these are written with the occurrences of the word in their text replaced. -/
theorem replaceWords2_zero_iff
    (hsize : ∀ s, os.fstat = some s → s < 2 ^ 31 ∧ s < fuel) :
    replaceWords2 fuel os (some find) (some replace) = some (0, stdout) ↔
      find.bytes ≠ [] ∧ ∃ content, os.fstat = some content.length ∧ os.calloc = true ∧
        Delivered content.length os.read 0 content ∧
        stdout = substitute find.bytes replace.bytes (textOf content) ++
          content.drop (textOf content).length := by
  -- what a call on these bytes writes
  have hcall : ∀ content, os.fstat = some content.length → os.calloc = true →
      Delivered content.length os.read 0 content → find.bytes ≠ [] →
      replaceWords2 fuel os (some find) (some replace) =
        some (0, substitute find.bytes replace.bytes (textOf content) ++
          content.drop (textOf content).length) := by
    intro content hfstat hcalloc hread hfind
    obtain ⟨hint, hfuel⟩ := hsize _ hfstat
    have hloaded := hread.buffered hint
    obtain ⟨tail, rest, hsplit, htail, hnul⟩ := exists_text content
    generalize textOf content = text at hsplit hnul ⊢
    subst hsplit
    rw [List.drop_left]
    exact replaceWords2_of_loaded replace hnul htail hfstat hcalloc hloaded hint hfind hfuel
  constructor
  · intro h
    obtain ⟨s, last, loaded, hfstat, hcalloc, hread, hcase⟩ := replaceWords2_reads (by decide) h
    have hint := (hsize s hfstat).1
    obtain ⟨⟨content, hcontent, -, rfl, -⟩, -⟩ := (readLoop_start_iff hint).mp hread
    have hreached := hcontent.size_le
    obtain ⟨-, hzero, -⟩ | ⟨hle, -⟩ := hcase
    · cases hzero
    rw [Nat.zero_add] at hreached
    obtain rfl : content.length = s := Nat.le_antisymm (Int.ofNat_le.mp hle) hreached
    have hfind : find.bytes ≠ [] := by
      intro hempty
      have hentered : entered os = some (content ++ [0]) := by
        simp only [entered, hfstat, hcalloc, if_true, Option.bind_eq_bind, Option.bind_some,
          hcontent.buffered hint, gt_iff_lt, Int.lt_irrefl, if_false, store_nul]
      rw [replaceWords2_empty replace hfstat hentered hempty] at h
      cases h
    rw [hcall content hfstat hcalloc hcontent hfind] at h
    exact ⟨hfind, content, hfstat, hcalloc, hcontent, (Prod.mk.inj (Option.some.inj h)).2.symm⟩
  · rintro ⟨hfind, content, hfstat, hcalloc, hread, rfl⟩
    exact hcall content hfstat hcalloc hread hfind

/-- **The calls that return `2`**, with all that they read in the buffer. There is room for one byte
more than `fstat` has said, which is the one of the NUL, so that the reads have delivered exactly
that. -/
theorem replaceWords2_two_iff (hsize : ∀ s, os.fstat = some s → s + 1 < 2 ^ 31) :
    replaceWords2 fuel os (some find) (some replace) = some (2, stdout) ↔
      stdout = [] ∧ ∃ s content, os.fstat = some s ∧ os.calloc = true ∧
        Delivered s os.read 0 content ∧ content.length = s + 1 := by
  constructor
  · intro h
    obtain ⟨s, last, loaded, hfstat, hcalloc, hread, hcase⟩ := replaceWords2_reads (by decide) h
    have hint : s < 2 ^ 31 := (Nat.lt_succ_self s).trans (hsize s hfstat)
    obtain ⟨⟨content, hcontent, hfits, rfl, -⟩, -⟩ := (readLoop_start_iff hint).mp hread
    obtain ⟨hmore, -, rfl⟩ | ⟨-, hzero⟩ := hcase
    · exact ⟨rfl, s, content, hfstat, hcalloc, hcontent, by omega⟩
    · cases hzero
  · rintro ⟨rfl, s, content, hfstat, hcalloc, hcontent, hone⟩
    have hint := hsize s hfstat
    have hread : readLoop s os.read 0 (List.replicate (s + 1) 0) =
        some (.ok ((content.length : Int), content)) := by
      refine (readLoop_start_iff (by omega)).mpr
        ⟨⟨content, hcontent, Nat.le_of_eq hone, rfl, ?_⟩, by omega⟩
      rw [hone, Nat.sub_self, List.replicate_zero, List.append_nil]
    have hmore : (content.length : Int) > s := by omega
    unfold replaceWords2
    simp only [hfstat, hcalloc, if_true, hread, Option.bind_eq_bind, Option.bind_some, if_pos hmore]
    rfl

/-- The loop has nothing left to store but the NUL. -/
theorem storedAt_of_le (h : s ≤ total) : storedAt s answers total = nulAt s total := by
  have hend : ¬ (total : Int) < s := by omega
  cases answers with
  | nil => exact if_neg hend
  | cons answer answers => exact if_neg hend

/-- **What is delivered is stored in the buffer** exactly if there is room for it. Induction on the
reads. -/
theorem Delivered.inside_iff (h : Delivered s answers total content) (hs : s + 1 < 2 ^ 31)
    (htotal : total ≤ s + 1) :
    (∀ i ∈ storedAt s answers total, Inside s i) ↔ total + content.length ≤ s + 1 := by
  induction h with
  | done hend =>
    rw [storedAt_of_le hend]
    exact iff_of_true (fun i hi => nulAt_inside (Int.natCast_nonneg s) (by omega) hi) htotal
  | @read answers bytes content total hmore hne hrest ih =>
    have hlt : (total : Int) < s := Int.ofNat_lt.mpr hmore
    rw [storedAt, if_pos hlt, if_neg hne, List.forall_mem_append, range_inside_iff hmore,
      List.length_append]
    rcases Nat.lt_or_ge (s + 1) (total + bytes.length) with hover | hroom
    · exact iff_of_false (fun hin => by omega) (by omega)
    · have hcounted : toInt32 ((total : Int) + bytes.length) = (total + bytes.length : Nat) := by
        rw [← Int.natCast_add]
        exact toInt32_natCast (by omega)
      rw [hcounted, ih hroom, ← Nat.add_assoc]
      exact ⟨fun hin => hin.2, fun hall => ⟨hroom, hall⟩⟩

/-! ## The whole program -/

/-- The program gets as far as the call: it has its words, and has opened its file. -/
structure Process.Opens (process : Process) (find replace : CString) (os : Environment) : Prop where
  find : process.argv[1]? = some find
  replace : process.argv[2]? = some replace
  malloc : process.malloc.isSome
  file : ∃ dir file, process.getenv EV_DIR = some dir ∧ process.getenv EV_FILE = some file ∧
    process.openFile (dir.bytes ++ slash ++ file.bytes) = some os

/-- What `main` writes behind a call. -/
def Process.after (process : Process) (ret : Int) : List UInt8 :=
  (if ret = 0 then process.strerror else []) ++ if ret = 2 then readMore else []

variable {process : Process}

/-- **A run that gets as far** is its call, and what is written behind it. -/
theorem main_of_opens (h : process.Opens find replace os) :
    main fuel process = (replaceWords2 fuel os (some find) (some replace)).map fun result =>
      (result.1, result.2 ++ process.after result.1) := by
  obtain ⟨hfind, hreplace, hmalloc, dir, file, hdir, hfile, hopen⟩ := h
  obtain ⟨fresh, hfresh⟩ := Option.isSome_iff_exists.mp hmalloc
  have hargs : ¬ process.argv.length < 3 := by
    obtain ⟨hlt, -⟩ := List.getElem?_eq_some_iff.mp hreplace
    omega
  unfold main
  simp only [if_neg hargs, hdir, hfile, hfresh, createPath_eq, stringAt_createPath, hopen, hfind,
    hreplace, Option.bind_eq_bind, Option.bind_some]
  cases replaceWords2 fuel os (some find) (some replace) with
  | none => rfl
  | some result =>
    obtain ⟨ret, written⟩ := result
    by_cases hzero : ret = 0
    · subst hzero
      simp [Process.after]
    · by_cases htwo : ret = 2
      · subst htwo
        simp [Process.after]
      · simp [Process.after, hzero, htwo]

/-- Whatever keeps the program from its file makes it exit with `1`. -/
theorem opens_of_main {ret : Int} (hret : ret ≠ 1)
    (h : main fuel process = some (ret, stdout)) :
    ∃ find replace os, process.Opens find replace os := by
  unfold main at h
  split at h
  · cases h
    exact absurd rfl hret
  · next hargs =>
    have hlen : 3 ≤ process.argv.length := Nat.not_lt.mp hargs
    have hfind := List.getElem?_eq_getElem (show 1 < process.argv.length by omega)
    have hreplace := List.getElem?_eq_getElem (show 2 < process.argv.length by omega)
    split at h
    · next dir file hdir hfile =>
      cases hmalloc : process.malloc with
      | none =>
        simp only [hmalloc, createPath, Option.bind_eq_bind, Option.bind_some] at h
        cases h
        exact absurd rfl hret
      | some fresh =>
        simp only [hmalloc, createPath_eq, stringAt_createPath, Option.bind_eq_bind,
          Option.bind_some] at h
        cases hopen : process.openFile (dir.bytes ++ slash ++ file.bytes) with
        | none =>
          simp only [hopen] at h
          cases h
          exact absurd rfl hret
        | some os =>
          exact ⟨_, _, os, hfind, hreplace, by rw [hmalloc]; rfl, dir, file, hdir, hfile, hopen⟩
    · cases h
      exact absurd rfl hret

/-- **Every other exit status than `1`** is the one of the call. -/
theorem main_eq_some_iff {ret : Int} (hret : ret ≠ 1) :
    main fuel process = some (ret, stdout) ↔
      ∃ find replace os written, process.Opens find replace os ∧
        replaceWords2 fuel os (some find) (some replace) = some (ret, written) ∧
        stdout = written ++ process.after ret := by
  constructor
  · intro h
    obtain ⟨find, replace, os, hopens⟩ := opens_of_main hret h
    rw [main_of_opens hopens, Option.map_eq_some_iff] at h
    obtain ⟨⟨ret', written⟩, hcall, hresult⟩ := h
    cases hresult
    exact ⟨find, replace, os, written, hopens, hcall, rfl⟩
  · rintro ⟨find, replace, os, written, hopens, hcall, rfl⟩
    rw [main_of_opens hopens, hcall]
    rfl

/-- **The runs that exit with `0`**, for files whose size is an `int`: the word is not empty, the
reads deliver as many bytes as `fstat` has said, and stdout is these bytes with the occurrences of
the word in their text replaced, and then the text of `strerror`. -/
theorem main_succeeds_iff
    (hsize : ∀ find replace os s, process.Opens find replace os → os.fstat = some s →
      s < 2 ^ 31 ∧ s < fuel) :
    main fuel process = some (0, stdout) ↔
      ∃ find replace os content, process.Opens find replace os ∧ find.bytes ≠ [] ∧
        os.fstat = some content.length ∧ os.calloc = true ∧
        Delivered content.length os.read 0 content ∧
        stdout = substitute find.bytes replace.bytes (textOf content) ++
          content.drop (textOf content).length ++ process.strerror := by
  have hafter : process.after 0 = process.strerror := List.append_nil _
  rw [main_eq_some_iff (by decide), hafter]
  constructor
  · rintro ⟨find, replace, os, written, hopens, hcall, rfl⟩
    obtain ⟨hfind, content, hfstat, hcalloc, hread, rfl⟩ :=
      (replaceWords2_zero_iff fun s => hsize find replace os s hopens).mp hcall
    exact ⟨find, replace, os, content, hopens, hfind, hfstat, hcalloc, hread, rfl⟩
  · rintro ⟨find, replace, os, content, hopens, hfind, hfstat, hcalloc, hread, rfl⟩
    refine ⟨find, replace, os, _, hopens, ?_, rfl⟩
    exact (replaceWords2_zero_iff fun s => hsize find replace os s hopens).mpr
      ⟨hfind, content, hfstat, hcalloc, hread, rfl⟩

/-- "b" is to be replaced by "" in the file "t" of the directory "d". -/
def processOf (os : Environment) : Process :=
  ⟨[⟨[120], by decide⟩, ⟨[98], by decide⟩, ⟨[], by decide⟩],
    fun name => some (if name = EV_DIR then ⟨[100], by decide⟩ else ⟨[116], by decide⟩),
    some fun _ => 7, fun path => if path = [100, 47, 116] then some os else none, [83]⟩

theorem processOf_opens (os : Environment) :
    (processOf os).Opens ⟨[98], by decide⟩ ⟨[], by decide⟩ os :=
  ⟨rfl, rfl, rfl, ⟨[100], by decide⟩, ⟨[116], by decide⟩, rfl, rfl, rfl⟩

theorem eq_of_processOf_opens {file : Environment} (h : (processOf file).Opens find replace os) :
    os = file := by
  obtain ⟨dir, name, hdir, hname, hopen⟩ := h.file
  simp only [processOf] at hopen
  split at hopen
  · exact (Option.some.inj hopen).symm
  · cases hopen

/-- "aba" in two reads, and "S" from `strerror`. -/
theorem main_succeeds_two :
    main 4 (processOf ⟨some 3, true, [some [97], some [98, 97]]⟩) = some (0, [97, 97, 83]) := by
  refine (main_succeeds_iff fun find replace os s hopens hs => ?_).mpr
    ⟨_, _, _, [97, 98, 97], processOf_opens _, by decide, rfl, rfl, ?_, rfl⟩
  · obtain rfl := eq_of_processOf_opens hopens
    cases hs
    decide
  · exact .read (by decide) (by decide) (.read (by decide) (by decide) (.done (by decide)))

/-- **The runs that exit with `2`**, with all that is read in the buffer: the reads deliver one byte
more than `fstat` has said. Of a file that has grown by more, some bytes are stored behind the
buffer. -/
theorem main_overread_iff
    (hsize : ∀ find replace os s, process.Opens find replace os → os.fstat = some s →
      s + 1 < 2 ^ 31) :
    (main fuel process = some (2, stdout) ↔
      stdout = readMore ∧ ∃ find replace os s content, process.Opens find replace os ∧
        os.fstat = some s ∧ os.calloc = true ∧ Delivered s os.read 0 content ∧
        content.length = s + 1) ∧
    ∀ find replace os s content, process.Opens find replace os → os.fstat = some s →
      os.calloc = true → Delivered s os.read 0 content → s < content.length →
        ((∀ i ∈ storedAt s os.read 0, 0 ≤ i ∧ i < (s : Int) + 1) ↔ content.length = s + 1) := by
  have hafter : process.after 2 = readMore := List.nil_append _
  refine ⟨?_, fun find replace os s content hopens hfstat _ hcontent hlong => ?_⟩
  · rw [main_eq_some_iff (by decide), hafter]
    constructor
    · rintro ⟨find, replace, os, written, hopens, hcall, rfl⟩
      obtain ⟨rfl, s, content, hfstat, hcalloc, hread, hone⟩ :=
        (replaceWords2_two_iff fun s => hsize find replace os s hopens).mp hcall
      exact ⟨List.nil_append _, find, replace, os, s, content, hopens, hfstat, hcalloc, hread,
        hone⟩
    · rintro ⟨rfl, find, replace, os, s, content, hopens, hfstat, hcalloc, hread, hone⟩
      refine ⟨find, replace, os, [], hopens, ?_, (List.nil_append _).symm⟩
      exact (replaceWords2_two_iff fun s => hsize find replace os s hopens).mpr
        ⟨rfl, s, content, hfstat, hcalloc, hread, hone⟩
  · have hinside : (∀ i ∈ storedAt s os.read 0, Inside s i) ↔ 0 + content.length ≤ s + 1 :=
      hcontent.inside_iff (hsize find replace os s hopens hfstat) (Nat.zero_le _)
    rw [Nat.zero_add] at hinside
    exact hinside.trans ⟨fun hle => Nat.le_antisymm hle hlong, Nat.le_of_eq⟩

/-- A file of two bytes that has become "abb" by the time of the second read. -/
theorem main_overread_one :
    main 3 (processOf ⟨some 2, true, [some [97], some [98, 98]]⟩) = some (2, readMore) := by
  refine (main_overread_iff fun find replace os s hopens hs => ?_).1.mpr
    ⟨rfl, _, _, _, 2, [97, 98, 98], processOf_opens _, rfl, rfl, ?_, rfl⟩
  · obtain rfl := eq_of_processOf_opens hopens
    cases hs
    decide
  · exact .read (by decide) (by decide) (.read (by decide) (by decide) (.done (by decide)))

end OsHw.Hw1
