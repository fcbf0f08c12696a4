import OsHw.Lib.Fields
import Mathlib.Data.List.TakeWhile

/-!
# OsHw — the words of a line (`myshell_main.c`)

`main` reads a line with `getline` and cuts it up with `strtok`, which writes a NUL behind each
word. The items of `arglist` point into the line.

* A pointer into the line is an index. An access outside the line has no result.
* `getline` has put a NUL behind the characters that it has read; there may be others among them.
* `memory k` says whether the `malloc` of an iteration (`k = 0`) and its `k`-th `realloc` succeed.
* The loop takes the number of rounds that it may make.
* **`readWords_eq`** — `arglist` has its `NULL` behind the last word and nowhere else, and its words
  are the fields of the line.
-/

namespace OsHw.Hw2

open Fields

/-- The string `" \t\n"` that `strtok` is called with. -/
def isDelimiter (c : Char) : Bool := c == ' ' || c == '\t' || c == '\n'

def NUL : Char := '\x00'

/-- The line, and where the next call of `strtok` goes on. -/
structure Line where
  buff : List Char
  next : Nat

/-- The index behind the characters from `i` on that satisfy `q`. -/
def spanFrom (buff : List Char) (i : Nat) (q : Char → Bool) : Nat :=
  i + ((buff.drop i).takeWhile q).length

/-- The next token, or `NULL`. -/
def strtok (line : Line) : Option (Option Nat × Line) := do
  let start := spanFrom line.buff line.next isDelimiter
  if (← line.buff[start]?) = NUL then
    return (none, { line with next := start })
  let stop := spanFrom line.buff start fun c => !isDelimiter c && c != NUL
  if (← line.buff[stop]?) = NUL then
    return (some start, { line with next := stop })
  return (some start, ⟨line.buff.set stop NUL, stop + 1⟩)

/-- What an iteration of `main` makes of a line; without memory it exits. -/
inductive Filled where
  | failed
  | arguments (count : Nat) (arglist : List (Option Nat)) (line : Line)

/-- The loop that fills `arglist`. -/
def fillLoop (memory : Nat → Bool) :
    Nat → Nat → List (Option Nat) → Line → Option Filled
  | 0, _, _, _ => none
  | fuel + 1, count, arglist, line => do
    match ← arglist[count]? with
    | none => return .arguments count arglist line
    | some _ =>
      if memory (count + 1) then
        let (token, line) ← strtok line
        fillLoop memory fuel (count + 1) (arglist ++ [token]) line
      else return .failed

/-- From the `malloc` to the end of the loop. -/
def readWords (fuel : Nat) (memory : Nat → Bool) (text : List Char) : Option Filled :=
  if memory 0 then do
    let (token, line) ← strtok ⟨text ++ [NUL], 0⟩
    fillLoop memory fuel 0 [token] line
  else some .failed

/-- The string at an index. -/
def stringAt (buff : List Char) (i : Nat) : Option String :=
  if NUL ∈ buff.drop i then some (String.ofList ((buff.drop i).takeWhile (· != NUL))) else none

/-- The words that `process_arglist` is called with. -/
def wordsOf (count : Nat) (arglist : List (Option Nat)) (line : Line) : Option (List String) :=
  (arglist.take count).mapM fun p => p.bind (stringAt line.buff)

/-- What a line says: the fields of what is before its first NUL. -/
def lineWords (text : List Char) : List String :=
  (fields isDelimiter (text.takeWhile (· != NUL))).map String.ofList

/-! ## `strtok` -/

variable {pre gap w s rest : List Char} {ws : List (List Char)} {c : Char}

theorem isDelimiter_NUL : isDelimiter NUL = false := rfl

/-- A span ends at the first character that is not of its kind. -/
theorem spanFrom_eq {q : Char → Bool} (hgap : ∀ c ∈ gap, q c = true) (hc : q c = false)
    (pre rest : List Char) : spanFrom (pre ++ (gap ++ c :: rest)) pre.length q =
      pre.length + gap.length := by
  rw [spanFrom, List.drop_left, List.takeWhile_append_of_pos hgap,
    List.takeWhile_cons_of_neg (by simp [hc]), List.append_nil]

theorem getElem?_behind (pre gap rest : List Char) (c : Char) :
    (pre ++ (gap ++ c :: rest))[pre.length + gap.length]? = some c := by
  rw [← List.append_assoc, ← List.length_append, List.getElem?_append_right (Nat.le_refl _),
    Nat.sub_self]
  rfl

/-- Nothing but delimiters is left. -/
theorem strtok_blank (hgap : ∀ c ∈ gap, isDelimiter c = true) (pre rest : List Char) :
    strtok ⟨pre ++ (gap ++ NUL :: rest), pre.length⟩ =
      some (none, ⟨pre ++ (gap ++ NUL :: rest), pre.length + gap.length⟩) := by
  simp only [strtok, spanFrom_eq hgap isDelimiter_NUL, getElem?_behind, Option.bind_eq_bind,
    Option.bind_some, if_true]
  rfl

/-- A word begins behind the delimiters, and ends at `c`. -/
theorem strtok_word (hgap : ∀ c ∈ gap, isDelimiter c = true) (hw : Word isDelimiter w)
    (hnul : NUL ∉ w) (hc : isDelimiter c = true ∨ c = NUL) (pre rest : List Char) :
    strtok ⟨pre ++ (gap ++ (w ++ c :: rest)), pre.length⟩ =
      some (some (pre.length + gap.length),
        if c = NUL then ⟨pre ++ (gap ++ (w ++ c :: rest)), pre.length + gap.length + w.length⟩
        else ⟨pre ++ (gap ++ (w ++ NUL :: rest)), pre.length + gap.length + w.length + 1⟩) := by
  obtain ⟨hne, hword⟩ := hw
  have hstart : spanFrom (pre ++ (gap ++ (w ++ c :: rest))) pre.length isDelimiter =
      pre.length + gap.length := by
    obtain ⟨a, w, rfl⟩ := List.exists_cons_of_ne_nil hne
    exact spanFrom_eq hgap (hword a List.mem_cons_self) pre _
  have hfirst : ∃ a ∈ w, (pre ++ (gap ++ (w ++ c :: rest)))[pre.length + gap.length]? = some a := by
    obtain ⟨a, w, rfl⟩ := List.exists_cons_of_ne_nil hne
    exact ⟨a, List.mem_cons_self, getElem?_behind pre gap _ a⟩
  obtain ⟨a, hmem, ha⟩ := hfirst
  have hne : a ≠ NUL := fun heq => hnul (heq ▸ hmem)
  -- the word is scanned from behind the delimiters on
  have hassoc : pre ++ (gap ++ (w ++ c :: rest)) = (pre ++ gap) ++ (w ++ c :: rest) :=
    (List.append_assoc _ _ _).symm
  have hstop : spanFrom (pre ++ (gap ++ (w ++ c :: rest))) (pre.length + gap.length)
      (fun c => !isDelimiter c && c != NUL) = pre.length + gap.length + w.length := by
    rw [hassoc, ← List.length_append]
    refine spanFrom_eq (fun d hd => ?_) ?_ (pre ++ gap) rest
    · rw [hword d hd, Bool.not_false, Bool.true_and, bne_iff_ne]
      exact fun heq => hnul (heq ▸ hd)
    · rcases hc with hc | rfl
      · rw [hc, Bool.not_true, Bool.false_and]
      · rfl
  have hend : (pre ++ (gap ++ (w ++ c :: rest)))[pre.length + gap.length + w.length]? = some c := by
    rw [hassoc, ← List.length_append]
    exact getElem?_behind (pre ++ gap) w rest c
  simp only [strtok, hstart, ha, hstop, hend, Option.bind_eq_bind, Option.bind_some, if_neg hne]
  by_cases hcn : c = NUL
  · simp only [if_pos hcn]
    rfl
  · have hset : (pre ++ (gap ++ (w ++ c :: rest))).set (pre.length + gap.length + w.length) NUL =
        pre ++ (gap ++ (w ++ NUL :: rest)) := by
      rw [List.set_append_right _ _ (by omega), List.set_append_right _ _ (by omega),
        List.set_append_right _ _ (by omega)]
      have hzero : pre.length + gap.length + w.length - pre.length - gap.length - w.length = 0 := by
        omega
      rw [hzero, List.set_cons_zero]
    simp only [if_neg hcn, hset]
    rfl

/-! ## The loop -/

/-- The string that `strtok` has ended with a NUL. -/
theorem stringAt_word (hnul : NUL ∉ w) (pre rest : List Char) :
    stringAt (pre ++ (w ++ NUL :: rest)) pre.length = some (String.ofList w) := by
  have hall : ∀ c ∈ w, (c != NUL) = true := by
    intro c hc
    rw [bne_iff_ne]
    exact fun heq => hnul (heq ▸ hc)
  rw [stringAt, List.drop_left, if_pos (by simp), List.takeWhile_append_of_pos hall,
    List.takeWhile_cons_of_neg (by simp), List.append_nil]

/-- What the loop makes of a call of `strtok`. -/
def fillFrom (memory : Nat → Bool) (fuel : Nat) (arglist : List (Option Nat)) (line : Line) :
    Option Filled :=
  (strtok line).bind fun (token, line) =>
    fillLoop memory fuel arglist.length (arglist ++ [token]) line

variable {memory : Nat → Bool} {fuel : Nat}

/-- After the last word. -/
theorem fillFrom_blank (memory : Nat → Bool) (hgap : ∀ c ∈ gap, isDelimiter c = true)
    (arglist : List (Option Nat)) (pre rest : List Char) (fuel : Nat) :
    fillFrom memory (fuel + 1) arglist ⟨pre ++ (gap ++ NUL :: rest), pre.length⟩ =
      some (.arguments arglist.length (arglist ++ [none])
        ⟨pre ++ (gap ++ NUL :: rest), pre.length + gap.length⟩) := by
  rw [fillFrom, strtok_blank hgap, Option.bind_some]
  simp only [fillLoop, List.getElem?_concat_length]
  rfl

/-- One round of the loop. -/
theorem fillFrom_token {line next : Line} {p : Nat} (hm : ∀ k, memory k = true)
    (htok : strtok line = some (some p, next)) (arglist : List (Option Nat)) (fuel : Nat) :
    fillFrom memory (fuel + 1) arglist line =
      fillFrom memory fuel (arglist ++ [some p]) next := by
  rw [fillFrom, htok, Option.bind_some]
  simp only [fillLoop, List.getElem?_concat_length, Option.bind_eq_bind, Option.bind_some, hm,
    if_true]
  rw [fillFrom, List.length_append, List.length_singleton]

/-- **The loop.** Induction on how the words are laid out in what is left of the line. What is
before that stays as it is, so the words found earlier stay where they are. -/
theorem fillFrom_laid (hm : ∀ k, memory k = true) (hlaid : Laid isDelimiter ws s) (hs : NUL ∉ s)
    (arglist : List (Option Nat)) (pre rest : List Char) (hfuel : ws.length < fuel) :
    ∃ (items : List Nat) (buff : List Char) (next : Nat),
      fillFrom memory fuel arglist ⟨pre ++ (s ++ NUL :: rest), pre.length⟩ =
        some (.arguments (arglist ++ items.map some).length (arglist ++ items.map some ++ [none])
          ⟨pre ++ buff, next⟩) ∧
      items.map (stringAt (pre ++ buff)) = ws.map fun w => some (String.ofList w) := by
  induction hlaid generalizing fuel arglist pre with
  | @nil gap hgap =>
    obtain ⟨fuel, rfl⟩ := Nat.exists_eq_add_one_of_ne_zero (Nat.ne_of_gt hfuel)
    refine ⟨[], gap ++ NUL :: rest, pre.length + gap.length, ?_, rfl⟩
    rw [fillFrom_blank memory hgap, List.map_nil, List.append_nil]
  | @last gap w hgap hw =>
    have hnul : NUL ∉ w := fun hmem => hs (List.mem_append_right gap hmem)
    obtain ⟨fuel, rfl⟩ := Nat.exists_eq_add_of_lt hfuel
    have htok := strtok_word hgap hw hnul (Or.inr rfl) pre rest
    have hline : (⟨pre ++ (gap ++ (w ++ NUL :: rest)), pre.length + gap.length + w.length⟩ : Line) =
        ⟨pre ++ (gap ++ w) ++ ([] ++ NUL :: rest), (pre ++ (gap ++ w)).length⟩ := by
      simp [Nat.add_assoc]
    rw [if_pos rfl, hline] at htok
    -- the next call finds the NUL that ended the word
    have hnone : ∀ c ∈ ([] : List Char), isDelimiter c = true := by simp
    have hblank := fillFrom_blank memory hnone
      (arglist ++ [some (pre.length + gap.length)]) (pre ++ (gap ++ w)) rest fuel
    refine ⟨[pre.length + gap.length], gap ++ (w ++ NUL :: rest), (pre ++ (gap ++ w)).length, ?_,
      ?_⟩
    · have hassoc : pre ++ (gap ++ w ++ NUL :: rest) = pre ++ (gap ++ (w ++ NUL :: rest)) := by simp
      have hfuel' : [w].length + fuel + 1 = fuel + 1 + 1 := by
        rw [List.length_singleton]
        omega
      rw [hassoc, hfuel', fillFrom_token hm htok, hblank, List.nil_append]
      simp
    · rw [List.map_singleton, List.map_singleton, ← List.append_assoc, ← List.length_append,
        stringAt_word hnul]
  | @cons gap w s c ws hgap hw hc _ ih =>
    -- the characters up to the new NUL are not touched again
    have hnul : NUL ∉ w := fun hmem => hs (by simp [hmem])
    have hrest : NUL ∉ s := fun hmem => hs (by simp [hmem])
    have hcn : c ≠ NUL := fun heq => hs (by simp [heq])
    obtain ⟨fuel, rfl⟩ := Nat.exists_eq_add_one_of_ne_zero (Nat.ne_of_gt (Nat.zero_lt_of_lt hfuel))
    have htok := strtok_word hgap hw hnul (Or.inl hc) pre (s ++ NUL :: rest)
    rw [if_neg hcn] at htok
    have hline : (⟨pre ++ (gap ++ (w ++ NUL :: (s ++ NUL :: rest))),
        pre.length + gap.length + w.length + 1⟩ : Line) =
        ⟨pre ++ (gap ++ (w ++ [NUL])) ++ (s ++ NUL :: rest),
          (pre ++ (gap ++ (w ++ [NUL]))).length⟩ := by
      simp [Nat.add_assoc]
    rw [hline] at htok
    obtain ⟨items, buff, next, hfill, hstrings⟩ := ih hrest
      (arglist ++ [some (pre.length + gap.length)]) (pre ++ (gap ++ (w ++ [NUL])))
      (Nat.lt_of_succ_lt_succ hfuel)
    have hbuff : pre ++ (gap ++ (w ++ [NUL])) ++ buff = pre ++ (gap ++ (w ++ NUL :: buff)) := by
      simp
    rw [hbuff] at hfill hstrings
    have hword : stringAt (pre ++ (gap ++ (w ++ NUL :: buff))) (pre.length + gap.length) =
        some (String.ofList w) := by
      rw [← List.append_assoc, ← List.length_append]
      exact stringAt_word hnul (pre ++ gap) buff
    refine ⟨(pre.length + gap.length) :: items, gap ++ (w ++ NUL :: buff), next, ?_, ?_⟩
    · have hassoc : pre ++ (gap ++ w ++ c :: s ++ NUL :: rest) =
          pre ++ (gap ++ (w ++ c :: (s ++ NUL :: rest))) := by simp
      rw [hassoc, fillFrom_token hm htok, hfill, List.append_assoc arglist]
      rfl
    · rw [List.map_cons, List.map_cons, hword, hstrings]

/-! ## The words -/

/-- A layout has at least one character for each word. -/
theorem length_le_of_laid {p : Char → Bool} (h : Laid p ws s) : ws.length ≤ s.length := by
  induction h with
  | nil => exact Nat.zero_le _
  | last _ hw =>
    rw [List.length_append]
    have hpos := List.length_pos_iff.mpr hw.1
    simp only [List.length_singleton]
    omega
  | cons _ _ _ _ ih =>
    simp only [List.length_append, List.length_cons]
    omega

/-- What is read of a line is what is before its first NUL. -/
theorem exists_rest (text : List Char) :
    ∃ rest, text ++ [NUL] = text.takeWhile (· != NUL) ++ NUL :: rest := by
  rcases exists_span (fun c => c != NUL) text with hall | ⟨before, c, after, rfl, hbefore, hc⟩
  · refine ⟨[], ?_⟩
    rw [List.takeWhile_eq_self_iff.mpr hall]
  · have hnul : c = NUL := by simpa using hc
    subst hnul
    refine ⟨after ++ [NUL], ?_⟩
    rw [List.takeWhile_append_of_pos hbefore, List.takeWhile_cons_of_neg (by simp)]
    simp

theorem mapM_of_map {α β : Type} {f : α → Option β} {l : List α} {l' : List β}
    (h : l.map f = l'.map some) : l.mapM f = some l' := by
  induction l generalizing l' with
  | nil =>
    rw [List.map_nil, eq_comm, List.map_eq_nil_iff] at h
    rw [h]
    rfl
  | cons a l ih =>
    cases l' with
    | nil => cases h
    | cons b l' =>
      rw [List.map_cons, List.map_cons, List.cons.injEq] at h
      rw [List.mapM_cons, h.1, ih h.2]
      rfl

theorem length_of_mapM {α β : Type} {f : α → Option β} {l : List α} {l' : List β}
    (h : l.mapM f = some l') : l'.length = l.length := by
  induction l generalizing l' with
  | nil =>
    cases h
    rfl
  | cons a l ih =>
    rw [List.mapM_cons] at h
    obtain ⟨b, -, h⟩ := Option.bind_eq_some_iff.mp h
    obtain ⟨bs, hbs, h⟩ := Option.bind_eq_some_iff.mp h
    cases h
    exact congrArg (· + 1) (ih hbs)

/-- Only the last item is `NULL`. -/
theorem getElem?_arglist (items : List Nat) (i : Nat) :
    (items.map some ++ [none])[i]? = some none ↔ i = (items.map some).length := by
  rw [List.getElem?_append]
  split
  · next hlt =>
    rw [List.getElem?_map, Option.map_eq_some_iff]
    constructor
    · rintro ⟨p, -, hp⟩
      cases hp
    · intro heq
      omega
  · next hle =>
    rw [List.getElem?_eq_some_iff]
    constructor
    · rintro ⟨hlt, -⟩
      rw [List.length_singleton] at hlt
      omega
    · intro heq
      subst heq
      rw [Nat.sub_self]
      exact ⟨Nat.one_pos, rfl⟩

/-- **Reading a line.** `arglist` has `count + 1` items, of which the last and only the last is
`NULL`; its words are those of the line, and each is still in its place when all of them have been
found. -/
theorem readWords_eq (hm : ∀ k, memory k = true) (text : List Char) (hfuel : text.length < fuel) :
    ∃ (count : Nat) (arglist : List (Option Nat)) (line : Line),
      readWords fuel memory text = some (.arguments count arglist line) ∧
      arglist.length = count + 1 ∧ (∀ i, arglist[i]? = some none ↔ i = count) ∧
      wordsOf count arglist line = some (lineWords text) := by
  obtain ⟨rest, htext⟩ := exists_rest text
  have hlaid := fields_eq_iff.mp (Eq.refl (fields isDelimiter (text.takeWhile (· != NUL))))
  have hnul : NUL ∉ text.takeWhile (· != NUL) := by
    intro hmem
    have hne := List.all_eq_true.mp List.all_takeWhile NUL hmem
    exact absurd rfl (bne_iff_ne.mp hne)
  have hle : (text.takeWhile (· != NUL)).length ≤ text.length :=
    (List.takeWhile_prefix (· != NUL)).length_le
  have hlt := Nat.lt_of_le_of_lt (Nat.le_trans (length_le_of_laid hlaid) hle) hfuel
  obtain ⟨items, buff, next, hfill, hstrings⟩ := fillFrom_laid hm hlaid hnul [] [] rest hlt
  simp only [List.nil_append, List.length_nil] at hfill hstrings
  have hread : readWords fuel memory text =
      fillFrom memory fuel [] ⟨text.takeWhile (· != NUL) ++ NUL :: rest, 0⟩ := by
    rw [readWords, if_pos (hm 0), htext]
    rfl
  refine ⟨_, _, _, hread.trans hfill, ?_, getElem?_arglist items, ?_⟩
  · rw [List.length_append, List.length_singleton]
  · rw [wordsOf, List.take_left, List.mapM_map]
    apply mapM_of_map
    rw [lineWords, List.map_map]
    exact hstrings

theorem length_wordsOf {count : Nat} {arglist : List (Option Nat)} {line : Line}
    {words : List String} (hlen : arglist.length = count + 1)
    (h : wordsOf count arglist line = some words) : words.length = count := by
  rw [length_of_mapM h, List.length_take, hlen]
  omega

/-- **Words.** The words that `process_arglist` is called with are `ws` exactly if the line has
them laid out before its first NUL, with blanks, tabs and newlines around them. -/
theorem words_exact (hm : ∀ k, memory k = true) (text : List Char) (hfuel : text.length < fuel)
    (ws : List (List Char)) :
    (∃ (count : Nat) (arglist : List (Option Nat)) (line : Line),
      readWords fuel memory text = some (.arguments count arglist line) ∧
      arglist.length = count + 1 ∧ (∀ i, arglist[i]? = some none ↔ i = count) ∧
      wordsOf count arglist line = some (ws.map String.ofList)) ↔
    Laid isDelimiter ws (text.takeWhile (· != NUL)) := by
  obtain ⟨count, arglist, line, hread, hlen, hnull, hwords⟩ := readWords_eq hm text hfuel
  rw [← fields_eq_iff]
  constructor
  · rintro ⟨count', arglist', line', hread', -, -, hwords'⟩
    rw [hread] at hread'
    cases hread'
    rw [hwords] at hwords'
    exact List.map_inj_right (fun _ _ => String.ofList_injective) |>.mp (Option.some.inj hwords')
  · intro hfields
    refine ⟨count, arglist, line, hread, hlen, hnull, ?_⟩
    rw [hwords, lineWords, hfields]

/-- The words of a line with blanks on both sides. -/
theorem words_blanks : ∃ (count : Nat) (arglist : List (Option Nat)) (line : Line),
    readWords 7 (fun _ => true) [' ', 'l', 's', '\t', '&', '\n'] =
      some (.arguments count arglist line) ∧
    arglist.length = count + 1 ∧ (∀ i, arglist[i]? = some none ↔ i = count) ∧
    wordsOf count arglist line = some ["ls", "&"] := by
  refine (words_exact (fun _ => rfl) _ (by decide) [['l', 's'], ['&']]).mpr ?_
  exact fields_eq_iff.mp (by decide)

end OsHw.Hw2
