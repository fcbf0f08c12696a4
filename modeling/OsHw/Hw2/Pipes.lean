import OsHw.Hw2.Phases

/-!
# OsHw — who holds the pipe of a pipeline

A reader sees the end of its input when nobody holds the write end of the pipe. So the shell must
leave it to the first child, and the read end to the second one.

* **`firstImage_piped`**, **`secondImage_piped`** — what the children have when they call `execvp`.
* **`get_closedTable`** — the shell's two closes undo `pipe`.
* **`pipe_plumbing`** — every end has one holder, and all other descriptors are as inherited.
-/

namespace OsHw.Hw2

open Descriptors

variable {F : Type} {words : List String} {table : Table F} {former : List (Former F)}
  {s : State F} {i : Nat}

/-! ## Arguments -/

theorem argv_append (l : List String) (rest : List (Option String)) :
    argv (l.map some ++ none :: rest) = l := by
  induction l with
  | nil => rfl
  | cons w l ih => exact congrArg (w :: ·) ih

theorem argv_arglist (words : List String) : argv (arglist words) = words := argv_append words []

/-- A `NULL` in the place of a word cuts the arguments off. -/
theorem argv_set (hi : i < words.length) : argv ((arglist words).set i none) = words.take i := by
  have hlt : i < (words.map some).length := by rwa [List.length_map]
  have hcut : (arglist words).set i none =
      (words.take i).map some ++ none :: ((words.map some).drop (i + 1) ++ [none]) := by
    rw [arglist, List.set_append_left _ _ hlt, List.set_eq_take_append_cons_drop, if_pos hlt,
      List.map_take, List.append_assoc, List.cons_append]
  rw [hcut, argv_append]

theorem argv_drop (hi : i ≤ words.length) : argv ((arglist words).drop i) = words.drop i := by
  have hle : i ≤ (words.map some).length := by rwa [List.length_map]
  rw [arglist, List.drop_append_of_le_length hle, ← List.map_drop]
  exact argv_append (words.drop i) []

theorem isPiped_lt (hp : isPiped words = some i) : i < words.length :=
  (List.findIdx?_eq_some_iff_getElem.mp hp).1

/-! ## Descriptors -/

theorem get_inherit (table : Table F) (n : Nat) :
    get (inherit table) n = (get table n).map .inherited := by
  show (table.map (Option.map File.inherited))[n]?.join = table[n]?.join.map File.inherited
  rw [List.getElem?_map]
  cases table[n]? with
  | none => rfl
  | some f => rfl

/-- No pipe end is inherited. -/
theorem get_inherit_ne (table : Table F) (n : Nat) :
    get (inherit table) n ≠ some .writeEnd ∧ get (inherit table) n ≠ some .readEnd := by
  rw [get_inherit]
  cases get table n with
  | none => exact ⟨by simp, by simp⟩
  | some f => exact ⟨by simp, by simp⟩

/-- What `pipe` opens. -/
theorem get_pipeTable (table : Table F) :
    get (inherit table) (pipeNumbers table).1 = none ∧
      get (inherit table) (pipeNumbers table).2 = none ∧
      (pipeNumbers table).1 < (pipeNumbers table).2 ∧
      ∀ n, get (pipeTable table) n =
        if n = (pipeNumbers table).2 then some .writeEnd
        else if n = (pipeNumbers table).1 then some .readEnd
        else get (inherit table) n := by
  obtain ⟨r, w, t, hpipe, hr, hw, hlt, hget⟩ :=
    exists_pipe (inherit table) File.readEnd File.writeEnd
  have hnumbers : pipeNumbers table = (r, w) := by
    rw [pipeNumbers, hpipe]
  have htable : pipeTable table = t := by
    rw [pipeTable, hpipe]
  rw [hnumbers, htable]
  exact ⟨hr, hw, hlt, hget⟩

/-- The shell's closes undo `pipe`. -/
theorem get_closedTable (table : Table F) (n : Nat) :
    get (closedTable table) n = get (inherit table) n := by
  obtain ⟨hr, hw, -, hget⟩ := get_pipeTable table
  rw [closedTable, get_close, get_close, hget]
  by_cases hnw : n = (pipeNumbers table).2
  · rw [if_pos hnw, hnw, hw]
  · rw [if_neg hnw, if_neg hnw]
    by_cases hnr : n = (pipeNumbers table).1
    · rw [if_pos hnr, hnr, hr]
    · rw [if_neg hnr, if_neg hnr]

/-- **The first child** of a pipeline: its `dup2` succeeds. -/
theorem firstImage_piped (table : Table F) (hp : isPiped words = some i) :
    ∃ t, firstImage words table = some ⟨words.take i, ⟨.SIG_IGN, .SIG_DFL, t⟩⟩ ∧
      ∀ n, get t n = if n = (pipeNumbers table).2 then none
        else if n = 1 then some .writeEnd
        else if n = (pipeNumbers table).1 then none
        else get (inherit table) n := by
  obtain ⟨-, -, hlt, hget⟩ := get_pipeTable table
  have hne : ¬ isPiped words = none := by simp [hp]
  have hwrite : get (close (pipeTable table) (pipeNumbers table).1) (pipeNumbers table).2 =
      some .writeEnd := by
    rw [get_close, if_neg (by omega), hget, if_pos rfl]
  obtain ⟨t, hdup, ht⟩ := exists_dup2 hwrite 1
  refine ⟨close t (pipeNumbers table).2, ?_, fun n => ?_⟩
  · have hfds : pipeFdAt words table .fork1 = pipeNumbers table := if_neg hne
    have htable : tableAt words table .fork1 = pipeTable table := if_neg hne
    rw [firstImage, firstChild, hp, hfds, htable]
    simp only [execChild, Bool.false_eq_true, if_false, Process.dontIgnore, shellWith, hdup,
      Option.bind_eq_bind, Option.bind_some, argv_set (isPiped_lt hp)]
    rfl
  · rw [get_close, ht, get_close, hget]
    by_cases hnw : n = (pipeNumbers table).2
    · rw [if_pos hnw, if_pos hnw]
    · rw [if_neg hnw, if_neg hnw, if_neg hnw]
      by_cases hnr : n = (pipeNumbers table).1
      · rw [if_pos hnr, if_pos hnr]
      · rw [if_neg hnr, if_neg hnr, if_neg hnr]

/-- **The second child** of a pipeline: its `dup2` succeeds. -/
theorem secondImage_piped (table : Table F) (hp : isPiped words = some i) :
    ∃ t, secondImage words table i =
        some ⟨words.drop (i + 1), ⟨.SIG_IGN, .SIG_DFL, t⟩⟩ ∧
      ∀ n, get t n = if n = (pipeNumbers table).1 then none
        else if n = 0 then some .readEnd
        else if n = (pipeNumbers table).2 then none
        else get (inherit table) n := by
  obtain ⟨-, -, hlt, hget⟩ := get_pipeTable table
  have hread : get (close (pipeTable table) (pipeNumbers table).2) (pipeNumbers table).1 =
      some .readEnd := by
    rw [get_close, if_neg (by omega), hget, if_neg (by omega), if_pos rfl]
  obtain ⟨t, hdup, ht⟩ := exists_dup2 hread 0
  refine ⟨close t (pipeNumbers table).1, ?_, fun n => ?_⟩
  · rw [secondImage, secondChild]
    simp only [execChild, if_true, Process.dontIgnore, shellWith, hdup, Option.bind_eq_bind,
      Option.bind_some, argv_drop (Nat.succ_le_of_lt (isPiped_lt hp))]
    rfl
  · rw [get_close, ht, get_close, hget]
    by_cases hnr : n = (pipeNumbers table).1
    · rw [if_pos hnr, if_pos hnr]
    · rw [if_neg hnr, if_neg hnr, if_neg hnr]
      by_cases hnw : n = (pipeNumbers table).2
      · rw [if_pos hnw, if_pos hnw]
      · rw [if_neg hnw, if_neg hnw, if_neg hnw]

/-- If descriptor 0 is open, neither end of the pipe is 0, and only the read end may be 1. -/
theorem pipeNumbers_pos (h0 : get table 0 ≠ none) :
    0 < (pipeNumbers table).1 ∧ 1 < (pipeNumbers table).2 := by
  obtain ⟨hr, -, hlt, -⟩ := get_pipeTable table
  have hr0 : (pipeNumbers table).1 ≠ 0 := by
    intro hzero
    rw [hzero, get_inherit, Option.map_eq_none_iff] at hr
    exact h0 hr
  omega

/-- The first child has the write end as descriptor 1. -/
theorem writer_image (h0 : get table 0 ≠ none) (hp : isPiped words = some i) :
    ∃ image, firstImage words table = some image ∧ ∀ n, get image.process.table n =
      if n = 1 then some .writeEnd else get (inherit table) n := by
  obtain ⟨hr, hw, -, -⟩ := get_pipeTable table
  obtain ⟨-, hw1⟩ := pipeNumbers_pos h0
  obtain ⟨t, hfirst, ht⟩ := firstImage_piped table hp
  refine ⟨_, hfirst, fun n => ?_⟩
  show get t n = _
  rw [ht]
  by_cases hnw : n = (pipeNumbers table).2
  · rw [if_pos hnw, if_neg (by omega), hnw, hw]
  · rw [if_neg hnw]
    by_cases hn1 : n = 1
    · rw [if_pos hn1, if_pos hn1]
    · rw [if_neg hn1, if_neg hn1]
      by_cases hnr : n = (pipeNumbers table).1
      · rw [if_pos hnr, hnr, hr]
      · rw [if_neg hnr]

/-- The second child has the read end as descriptor 0. -/
theorem reader_image (h0 : get table 0 ≠ none) (hp : isPiped words = some i) :
    ∃ image, secondImage words table i = some image ∧ ∀ n, get image.process.table n =
      if n = 0 then some .readEnd else get (inherit table) n := by
  obtain ⟨hr, hw, -, -⟩ := get_pipeTable table
  obtain ⟨hr0, -⟩ := pipeNumbers_pos h0
  obtain ⟨t, hsecond, ht⟩ := secondImage_piped table hp
  refine ⟨_, hsecond, fun n => ?_⟩
  show get t n = _
  rw [ht]
  by_cases hnr : n = (pipeNumbers table).1
  · rw [if_pos hnr, if_neg (by omega), hnr, hr]
  · rw [if_neg hnr]
    by_cases hn0 : n = 0
    · rw [if_pos hn0, if_pos hn0]
    · rw [if_neg hn0, if_neg hn0]
      by_cases hnw : n = (pipeNumbers table).2
      · rw [if_pos hnw, hnw, hw]
      · rw [if_neg hnw]

/-! ## The pipeline -/

/-- The processes of a call. -/
inductive Holder where
  | shell
  | child (pid : Nat)
  | former (i : Nat)
  deriving DecidableEq

/-- The descriptors of a process; those of a child when it calls `execvp`. -/
def State.tableOf (s : State F) (q : Holder) : Table (File F) :=
  match q with
  | .shell => s.shell.table
  | .child pid =>
    match s.children[pid]?.bind Child.image with
    | none => []
    | some image => image.process.table
  | .former i =>
    match s.former[i]? with
    | none => []
    | some c => inherit c.table

/-- `process_arglist` has closed both ends of the pipe. -/
def State.closed (s : State F) : Prop := s.phase = .wait1 ∨ s.phase = .wait2 ∨ s.phase = .returned

theorem tableOf_child (s : State F) (pid : Nat) :
    s.tableOf (.child pid) =
      match (s.children.map Child.image)[pid]?.join with
      | none => []
      | some image => image.process.table := by
  have hjoin : (s.children.map Child.image)[pid]?.join = s.children[pid]?.bind Child.image := by
    rw [List.getElem?_map]
    cases s.children[pid]? with
    | none => rfl
    | some c => rfl
  rw [hjoin]
  rfl

theorem get_former_ne (s : State F) (j n : Nat) :
    get (s.tableOf (.former j)) n ≠ some .writeEnd ∧
      get (s.tableOf (.former j)) n ≠ some .readEnd := by
  have htable : s.tableOf (.former j) =
      match s.former[j]? with
      | none => []
      | some c => inherit c.table := rfl
  rw [htable]
  cases s.former[j]? with
  | none => exact get_inherit_ne [] n
  | some c => exact get_inherit_ne c.table n

theorem isPiped_of_mem (h : "|" ∈ words) : ∃ i, isPiped words = some i := by
  apply Option.isSome_iff_exists.mp
  rw [isPiped, List.findIdx?_isSome, List.any_eq_true]
  exact ⟨"|", h, beq_self_eq_true _⟩

/-- The shell of a foreground pipeline that has closed the pipe. -/
theorem closed_pipeline (hfg : isBackground words = false) (hp : isPiped words = some i)
    (hs : Reachable words table former s) (hclosed : s.closed) :
    s.children.map Child.image = [firstImage words table, secondImage words table i] ∧
      s.shell.table = closedTable table := by
  have hd := hs.determined
  have hne : ¬ isPiped words = none := by simp [hp]
  have hlen : ¬ words.length = 0 := by
    have hlt := isPiped_lt hp
    omega
  have hall : allImages words table = [firstImage words table, secondImage words table i] := by
    rw [allImages, hp]
    exact if_neg (by simp [hfg])
  rw [hd.images, hd.shell]
  rcases hclosed with hphase | hphase | hphase
  · rw [hphase]
    exact ⟨hall, if_neg hne⟩
  · rw [hphase]
    exact ⟨hall, if_neg hne⟩
  · rw [hphase]
    refine ⟨(if_neg hlen).trans hall, ?_⟩
    show tableAt words table .returned = closedTable table
    simp only [tableAt, if_neg hne, hfg, Bool.false_eq_true, if_false]

/-- In a table with one more file `x`, what is not inherited is `x`. -/
theorem eq_end_iff {x e : File F} {n k : Nat} (he : get (inherit table) n ≠ some e) :
    (if n = k then some x else get (inherit table) n) = some e ↔ n = k ∧ x = e := by
  by_cases hn : n = k
  · rw [if_pos hn, Option.some.injEq]
    exact ⟨fun hx => ⟨hn, hx⟩, fun h => h.2⟩
  · rw [if_neg hn]
    exact ⟨fun h => absurd h he, fun h => absurd h.1 hn⟩

/-- The holders of a file that nobody inherits, where the writer and the reader have one more file
each, and nobody else has any. -/
theorem end_holders {e : File F} (he : ∀ n, get (inherit table) n ≠ some e)
    (hformer : ∀ j n, get (s.tableOf (.former j)) n ≠ some e)
    (hwriter : ∀ n, get (s.tableOf (.child 0)) n =
      if n = 1 then some .writeEnd else get (inherit table) n)
    (hreader : ∀ n, get (s.tableOf (.child 1)) n =
      if n = 0 then some .readEnd else get (inherit table) n)
    (hparent : ∀ n, get (s.tableOf .shell) n = get (inherit table) n)
    (hothers : ∀ pid n, get (s.tableOf (.child (pid + 2))) n = none) (q : Holder) (n : Nat) :
    get (s.tableOf q) n = some e ↔
      (q = .child 0 ∧ n = 1 ∧ .writeEnd = e) ∨ (q = .child 1 ∧ n = 0 ∧ .readEnd = e) := by
  match q with
  | .shell =>
    rw [hparent]
    simp [he n]
  | .former j => simp [hformer j n]
  | .child 0 =>
    rw [hwriter, eq_end_iff (he n)]
    simp
  | .child 1 =>
    rw [hreader, eq_end_iff (he n)]
    simp
  | .child (pid + 2) =>
    rw [hothers]
    simp

/-- **Plumbing.** After the closes of a foreground pipeline, the write end of the pipe is
descriptor 1 of the first child, the read end is descriptor 0 of the second one, nobody else holds
an end, and all other descriptors are as inherited. -/
theorem pipe_plumbing (hfg : words.getLast? ≠ some "&") (hpipe : "|" ∈ words)
    (h0 : get table 0 ≠ none) (hs : Reachable words table former s) (hclosed : s.closed) :
    (∃ first second, s.children.map Child.image = [some first, some second]) ∧
      (∀ n, get (s.tableOf (.child 0)) n =
        if n = 1 then some .writeEnd else get (inherit table) n) ∧
      (∀ n, get (s.tableOf (.child 1)) n =
        if n = 0 then some .readEnd else get (inherit table) n) ∧
      (∀ n, get (s.tableOf .shell) n = get (inherit table) n) ∧
      (∀ q n, get (s.tableOf q) n = some .writeEnd ↔ q = .child 0 ∧ n = 1) ∧
      ∀ q n, get (s.tableOf q) n = some .readEnd ↔ q = .child 1 ∧ n = 0 := by
  obtain ⟨i, hp⟩ := isPiped_of_mem hpipe
  have hbg : isBackground words = false := beq_eq_false_iff_ne.mpr hfg
  obtain ⟨himages, hshell⟩ := closed_pipeline hbg hp hs hclosed
  obtain ⟨first, hfirst, hget₁⟩ := writer_image h0 hp
  obtain ⟨second, hsecond, hget₂⟩ := reader_image h0 hp
  rw [hfirst, hsecond] at himages
  have hwriter : ∀ n, get (s.tableOf (.child 0)) n =
      if n = 1 then some .writeEnd else get (inherit table) n := by
    intro n
    rw [tableOf_child, himages]
    exact hget₁ n
  have hreader : ∀ n, get (s.tableOf (.child 1)) n =
      if n = 0 then some .readEnd else get (inherit table) n := by
    intro n
    rw [tableOf_child, himages]
    exact hget₂ n
  have hparent : ∀ n, get (s.tableOf .shell) n = get (inherit table) n := by
    intro n
    show get s.shell.table n = _
    rw [hshell, get_closedTable]
  have hothers : ∀ pid n, get (s.tableOf (.child (pid + 2))) n = none := by
    intro pid n
    rw [tableOf_child, himages]
    rfl
  refine ⟨⟨first, second, himages⟩, hwriter, hreader, hparent, fun q n => ?_, fun q n => ?_⟩
  · rw [end_holders (fun n => (get_inherit_ne table n).1) (fun j n => (get_former_ne s j n).1)
      hwriter hreader hparent hothers]
    simp
  · rw [end_holders (fun n => (get_inherit_ne table n).2) (fun j n => (get_former_ne s j n).2)
      hwriter hreader hparent hothers]
    simp

/-- The words of a pipeline. -/
def pipeline : List String := ["ls", "|", "wc"]

/-- With the descriptors 1 and 2 closed, the pipe is opened under these numbers. -/
theorem pipeline_plumbing : ∃ s : State Nat, Reachable pipeline [some 7] [] s ∧
    ∀ q n, get (s.tableOf q) n = some .writeEnd ↔ q = .child 0 ∧ n = 1 := by
  have hrun : Runs.run step [.shell, .shell, .shell, .shell, .shell]
      (State.start pipeline [some 7] []) = some _ := rfl
  have hs := Runs.reaches_of_run (P := fun _ _ => True) (fun _ _ _ => trivial) hrun
  exact ⟨_, hs, (pipe_plumbing (by decide) (by decide) (by decide) hs (Or.inl rfl)).2.2.2.2.1⟩

end OsHw.Hw2
