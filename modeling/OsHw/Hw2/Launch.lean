import OsHw.Hw2.Pipes

/-!
# OsHw — which processes the shell starts

* **`sides`** — what a line of words says: a last `"&"` is dropped, and the rest is split at its
  first `"|"`.
* **`Launches`** — one child for each side, with SIGINT as it should be, and no descriptor is left
  open in the shell.
* **`launches_iff`** — so it is for all lines but those with a `"|"` that end in `"&"`.
-/

namespace OsHw.Hw2

open Descriptors

variable {F : Type} {words : List String} {table : Table F} {former : List (Former F)}
  {s : State F} {i : Nat}

/-- The commands of a line. -/
def sides (words : List String) : List (List String) :=
  let rest := if words.getLast? = some "&" then words.dropLast else words
  if "|" ∈ rest then [rest.takeWhile (· ≠ "|"), (rest.dropWhile (· ≠ "|")).tail] else [rest]

/-- The disposition of SIGINT that a line calls for. -/
def sigintOf (words : List String) : Disposition :=
  if words.getLast? = some "&" then .SIG_IGN else .SIG_DFL

/-- The arguments of a child and its disposition of SIGINT, when it calls `execvp`. -/
def Child.launched (c : Child F) : Option (List String × Disposition) :=
  c.image.map fun image => (image.argv, image.process.sigint)

/-- Nothing stops the shell before it waits or returns. By then it has started one process for
each side of the line, and when it returns it holds no descriptor that it did not hold before. -/
def Launches (words : List String) (table : Table F) (former : List (Former F)) : Prop :=
  ∀ s, Reachable words table former s →
    (s.closed ∨ ∃ t, step .shell s = some t) ∧
      (s.closed → s.children.map Child.launched =
        (sides words).map (fun side => some (side, sigintOf words))) ∧
      (s.phase = .returned → ∀ n f, get s.shell.table n = some f →
        get (inherit table) n = some f)

/-! ## Words -/

theorem isPiped_eq_none : isPiped words = none ↔ "|" ∉ words := by
  constructor
  · intro hnone hmem
    obtain ⟨i, hp⟩ := isPiped_of_mem hmem
    rw [hnone] at hp
    cases hp
  · intro hmem
    rw [isPiped, List.findIdx?_eq_none_iff]
    intro w hw
    rw [beq_eq_false_iff_ne]
    rintro rfl
    exact hmem hw

theorem isBackground_iff : isBackground words = true ↔ words.getLast? = some "&" := beq_iff_eq

/-- The index of the first `"|"` splits the words as the line says. -/
theorem split_at_pipe (hp : isPiped words = some i) :
    words.takeWhile (· ≠ "|") = words.take i ∧
      (words.dropWhile (· ≠ "|")).tail = words.drop (i + 1) := by
  induction words generalizing i with
  | nil => cases hp
  | cons w words ih =>
    rw [isPiped, List.findIdx?_cons] at hp
    by_cases hw : w = "|"
    · subst hw
      rw [if_pos (beq_self_eq_true _)] at hp
      obtain rfl : 0 = i := Option.some.inj hp
      rw [List.takeWhile_cons_of_neg (by simp), List.dropWhile_cons_of_neg (by simp)]
      exact ⟨rfl, rfl⟩
    · rw [if_neg (by simpa using hw)] at hp
      obtain ⟨j, hj, rfl⟩ := Option.map_eq_some_iff.mp hp
      obtain ⟨htake, hdrop⟩ := ih hj
      rw [List.takeWhile_cons_of_pos (by simpa using hw),
        List.dropWhile_cons_of_pos (by simpa using hw), htake, hdrop]
      exact ⟨rfl, rfl⟩

theorem sides_of_not_mem (hp : "|" ∉ words) :
    sides words = [if words.getLast? = some "&" then words.dropLast else words] := by
  have hrest : "|" ∉ (if words.getLast? = some "&" then words.dropLast else words) := by
    split
    · exact fun hmem => hp (List.dropLast_subset words hmem)
    · exact hp
  exact if_neg hrest

theorem sides_pipeline (hfg : words.getLast? ≠ some "&") (hp : isPiped words = some i) :
    sides words = [words.take i, words.drop (i + 1)] := by
  have hmem : "|" ∈ words := by
    by_contra hmem
    rw [isPiped_eq_none.mpr hmem] at hp
    cases hp
  obtain ⟨htake, hdrop⟩ := split_at_pipe hp
  rw [sides, if_neg hfg, if_pos hmem, htake, hdrop]

/-- A pipeline in the background has two sides as well. -/
theorem length_sides (hbg : words.getLast? = some "&") (hp : "|" ∈ words) :
    (sides words).length = 2 := by
  have hmem : "|" ∈ words.dropLast := by
    obtain ⟨ys, rfl⟩ := List.getLast?_eq_some_iff.mp hbg
    rw [List.dropLast_concat]
    rw [List.mem_append, List.mem_singleton] at hp
    exact hp.resolve_right (by decide)
  rw [sides, if_pos hbg, if_pos hmem]
  rfl

/-! ## Images -/

/-- The child of a single command. -/
theorem firstImage_single (table : Table F) (hlen : words.length ≠ 0) (hp : "|" ∉ words) :
    (firstImage words table).map (fun image => (image.argv, image.process.sigint)) =
      some (if words.getLast? = some "&" then words.dropLast else words, sigintOf words) := by
  rw [firstImage, firstChild, isPiped_eq_none.mpr hp, sigintOf]
  by_cases hbg : words.getLast? = some "&"
  · have hargv : argv ((arglist words).set (words.length - 1) none) = words.dropLast := by
      rw [argv_set (by omega), List.dropLast_eq_take]
    simp only [isBackground_iff.mpr hbg, if_true, if_pos hbg, execChild, Option.map_some, hargv]
    rfl
  · have hfg : isBackground words = false := by
      rw [← Bool.not_eq_true, isBackground_iff]
      exact hbg
    simp only [hfg, Bool.false_eq_true, if_false, if_neg hbg, execChild, Option.map_some,
      argv_arglist]
    rfl

/-! ## Steps -/

/-- Nothing stops the shell before its waits. -/
theorem closed_or_step (hs : Reachable words table former s) :
    s.closed ∨ ∃ t, step .shell s = some t := by
  have hd := hs.determined
  have hpossible := hd.possible
  cases hphase : s.phase with
  | start =>
    right
    by_cases hlen : s.words.length = 0
    · exact ⟨_, (ShellStep.empty hphase hlen).step_shell⟩
    · by_cases hp : isPiped s.words = none
      · exact ⟨_, (ShellStep.unpiped hphase hlen hp).step_shell⟩
      · exact ⟨_, (ShellStep.piped hphase hlen hp).step_shell⟩
  | fork1 =>
    right
    cases hbg : isBackground s.words with
    | true => exact ⟨_, (ShellStep.background hphase hbg).step_shell⟩
    | false =>
      by_cases hp : isPiped s.words = none
      · exact ⟨_, (ShellStep.single hphase hbg hp).step_shell⟩
      · exact ⟨_, (ShellStep.writer hphase hbg hp).step_shell⟩
  | fork2 =>
    right
    rw [hphase] at hpossible
    obtain ⟨-, -, hne⟩ := hpossible
    rw [← hd.command] at hne
    obtain ⟨i, hp⟩ := Option.ne_none_iff_exists'.mp hne
    exact ⟨_, (ShellStep.reader i hphase hp).step_shell⟩
  | close0 => exact Or.inr ⟨_, (ShellStep.close0 hphase).step_shell⟩
  | close1 => exact Or.inr ⟨_, (ShellStep.close1 hphase).step_shell⟩
  | wait1 => exact Or.inl (Or.inl hphase)
  | wait2 => exact Or.inl (Or.inr (Or.inl hphase))
  | returned => exact Or.inl (Or.inr (Or.inr hphase))

/-- All children have been forked when the shell waits or has returned. -/
theorem closed_images (hlen : words.length ≠ 0) (hs : Reachable words table former s)
    (hclosed : s.closed) : s.children.map Child.image = allImages words table := by
  rw [hs.determined.images]
  rcases hclosed with hphase | hphase | hphase
  · rw [hphase]
    rfl
  · rw [hphase]
    rfl
  · rw [hphase]
    exact if_neg hlen

/-- The first step of a line that is not empty: `pipe` or nothing. -/
theorem start_step (table : Table F) (former : List (Former F)) (hlen : words.length ≠ 0) :
    ∃ s, Reachable words table former s ∧ s.phase = .fork1 ∧ s.children = [] := by
  by_cases hp : isPiped words = none
  · have hst := (ShellStep.unpiped (s := State.start words table former) rfl hlen hp).step_shell
    exact ⟨_, .single trivial hst, rfl, rfl⟩
  · have hst := (ShellStep.piped (s := State.start words table former) rfl hlen hp).step_shell
    exact ⟨_, .single trivial hst, rfl, rfl⟩

/-- A line in the background returns from the first fork. -/
theorem background_returns (table : Table F) (former : List (Former F))
    (hbg : words.getLast? = some "&") :
    ∃ s, Reachable words table former s ∧ s.phase = .returned := by
  have hlen : words.length ≠ 0 := by
    intro hzero
    rw [List.length_eq_zero_iff.mp hzero] at hbg
    cases hbg
  obtain ⟨s, hs, hphase, -⟩ := start_step table former hlen
  rw [← hs.determined.command] at hbg
  have hst := (ShellStep.background hphase (isBackground_iff.mpr hbg)).step_shell
  exact ⟨_, .tail hs trivial hst, rfl⟩

/-! ## Launching -/

/-- The children that the shell has forked, against the sides of the line. -/
theorem launched_sides (hlen : words.length ≠ 0)
    (hline : ¬ (words.getLast? = some "&" ∧ "|" ∈ words)) :
    (allImages words table).map (Option.map fun image => (image.argv, image.process.sigint)) =
      (sides words).map fun side => some (side, sigintOf words) := by
  by_cases hmem : "|" ∈ words
  · have hfg : words.getLast? ≠ some "&" := fun hbg => hline ⟨hbg, hmem⟩
    have hbg : isBackground words = false := beq_eq_false_iff_ne.mpr hfg
    obtain ⟨i, hp⟩ := isPiped_of_mem hmem
    obtain ⟨t₁, hfirst, -⟩ := firstImage_piped table hp
    obtain ⟨t₂, hsecond, -⟩ := secondImage_piped table hp
    rw [allImages, hp, sides_pipeline hfg hp, sigintOf, if_neg hfg]
    simp only [hbg, Bool.false_eq_true, if_false, hfirst, hsecond]
    rfl
  · rw [allImages, isPiped_eq_none.mpr hmem, sides_of_not_mem hmem]
    show [_] = [_]
    rw [firstImage_single table hlen hmem]

/-- The shell's descriptors when it returns. -/
theorem returned_table (hline : ¬ (words.getLast? = some "&" ∧ "|" ∈ words))
    (hs : Reachable words table former s) (hphase : s.phase = .returned) (n : Nat) :
    get s.shell.table n = get (inherit table) n := by
  have hshell := hs.determined.shell
  rw [hphase] at hshell
  rw [hshell]
  show get (tableAt words table .returned) n = _
  by_cases hmem : "|" ∈ words
  · have hfg : words.getLast? ≠ some "&" := fun hbg => hline ⟨hbg, hmem⟩
    have hbg : isBackground words = false := beq_eq_false_iff_ne.mpr hfg
    have hne : ¬ isPiped words = none := mt isPiped_eq_none.mp (not_not.mpr hmem)
    simp only [tableAt, if_neg hne, hbg, Bool.false_eq_true, if_false]
    exact get_closedTable table n
  · have hsame : tableAt words table .returned = inherit table := if_pos (isPiped_eq_none.mpr hmem)
    rw [hsame]

/-- **Launching.** The shell starts what a line says exactly if the line is not a pipeline in the
background. -/
theorem launches_iff (table : Table F) (former : List (Former F)) (hwords : words ≠ []) :
    Launches words table former ↔ ¬ (words.getLast? = some "&" ∧ "|" ∈ words) := by
  have hlen : words.length ≠ 0 := mt List.length_eq_zero_iff.mp hwords
  constructor
  · rintro hlaunches ⟨hbg, hmem⟩
    obtain ⟨s, hs, hphase⟩ := background_returns table former hbg
    have hclosed : s.closed := Or.inr (Or.inr hphase)
    obtain ⟨-, hchildren, -⟩ := hlaunches s hs
    have hcount := congrArg List.length (hchildren hclosed)
    -- the second fork was skipped
    have himages := congrArg List.length (closed_images hlen hs hclosed)
    obtain ⟨i, hp⟩ := isPiped_of_mem hmem
    rw [allImages, hp] at himages
    simp only [isBackground_iff.mpr hbg, if_true, List.length_map, List.length_singleton]
      at himages
    rw [List.length_map, List.length_map, length_sides hbg hmem, himages] at hcount
    exact absurd hcount (by decide)
  · intro hline s hs
    refine ⟨closed_or_step hs, fun hclosed => ?_, fun hphase n f hn => ?_⟩
    · have hlaunched : s.children.map Child.launched = (s.children.map Child.image).map
          (Option.map fun image => (image.argv, image.process.sigint)) := by
        rw [List.map_map]
        rfl
      rw [hlaunched, closed_images hlen hs hclosed, launched_sides hlen hline]
    · rw [returned_table hline hs hphase] at hn
      exact hn

/-- A command in the background. -/
theorem background_launches :
    Launches ["sleep", "10", "&"] [some 0, some 1, some 2] ([] : List (Former Nat)) :=
  (launches_iff _ _ (by decide)).mpr (by decide)

/-- Of a pipeline in the background only the first command is started. -/
theorem background_pipeline :
    ¬ ∀ (words : List String) (table : Table Nat) (former : List (Former Nat)),
      words ≠ [] → Launches words table former := by
  intro h
  have hrun : Runs.run step [.shell, .shell]
      (State.start ["ls", "|", "wc", "&"] [some 0] ([] : List (Former Nat))) = some _ := rfl
  have hs := Runs.reaches_of_run (P := fun _ _ => True) (fun _ _ _ => trivial) hrun
  obtain ⟨-, hchildren, -⟩ := h ["ls", "|", "wc", "&"] [some 0] [] (by decide) _ hs
  have hcount : 1 = 2 := congrArg List.length (hchildren (Or.inr (Or.inr rfl)))
  exact absurd hcount (by decide)

end OsHw.Hw2
