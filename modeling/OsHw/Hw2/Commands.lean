import OsHw.Hw2.Session

/-!
# OsHw — what a session of the shell comes to

Whatever the processes do and when they end, the lines that `getline` has returned determine which
commands a session starts, in which order, and with which status it exits. `runLines` says which: it
runs the lines with nothing but the count of the free descriptors, of which every pipeline in the
background takes two for good.

* **`commands`** — the commands of one line.
* **`session_outcome`** — sessions do what `runLines` says.
-/

namespace OsHw.Hw2

open Descriptors

variable {F : Type} {limit : Nat} {table : Table F} {s : Session F}

/-- A line that leaves its pipe open in the shell. -/
def Leaves (words : List String) : Prop := words.getLast? = some "&" ∧ "|" ∈ words

instance (words : List String) : Decidable (Leaves words) := by
  unfold Leaves
  infer_instance

/-- The commands that a line starts, with their dispositions of SIGINT. Of a pipeline in the
background it is the first one, which SIGINT can kill. -/
def commands (words : List String) : List (List String × Disposition) :=
  if Leaves words then [(words.takeWhile (· ≠ "|"), .SIG_DFL)]
  else (sides words).map fun side => (side, sigintOf words)

/-- The commands that some lines start with `free` descriptors, and the exit status. -/
def runLines : Nat → List (List String) → List (List String × Disposition) × Int
  | _, [] => ([], 0)
  | free, words :: lines =>
    if "|" ∈ words ∧ free < 2 then ([], 1)
    else
      let rest := runLines (if Leaves words then free - 2 else free) lines
      (commands words ++ rest.1, rest.2)

/-- The lines for which `main` calls `process_arglist`. -/
def commandLines (texts : List (List Char)) : List (List String) :=
  (texts.map lineWords).filter fun words => !words.isEmpty

theorem commandLines_blank {text : List Char} {texts : List (List Char)}
    (h : lineWords text = []) : commandLines (text :: texts) = commandLines texts := by
  rw [commandLines, List.map_cons, h]
  rfl

theorem commandLines_command {text : List Char} {texts : List (List Char)}
    (h : lineWords text ≠ []) :
    commandLines (text :: texts) = lineWords text :: commandLines texts := by
  rw [commandLines, List.map_cons, List.filter_cons_of_pos (by simpa using h)]
  rfl

/-! ## One line -/

section Line

variable {words : List String} {table : Table (Handle F)} {former : List (Former (Handle F))}
  {call : State (Handle F)}

/-- The children of a call that has returned. -/
theorem launched_commands (hwords : words ≠ []) (hreach : Reachable words table former call)
    (hphase : call.phase = .returned) :
    call.children.map Child.launched = (commands words).map some := by
  have hlen : words.length ≠ 0 := mt List.length_eq_zero_iff.mp hwords
  have hlaunched : call.children.map Child.launched = (call.children.map Child.image).map
      (Option.map fun image => (image.argv, image.process.sigint)) := by
    rw [List.map_map]
    rfl
  rw [hlaunched, closed_images hlen hreach (Or.inr (Or.inr hphase)), commands]
  by_cases hleaves : Leaves words
  · obtain ⟨i, hp⟩ := isPiped_of_mem hleaves.2
    obtain ⟨t, hfirst, -⟩ := firstImage_piped table hp
    rw [if_pos hleaves, allImages, hp]
    simp only [isBackground_iff.mpr hleaves.1, if_true, hfirst, (split_at_pipe hp).1]
    rfl
  · rw [if_neg hleaves, launched_sides hlen hleaves, List.map_map]
    rfl

theorem get_settle (line : Nat) (t : Table (File (Handle F))) (n : Nat) :
    get (settle line t) n = (get t n).map (Handle.ofFile line) := by
  show (t.map (Option.map (Handle.ofFile line)))[n]?.join = t[n]?.join.map (Handle.ofFile line)
  rw [List.getElem?_map]
  cases t[n]? with
  | none => rfl
  | some f => rfl

theorem freeBelow_map {α β : Type} {f : α → β} {t : Table α} {t' : Table β}
    (h : ∀ n, get t' n = (get t n).map f) (limit : Nat) :
    freeBelow t' limit = freeBelow t limit := by
  simp only [freeBelow, h, Option.isNone_map]

/-- The shell's descriptors when it has returned from a pipeline in the background. -/
theorem returned_leaves (hleaves : Leaves words) (hreach : Reachable words table former call)
    (hphase : call.phase = .returned) : call.shell.table = pipeTable table := by
  have hne : ¬ isPiped words = none := mt isPiped_eq_none.mp (not_not.mpr hleaves.2)
  rw [hreach.determined.shell, hphase]
  show tableAt words table .returned = _
  simp only [tableAt, if_neg hne, isBackground_iff.mpr hleaves.1, if_true]

/-- The free descriptors behind a line. -/
theorem freeBelow_afterCall {m : Main F} (hreach : Reachable words m.table former call)
    (hphase : call.phase = .returned) (hfits : PipeFits limit words m.table) :
    freeBelow (m.afterCall call).table limit =
      if Leaves words then freeBelow m.table limit - 2 else freeBelow m.table limit := by
  have hinherit : freeBelow (inherit m.table) limit = freeBelow m.table limit :=
    freeBelow_map (get_inherit m.table) limit
  show freeBelow (settle m.line call.shell.table) limit = _
  rw [freeBelow_map (get_settle m.line call.shell.table)]
  split
  · next hleaves =>
    have hpipe := freeBelow_pipe (hfits hleaves.2)
    rw [returned_leaves hleaves hreach hphase]
    show freeBelow (pipe (inherit m.table) .readEnd .writeEnd).2 limit = _
    omega
  · next hleaves =>
    rw [freeBelow_congr (returned_table hleaves hreach hphase), hinherit]

theorem pipeFits_iff :
    PipeFits limit words table ↔ ¬ ("|" ∈ words ∧ freeBelow table limit < 2) := by
  have hinherit : freeBelow (inherit table) limit = freeBelow table limit :=
    freeBelow_map (get_inherit table) limit
  have hpipe := pipe_lt_iff (inherit table) File.readEnd File.writeEnd limit
  rw [PipeFits, pipeNumbers, hpipe, hinherit, not_and, Nat.not_lt]

end Line

/-! ## Sessions -/

/-- What the lines that are done have started; and whatever lines come, what is left to run. -/
def Accounted (limit : Nat) (table : Table F) (done : List (List Char)) (m : Main F) : Prop :=
  ∀ more,
    let all := runLines (freeBelow table limit) (commandLines (done ++ more))
    let rest := runLines (freeBelow m.table limit) (commandLines more)
    all.1.map some = (m.jobs.map fun j => j.child.launched) ++ rest.1.map some ∧ all.2 = rest.2

theorem get_start (table : Table F) (n : Nat) :
    get (Main.start table).table n = (get table n).map .initial := by
  show (table.map (Option.map Handle.initial))[n]?.join = table[n]?.join.map Handle.initial
  rw [List.getElem?_map]
  cases table[n]? with
  | none => rfl
  | some f => rfl

/-- The end of a job changes nothing that does not depend on it. -/
theorem map_terminate {β : Type} (m : Main F) (i : Nat) {f : Job F → β}
    (hf : ∀ j : Job F, f j.end = f j) : (m.terminate i).jobs.map f = m.jobs.map f := by
  apply List.ext_getElem?
  intro k
  show ((m.jobs.modify i Job.end).map f)[k]? = (m.jobs.map f)[k]?
  rw [List.getElem?_map, List.getElem?_map, List.getElem?_modify]
  cases m.jobs[k]? with
  | none => rfl
  | some j =>
    show some (f (if i = k then j.end else j)) = some (f j)
    split
    · rw [hf]
    · rfl

theorem session_accounted (h : SessionReachable limit table s) :
    Standing limit (Accounted limit table) s := by
  refine h.standing (fun more => ?_) (fun done text m _ hI hwords more => ?_)
    (fun done text m former call _ hI hwords hreach hphase hfits more => ?_)
    (fun done m i hI more => ?_)
  · rw [freeBelow_map (get_start table)]
    exact ⟨rfl, rfl⟩
  · have hmore := hI (text :: more)
    rw [commandLines_blank hwords] at hmore
    rw [List.append_assoc]
    exact hmore
  · obtain ⟨hjobs, hcode⟩ := hI (text :: more)
    rw [commandLines_command hwords, runLines, if_neg (pipeFits_iff.mp hfits)] at hjobs hcode
    rw [freeBelow_afterCall hreach hphase hfits, List.append_assoc]
    refine ⟨?_, hcode⟩
    have hnew : ((m.afterCall call).jobs.map fun j => j.child.launched) =
        (m.jobs.map fun j => j.child.launched) ++ (commands (lineWords text)).map some := by
      have hchildren := launched_commands hwords hreach hphase
      show (m.jobs ++ call.children.mapIdx _).map _ = _
      rw [List.map_append, ← hchildren]
      congr 1
      apply List.ext_getElem?
      intro k
      rw [List.getElem?_map, List.getElem?_mapIdx, List.getElem?_map, Option.map_map]
      rfl
    rw [hnew]
    refine hjobs.trans ?_
    rw [List.map_append, List.append_assoc]
  · have hjobs := map_terminate (f := fun j => j.child.launched) m i fun _ => rfl
    rw [hjobs]
    exact hI more

/-- What is accounted for with no line left is all that the lines start. -/
theorem Accounted.all {done : List (List Char)} {m : Main F} (h : Accounted limit table done m) :
    (m.jobs.map fun j => j.child.launched) =
        (runLines (freeBelow table limit) (commandLines done)).1.map some ∧
      (runLines (freeBelow table limit) (commandLines done)).2 = 0 := by
  obtain ⟨hjobs, hcode⟩ := h []
  rw [List.append_nil] at hjobs hcode
  exact ⟨(hjobs.trans (List.append_nil _)).symm, hcode⟩

/-- The line that does not get its pipe starts nothing. -/
theorem Accounted.noPipe {done : List (List Char)} {text : List Char} {m : Main F}
    (h : Accounted limit table done m) (hfits : ¬ PipeFits limit (lineWords text) m.table) :
    (m.jobs.map fun j => j.child.launched) =
        (runLines (freeBelow table limit) (commandLines (done ++ [text]))).1.map some ∧
      (runLines (freeBelow table limit) (commandLines (done ++ [text]))).2 = 1 := by
  have hshort := not_not.mp (mt pipeFits_iff.mpr hfits)
  have hwords : lineWords text ≠ [] := List.ne_nil_of_mem hshort.1
  obtain ⟨hjobs, hcode⟩ := h [text]
  have hone : commandLines [text] = [lineWords text] := commandLines_command hwords
  rw [hone, runLines, if_pos hshort] at hjobs hcode
  exact ⟨(hjobs.trans (List.append_nil _)).symm, hcode⟩

/-- **Outcomes.** Whatever lines `getline` has returned: what a session has started is the beginning
of what `runLines` says of them, between two lines it is all of it, and so it is when the shell
exits, with the exit status that `runLines` says. -/
theorem session_outcome (h : SessionReachable limit table s) :
    (∃ rest, (runLines (freeBelow table limit) (commandLines s.lines)).1.map some =
      (s.main.jobs.map fun j => j.child.launched) ++ rest) ∧
    (s.stage = .prompt → (s.main.jobs.map fun j => j.child.launched) =
      (runLines (freeBelow table limit) (commandLines s.lines)).1.map some) ∧
    ∀ code, s.stage = .exited code →
      (s.main.jobs.map fun j => j.child.launched) =
          (runLines (freeBelow table limit) (commandLines s.lines)).1.map some ∧
        code = (runLines (freeBelow table limit) (commandLines s.lines)).2 := by
  have hst := session_accounted h
  cases hstage : s.stage with
  | prompt =>
    rw [Standing, hstage] at hst
    have hall := (Accounted.all hst).1
    exact ⟨⟨[], by rw [List.append_nil, hall]⟩, fun _ => hall, nofun⟩
  | processing call =>
    rw [Standing, hstage] at hst
    obtain ⟨done, text, former, hlines, hI, -⟩ := hst
    rw [hlines]
    exact ⟨⟨_, (hI [text]).1⟩, nofun, nofun⟩
  | exited code =>
    have hall : (s.main.jobs.map fun j => j.child.launched) =
          (runLines (freeBelow table limit) (commandLines s.lines)).1.map some ∧
        code = (runLines (freeBelow table limit) (commandLines s.lines)).2 := by
      rw [Standing, hstage] at hst
      rcases hst with ⟨rfl, hI⟩ | ⟨rfl, done, text, hlines, hI, hfits⟩
      · exact ⟨hI.all.1, hI.all.2.symm⟩
      · obtain ⟨hjobs, hcode⟩ := hI.noPipe hfits
        rw [hlines]
        exact ⟨hjobs, hcode.symm⟩
    refine ⟨⟨[], by rw [List.append_nil, hall.1]⟩, nofun, ?_⟩
    intro _ heq
    cases heq
    exact hall

/-- The line `a | b &`. -/
def leakingLine : List Char := ['a', ' ', '|', ' ', 'b', ' ', '&', '\n']

/-- With two free descriptors a session does not get beyond a pipeline in the background, however
often `getline` returns it. -/
theorem pipelines_outcome : ∃ s : Session Nat,
    SessionReachable 4 [some 0, some 1] s ∧ s.lines = [leakingLine, leakingLine] ∧
    s.stage = .exited 1 ∧
    (s.main.jobs.map fun j => j.child.launched) = [some (["a"], .SIG_DFL)] := by
  have hrun : Runs.run (sessionStep 4)
      [deliver leakingLine, .call .shell, .call .shell, .returned, deliver leakingLine,
        .call .shell]
      (Session.start [some 0, some 1]) = some _ := rfl
  have hs : SessionReachable 4 [some 0, some 1] _ :=
    Runs.reaches_of_run (by simp [deliver, SessionEvent.Proper]) hrun
  obtain ⟨hjobs, -⟩ := (session_outcome hs).2.2 1 rfl
  exact ⟨_, hs, rfl, rfl, hjobs⟩

end OsHw.Hw2
