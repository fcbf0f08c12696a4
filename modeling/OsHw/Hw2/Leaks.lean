import OsHw.Hw2.Commands
import OsHw.Hw2.Jobs

/-!
# OsHw — the pipes that a session leaves open

For a pipeline in the background the shell returns before it closes the pipe. It never closes it
later, and the processes of all later lines inherit both ends.

* **`get_afterCall`** — the shell's descriptors behind a line.
* **`image_inherits`** — a process keeps what the shell has open, except for 0 and 1.
* **`leaked_pipes`** — so the shell holds the ends of these pipes, and nothing else is left open.
-/

namespace OsHw.Hw2

open Descriptors

variable {F : Type} {limit : Nat} {lines : List (List Char)} {table : Table F} {s : Session F}

/-- A file is open under exactly one number. -/
def Once {α : Type} (t : Table α) (f : α) : Prop := ∃ n, ∀ i, get t i = some f ↔ i = n

def Nowhere {α : Type} (t : Table α) (f : α) : Prop := ∀ i, get t i ≠ some f

/-- A pipeline in the background that the shell is done with. -/
def Leaked (lines : List (List Char)) (m : Main F) (k : Nat) : Prop :=
  k < m.line ∧ Leaves (wordsAt lines k)

/-- What the shell and its processes have open between two lines. -/
structure Leaks (lines : List (List Char)) (table : Table F) (m : Main F) : Prop where
  initial : ∀ n f, get m.table n = some (.initial f) ↔ get table n = some f
  leaked : ∀ k, Leaked lines m k → Once m.table (.readEnd k) ∧ Once m.table (.writeEnd k)
  others : ∀ k, ¬ Leaked lines m k → Nowhere m.table (.readEnd k) ∧ Nowhere m.table (.writeEnd k)
  inherited : ∀ j ∈ m.jobs, ∀ k < j.line, Leaves (wordsAt lines k) →
    (∃ n, get j.table n = some (.readEnd k)) ∧ ∃ n, get j.table n = some (.writeEnd k)

/-! ## Behind a line -/

section Line

variable {words : List String} {former : List (Former (Handle F))} {call : State (Handle F)}
  {m : Main F} {n : Nat} {h : Handle F}

theorem map_ofFile (line : Nat) (o : Option (Handle F)) :
    (o.map File.inherited).map (Handle.ofFile line) = o := by
  cases o with
  | none => rfl
  | some h => rfl

/-- A line that closes its pipe, or has none. -/
theorem get_afterCall (hleaves : ¬ Leaves words) (hreach : Reachable words m.table former call)
    (hphase : call.phase = .returned) (n : Nat) :
    get (m.afterCall call).table n = get m.table n := by
  show get (settle m.line call.shell.table) n = _
  rw [get_settle, returned_table hleaves hreach hphase, get_inherit, map_ofFile]

/-- A line that leaves its pipe open. -/
theorem get_afterCall_leaves (hleaves : Leaves words) (hreach : Reachable words m.table former call)
    (hphase : call.phase = .returned) : ∃ r w, get m.table r = none ∧ get m.table w = none ∧ r < w ∧
      ∀ n, get (m.afterCall call).table n = if n = w then some (.writeEnd m.line)
        else if n = r then some (.readEnd m.line) else get m.table n := by
  obtain ⟨hr, hw, hlt, hget⟩ := get_pipeTable m.table
  rw [get_inherit, Option.map_eq_none_iff] at hr hw
  refine ⟨_, _, hr, hw, hlt, fun n => ?_⟩
  show get (settle m.line call.shell.table) n = _
  rw [get_settle, returned_leaves hleaves hreach hphase, hget]
  split
  · rfl
  · split
    · rfl
    · rw [get_inherit, map_ofFile]

/-- The child of a line without a pipe has the shell's descriptors. -/
theorem firstImage_unpiped (table : Table (Handle F)) (hp : isPiped words = none) :
    ∃ i, firstImage words table = some i ∧ i.process.table = inherit table := by
  have htable : tableAt words table .fork1 = inherit table := if_pos hp
  rw [firstImage, firstChild, hp, htable]
  cases isBackground words with
  | true => exact ⟨_, rfl, rfl⟩
  | false => exact ⟨_, rfl, rfl⟩

/-- A process that is started has what the shell has under its other numbers. -/
theorem image_inherits {image : Option (Image (Handle F))}
    (hmem : image ∈ allImages words m.table) (h0 : n ≠ 0) (h1 : n ≠ 1)
    (hn : get m.table n = some h) :
    ∃ i, image = some i ∧ get i.process.table n = some (.inherited h) := by
  have hinherit : get (inherit m.table) n = some (.inherited h) := by
    rw [get_inherit, hn]
    rfl
  cases hp : isPiped words with
  | none =>
    rw [allImages, hp, List.mem_singleton] at hmem
    obtain ⟨i, hi, htable⟩ := firstImage_unpiped m.table hp
    exact ⟨i, hmem.trans hi, htable ▸ hinherit⟩
  | some k =>
    -- the numbers of the pipe were free
    obtain ⟨hr, hw, -, -⟩ := get_pipeTable m.table
    have hnr : n ≠ (pipeNumbers m.table).1 := by
      rintro rfl
      rw [hr] at hinherit
      cases hinherit
    have hnw : n ≠ (pipeNumbers m.table).2 := by
      rintro rfl
      rw [hw] at hinherit
      cases hinherit
    obtain ⟨t₁, hfirst, hget₁⟩ := firstImage_piped m.table hp
    obtain ⟨t₂, hsecond, hget₂⟩ := secondImage_piped m.table hp
    have hcases : image = firstImage words m.table ∨ image = secondImage words m.table k := by
      rw [allImages, hp] at hmem
      dsimp only at hmem
      split at hmem
      · exact Or.inl (List.mem_singleton.mp hmem)
      · rw [List.mem_cons, List.mem_singleton] at hmem
        exact hmem
    rcases hcases with hi | hi
    · refine ⟨_, hi.trans hfirst, ?_⟩
      show get t₁ n = _
      rw [hget₁, if_neg hnw, if_neg h1, if_neg hnr, hinherit]
    · refine ⟨_, hi.trans hsecond, ?_⟩
      show get t₂ n = _
      rw [hget₂, if_neg hnr, if_neg h0, if_neg hnw, hinherit]

/-- What a new process has inherited. -/
theorem get_newJob (hwords : words ≠ []) (hreach : Reachable words m.table former call)
    (hphase : call.phase = .returned) {pid : Nat} {child : Child (Handle F)}
    (hchild : call.children[pid]? = some child) (h0 : n ≠ 0) (h1 : n ≠ 1)
    (hn : get m.table n = some h) : get (Job.table ⟨m.line, pid, child⟩) n = some h := by
  have himages := closed_images (mt List.length_eq_zero_iff.mp hwords) hreach
    (Or.inr (Or.inr hphase))
  have hmem : child.image ∈ allImages words m.table := by
    rw [← himages]
    exact List.mem_map_of_mem (List.mem_of_getElem? hchild)
  obtain ⟨i, hi, hget⟩ := image_inherits hmem h0 h1 hn
  have htable : Job.table ⟨m.line, pid, child⟩ = settle m.line i.process.table := by
    simp only [Job.table, hi]
  rw [htable, get_settle, hget]
  rfl

end Line

/-! ## Sessions -/

theorem leaked_succ {m : Main F} {words : List String} (hwords : wordsAt lines m.line = words)
    {k : Nat} (m' : Main F) (hline : m'.line = m.line + 1) :
    Leaked lines m' k ↔ Leaked lines m k ∨ (k = m.line ∧ Leaves words) := by
  rw [Leaked, Leaked, hline, Nat.lt_succ_iff_lt_or_eq]
  constructor
  · rintro ⟨hlt | rfl, hleaves⟩
    · exact Or.inl ⟨hlt, hleaves⟩
    · exact Or.inr ⟨rfl, hwords ▸ hleaves⟩
  · rintro (⟨hlt, hleaves⟩ | ⟨rfl, hleaves⟩)
    · exact ⟨Or.inl hlt, hleaves⟩
    · exact ⟨Or.inr rfl, hwords ▸ hleaves⟩

section Call

variable {m : Main F} {words : List String} {former : List (Former (Handle F))}
  {call : State (Handle F)}

/-- Only the pipe of the line itself is new. -/
theorem get_afterCall_iff (hreach : Reachable words m.table former call)
    (hphase : call.phase = .returned) {h : Handle F} (hread : h ≠ .readEnd m.line)
    (hwrite : h ≠ .writeEnd m.line) (n : Nat) :
    get (m.afterCall call).table n = some h ↔ get m.table n = some h := by
  by_cases hleaves : Leaves words
  · obtain ⟨r, w, hr, hw, -, hget⟩ := get_afterCall_leaves hleaves hreach hphase
    rw [hget]
    split
    · next hn =>
      rw [hn, hw]
      simp [hwrite.symm]
    · split
      · next hn =>
        rw [hn, hr]
        simp [hread.symm]
      · rfl
  · rw [get_afterCall hleaves hreach hphase]

theorem Once.of_iff {α : Type} {t t' : Table α} {f : α} (h : Once t f)
    (hiff : ∀ n, get t' n = some f ↔ get t n = some f) : Once t' f := by
  obtain ⟨n, hn⟩ := h
  exact ⟨n, fun i => (hiff i).trans (hn i)⟩

/-- The pipe that a line leaves open. -/
theorem once_afterCall (hL : Leaks lines table m) (hleaves : Leaves words)
    (hreach : Reachable words m.table former call) (hphase : call.phase = .returned) :
    Once (m.afterCall call).table (.readEnd m.line) ∧
      Once (m.afterCall call).table (.writeEnd m.line) := by
  obtain ⟨r, w, -, -, hlt, hget⟩ := get_afterCall_leaves hleaves hreach hphase
  obtain ⟨hread, hwrite⟩ := hL.others m.line fun h => absurd h.1 (Nat.lt_irrefl _)
  have hne : r ≠ w := Nat.ne_of_lt hlt
  refine ⟨⟨r, fun i => ?_⟩, ⟨w, fun i => ?_⟩⟩
  · rw [hget]
    by_cases hw : i = w
    · simp [hw, hne.symm]
    · by_cases hr : i = r
      · simp [hr, hne]
      · simp [hw, hr, hread i]
  · rw [hget]
    by_cases hw : i = w
    · simp [hw]
    · by_cases hr : i = r
      · simp [hr, hne]
      · simp [hw, hr, hwrite i]

/-- An end of an earlier pipe is not under 0 or 1. -/
theorem inherited_newJob (hL : Leaks lines table m) (h0 : get table 0 ≠ none)
    (h1 : get table 1 ≠ none) (hwords : words ≠ []) (hreach : Reachable words m.table former call)
    (hphase : call.phase = .returned) {pid : Nat} {child : Child (Handle F)}
    (hchild : call.children[pid]? = some child) {h : Handle F} (hinit : ∀ f, h ≠ .initial f)
    (honce : Once m.table h) : ∃ n, get (Job.table ⟨m.line, pid, child⟩) n = some h := by
  obtain ⟨n, hn⟩ := honce
  have hget : get m.table n = some h := (hn n).mpr rfl
  have hne : ∀ i, get table i ≠ none → n ≠ i := by
    rintro i hi rfl
    obtain ⟨f, hf⟩ := Option.ne_none_iff_exists'.mp hi
    rw [(hL.initial n f).mpr hf] at hget
    exact hinit f (Option.some.inj hget).symm
  exact ⟨n, get_newJob hwords hreach hphase hchild (hne 0 h0) (hne 1 h1) hget⟩

theorem Leaks.afterCall (hL : Leaks lines table m) (h0 : get table 0 ≠ none)
    (h1 : get table 1 ≠ none) (hat : wordsAt lines m.line = words) (hwords : words ≠ [])
    (hreach : Reachable words m.table former call) (hphase : call.phase = .returned) :
    Leaks lines table (m.afterCall call) where
  initial n f := by
    rw [get_afterCall_iff (h := .initial f) hreach hphase nofun nofun]
    exact hL.initial n f
  leaked k hk := by
    rcases (leaked_succ hat (m.afterCall call) rfl).mp hk with hold | ⟨rfl, hleaves⟩
    · have hne : k ≠ m.line := Nat.ne_of_lt hold.1
      obtain ⟨hread, hwrite⟩ := hL.leaked k hold
      exact ⟨hread.of_iff (get_afterCall_iff hreach hphase (by simpa using hne) nofun),
        hwrite.of_iff (get_afterCall_iff hreach hphase nofun (by simpa using hne))⟩
    · exact once_afterCall hL hleaves hreach hphase
  others k hk := by
    rw [leaked_succ hat (m.afterCall call) rfl, not_or] at hk
    obtain ⟨hread, hwrite⟩ := hL.others k hk.1
    by_cases hline : k = m.line
    · subst hline
      have hleaves : ¬ Leaves words := fun hleaves => hk.2 ⟨rfl, hleaves⟩
      have hsame := get_afterCall hleaves hreach hphase
      exact ⟨fun i => hsame i ▸ hread i, fun i => hsame i ▸ hwrite i⟩
    · have hr : (Handle.readEnd k : Handle F) ≠ .readEnd m.line := by simpa using hline
      have hw : (Handle.writeEnd k : Handle F) ≠ .writeEnd m.line := by simpa using hline
      exact ⟨fun i => mt (get_afterCall_iff hreach hphase hr nofun i).mp (hread i),
        fun i => mt (get_afterCall_iff (h := .writeEnd k) hreach hphase nofun hw i).mp (hwrite i)⟩
  inherited j hj k hk hleaves := by
    rcases mem_afterCall hj with hold | ⟨pid, child, hchild, rfl⟩
    · exact hL.inherited j hold k hk hleaves
    · obtain ⟨hread, hwrite⟩ := hL.leaked k ⟨hk, hleaves⟩
      exact ⟨inherited_newJob hL h0 h1 hwords hreach hphase hchild nofun hread,
        inherited_newJob hL h0 h1 hwords hreach hphase hchild nofun hwrite⟩

end Call

theorem Leaks.blank {m : Main F} (hL : Leaks lines table m) (hat : wordsAt lines m.line = []) :
    Leaks lines table { m with line := m.line + 1 } := by
  have hsame : ∀ k, Leaked lines { m with line := m.line + 1 } k ↔ Leaked lines m k := by
    intro k
    rw [leaked_succ hat _ rfl]
    simp [Leaves]
  exact ⟨hL.initial, fun k hk => hL.leaked k ((hsame k).mp hk),
    fun k hk => hL.others k (mt (hsame k).mpr hk), hL.inherited⟩

theorem Leaks.terminate {m : Main F} (hL : Leaks lines table m) (i : Nat) :
    Leaks lines table (m.terminate i) := by
  refine ⟨hL.initial, hL.leaked, hL.others, fun j hj => ?_⟩
  rcases mem_terminate hj with hold | ⟨j', hmem, rfl⟩
  · exact hL.inherited j hold
  · exact hL.inherited j' hmem

theorem start_leaks (lines : List (List Char)) (table : Table F) :
    Leaks lines table (.start table) where
  initial n f := by
    rw [get_start]
    simp
  leaked k hk := absurd hk.1 (Nat.not_lt_zero k)
  others k _ := by
    refine ⟨fun i => ?_, fun i => ?_⟩ <;>
      · rw [get_start]
        simp
  inherited := nofun

/-- **Leaks.** Between two lines the shell has open what it had from the beginning, and both ends
of the pipe of every earlier pipeline in the background; a process has inherited those from before
its line. -/
theorem leaked_pipes (h0 : get table 0 ≠ none) (h1 : get table 1 ≠ none)
    (h : SessionReachable limit table s) : Leaks s.lines table s.main := by
  -- whatever lines come behind those that are done
  have hI : Standing limit (fun done m => ∀ more, Leaks (done ++ more) table m) s := by
    refine h.standing (fun more => start_leaks _ table) (fun done text m hline hI hwords more => ?_)
      (fun done text m former call hline hI hwords hreach hphase _ more => ?_)
      (fun done m i hI more => (hI more).terminate i)
    · have hL := hI ([text] ++ more)
      rw [← List.append_assoc] at hL
      exact hL.blank ((wordsAt_append hline).trans hwords)
    · have hL := hI ([text] ++ more)
      rw [← List.append_assoc] at hL
      exact hL.afterCall h0 h1 (wordsAt_append hline) hwords hreach hphase
  obtain ⟨done, more, hlines, hL⟩ := hI.exists_done
  rw [hlines]
  exact hL more

/-- The shell behind the line `a | b &`. -/
theorem pipeline_leaked : ∃ s : Session Nat, SessionReachable 9 [some 0, some 1] s ∧
    s.lines = [leakingLine] ∧ s.stage = .prompt ∧ Once s.main.table (.readEnd 0) ∧
    Once s.main.table (.writeEnd 0) := by
  have hrun : Runs.run (sessionStep 9) [deliver leakingLine, .call .shell, .call .shell, .returned]
      (Session.start [some 0, some 1]) = some _ := rfl
  have hs : SessionReachable 9 [some 0, some 1] _ :=
    Runs.reaches_of_run (by simp [deliver, SessionEvent.Proper]) hrun
  have hleaked := (leaked_pipes (by decide) (by decide) hs).leaked 0 ⟨Nat.one_pos, by decide⟩
  exact ⟨_, hs, rfl, rfl, hleaked⟩

end OsHw.Hw2
