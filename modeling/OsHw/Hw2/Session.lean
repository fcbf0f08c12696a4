import OsHw.Hw2.Waits
import OsHw.Hw2.Words

/-!
# OsHw — a session of the shell (`myshell_main.c` with `myshell.c`)

`main` calls `process_arglist` for one line after the other, until `getline` returns -1.

* A step of a session is the part of an iteration of `main` before the call of `process_arglist` or
  behind it, a step of that call, or the end of a process that was started before.
* What `getline` returns comes from outside, and so does the success of the allocations. The shell
  shares the offset of its input with its processes: one that reads takes lines away, and the
  `exit(1)` behind a failing `execvp` moves the offset of a file back, so that lines come again. So
  a session may get any lines, and `lines` keeps those that it got.
* `pipe` fails if one of its numbers does not fit under the limit on descriptors; then
  `process_arglist` exits.
* The shell and its processes keep their pipes from line to line: `Handle` names them by the line.
* **`Standing`** — what is said of the shell between two lines, carried over to all of a session.
* **`SessionReachable.standing`** — the rule for it: a blank line, a whole call of
  `process_arglist`, and the end of a process.
-/

namespace OsHw.Hw2

open Descriptors

variable {F : Type}

/-! ## Data -/

/-- An open file: one that the shell has had from the beginning, or an end of the pipe of a line. -/
inductive Handle (F : Type) where
  | initial (f : F)
  | readEnd (line : Nat)
  | writeEnd (line : Nat)
  deriving DecidableEq

/-- A file of the call for a line. -/
def Handle.ofFile (line : Nat) : File (Handle F) → Handle F
  | .inherited h => h
  | .readEnd => .readEnd line
  | .writeEnd => .writeEnd line

def settle (line : Nat) (table : Table (File (Handle F))) : Table (Handle F) :=
  table.map (Option.map (Handle.ofFile line))

/-- A process that the shell has started: the child with `pid1` (0) or with `pid2` (1) of a line. -/
structure Job (F : Type) where
  line : Nat
  pid : Nat
  child : Child (Handle F)

/-- What a job has open when it calls `execvp`. -/
def Job.table (j : Job F) : Table (Handle F) :=
  match j.child.image with
  | none => []
  | some image => settle j.line image.process.table

def Job.former (j : Job F) : Former (Handle F) := ⟨j.table, j.child.terminated⟩

/-- The shell between two calls of `process_arglist`: the lines it is done with, its dispositions
and descriptors, and all processes that it has started. -/
structure Main (F : Type) where
  line : Nat
  sigchld : Disposition
  sigint : Disposition
  table : Table (Handle F)
  jobs : List (Job F)

inductive Stage (F : Type) where
  | prompt
  | processing (call : State (Handle F))
  | exited (code : Int)

/-- `lines` is not in the source: the lines that `getline` has returned. -/
structure Session (F : Type) where
  lines : List (List Char)
  main : Main F
  stage : Stage F

/-! ## Steps -/

/-- After `prepare`. -/
def Main.start (table : Table F) : Main F :=
  let p : Process F := prepare ⟨.SIG_DFL, .SIG_DFL, []⟩
  ⟨0, p.sigchld, p.sigint, table.map (Option.map .initial), []⟩

def Session.start (table : Table F) : Session F := ⟨[], .start table, .prompt⟩

/-- The call of `process_arglist`. -/
def Main.call (m : Main F) (words : List String) : State (Handle F) :=
  ⟨words, .start, ⟨m.sigchld, m.sigint, inherit m.table⟩, (0, 0), [], m.jobs.map Job.former⟩

/-- After the call. -/
def Main.afterCall (m : Main F) (call : State (Handle F)) : Main F where
  line := m.line + 1
  sigchld := call.shell.sigchld
  sigint := call.shell.sigint
  table := settle m.line call.shell.table
  jobs := m.jobs ++ call.children.mapIdx fun pid child => ⟨m.line, pid, child⟩

def Job.end (j : Job F) : Job F := { j with child := { j.child with terminated := true } }

def Main.terminate (m : Main F) (i : Nat) : Main F := { m with jobs := m.jobs.modify i Job.end }

/-- The end of a process during the call for a later line. -/
def Main.note (m : Main F) : Event → Main F
  | .terminateFormer i => m.terminate i
  | _ => m

/-- `pipe` finds no number under the limit. -/
def pipeFails (limit : Nat) (call : State (Handle F)) : Prop :=
  call.phase = .start ∧ call.words.length ≠ 0 ∧ isPiped call.words ≠ none ∧
    limit ≤ (pipe call.shell.table .readEnd .writeEnd).1.2

instance (limit : Nat) (call : State (Handle F)) : Decidable (pipeFails limit call) := by
  unfold pipeFails
  infer_instance

inductive SessionEvent where
  /-- `getline` returns a line, or -1 (`none`), and `memory` says which allocations succeed. -/
  | iterate (line : Option (List Char)) (memory : Nat → Bool)
  /-- `process_arglist` has returned. -/
  | returned
  | call (e : Event)
  | terminate (i : Nat)

def sessionStep (limit : Nat) (e : SessionEvent) (s : Session F) : Option (Session F) :=
  match e, s.stage with
  | .iterate none _, .prompt => some { s with stage := .exited 0 }
  | .iterate (some text) memory, .prompt => do
    let lines := s.lines ++ [text]
    match ← readWords (text.length + 1) memory text with
    | .failed => return { s with lines, stage := .exited (-1) }
    | .arguments count arglist line =>
      let words ← wordsOf count arglist line
      if count ≠ 0 then return { s with lines, stage := .processing (s.main.call words) }
      else return { s with lines, main := { s.main with line := s.main.line + 1 } }
  | .returned, .processing call =>
    if call.phase = .returned then some { s with main := s.main.afterCall call, stage := .prompt }
    else none
  | .call e, .processing call =>
    if e = .shell ∧ pipeFails limit call then some { s with stage := .exited 1 }
    else (step e call).map fun call => { s with main := s.main.note e, stage := .processing call }
  | .terminate i, .prompt => some { s with main := s.main.terminate i }
  | .terminate i, .exited _ => some { s with main := s.main.terminate i }
  | _, _ => none

/-- No call of `malloc` or `realloc` fails. -/
def SessionEvent.Proper : SessionEvent → Prop
  | .iterate _ memory => ∀ k, memory k = true
  | _ => True

/-- An iteration with a line, and the last one. -/
def deliver (text : List Char) : SessionEvent := .iterate (some text) fun _ => true

def endOfInput : SessionEvent := .iterate none fun _ => true

/-- The states that a session leads to, whatever `getline` returns. -/
def SessionReachable (limit : Nat) (table : Table F) (s : Session F) : Prop :=
  Runs.Reaches (sessionStep limit) (fun e _ => e.Proper) (Session.start table) s

variable {limit : Nat} {table : Table F} {s t : Session F}

/-- The steps of a session in which no allocation fails. -/
inductive SessionMoves (limit : Nat) (s : Session F) : SessionEvent → Session F → Prop where
  | finish {memory : Nat → Bool} (hstage : s.stage = .prompt) :
      SessionMoves limit s (.iterate none memory) { s with stage := .exited 0 }
  | blank {text : List Char} {memory : Nat → Bool} (hstage : s.stage = .prompt)
      (hwords : lineWords text = []) :
      SessionMoves limit s (.iterate (some text) memory) { s with
        lines := s.lines ++ [text]
        main := { s.main with line := s.main.line + 1 } }
  | command {text : List Char} {memory : Nat → Bool} (hstage : s.stage = .prompt)
      (hwords : lineWords text ≠ []) :
      SessionMoves limit s (.iterate (some text) memory) { s with
        lines := s.lines ++ [text]
        stage := .processing (s.main.call (lineWords text)) }
  | returned {call : State (Handle F)} (hstage : s.stage = .processing call)
      (hphase : call.phase = .returned) :
      SessionMoves limit s .returned { s with
        main := s.main.afterCall call
        stage := .prompt }
  | noPipe {call : State (Handle F)} (hstage : s.stage = .processing call)
      (hfails : pipeFails limit call) :
      SessionMoves limit s (.call .shell) { s with stage := .exited 1 }
  | inner {call call' : State (Handle F)} {e : Event} (hstage : s.stage = .processing call)
      (hfits : ¬ (e = .shell ∧ pipeFails limit call)) (hst : step e call = some call') :
      SessionMoves limit s (.call e) { s with
        main := s.main.note e
        stage := .processing call' }
  | terminate {i : Nat} (hstage : ∀ call, s.stage ≠ .processing call) :
      SessionMoves limit s (.terminate i) { s with main := s.main.terminate i }

theorem sessionStep_moves {e : SessionEvent} (he : e.Proper)
    (hst : sessionStep limit e s = some t) : SessionMoves limit s e t := by
  obtain ⟨lines, main, stage⟩ := s
  cases stage with
  | prompt =>
    cases e with
    | iterate line memory =>
      cases line with
      | none =>
        cases hst
        exact .finish rfl
      | some text =>
        simp only [sessionStep] at hst
        obtain ⟨count, arglist, line, hread, hlen, -, hwords⟩ :=
          readWords_eq he text (Nat.lt_succ_self _)
        have hcount := length_wordsOf hlen hwords
        simp only [hread, hwords, Option.bind_eq_bind, Option.bind_some] at hst
        by_cases hzero : count = 0
        · rw [if_neg (not_not.mpr hzero)] at hst
          cases hst
          exact .blank rfl (List.length_eq_zero_iff.mp (hcount.trans hzero))
        · rw [if_pos hzero] at hst
          cases hst
          exact .command rfl fun hnil => hzero (by rw [← hcount, hnil]; rfl)
    | returned => cases hst
    | call e => cases hst
    | terminate i =>
      cases hst
      exact .terminate nofun
  | processing call =>
    cases e with
    | iterate line memory => cases line <;> cases hst
    | returned =>
      simp only [sessionStep] at hst
      split at hst
      · next hphase =>
        cases hst
        exact .returned rfl hphase
      · cases hst
    | call e =>
      simp only [sessionStep] at hst
      split at hst
      · next hfails =>
        obtain ⟨rfl, hfails⟩ := hfails
        cases hst
        exact .noPipe rfl hfails
      · next hfits =>
        obtain ⟨call', hcall, rfl⟩ := Option.map_eq_some_iff.mp hst
        exact .inner rfl hfits hcall
    | terminate i => cases hst
  | exited code =>
    cases e with
    | iterate line memory => cases line <;> cases hst
    | returned => cases hst
    | call e => cases hst
    | terminate i =>
      cases hst
      exact .terminate nofun

/-! ## The rule for sessions -/

/-- `pipe` has its numbers under the limit if the line needs any. -/
def PipeFits (limit : Nat) (words : List String) (table : Table (Handle F)) : Prop :=
  "|" ∈ words → (pipeNumbers table).2 < limit

/-- `I` is said of the lines that the shell is done with and of the shell between two lines. During
a call it holds of the lines before, and of the shell before the call. -/
def Standing (limit : Nat) (I : List (List Char) → Main F → Prop) (s : Session F) : Prop :=
  match s.stage with
  | .prompt => I s.lines s.main
  | .processing call => ∃ done text former, s.lines = done ++ [text] ∧ I done s.main ∧
      lineWords text ≠ [] ∧ Reachable (lineWords text) s.main.table former call ∧
      (call.phase ≠ .start → PipeFits limit (lineWords text) s.main.table)
  | .exited code => (code = 0 ∧ I s.lines s.main) ∨
      (code = 1 ∧ ∃ done text, s.lines = done ++ [text] ∧ I done s.main ∧
        ¬ PipeFits limit (lineWords text) s.main.table)

theorem Standing.mono {I J : List (List Char) → Main F → Prop}
    (hIJ : ∀ done m, I done m → J done m) (h : Standing limit I s) :
    Standing limit J s := by
  unfold Standing at *
  cases hstage : s.stage with
  | prompt =>
    rw [hstage] at h
    exact hIJ _ _ h
  | processing call =>
    rw [hstage] at h
    obtain ⟨done, text, former, hlines, hI, hrest⟩ := h
    exact ⟨done, text, former, hlines, hIJ _ _ hI, hrest⟩
  | exited code =>
    rw [hstage] at h
    rcases h with ⟨hcode, hI⟩ | ⟨hcode, done, text, hlines, hI, hfits⟩
    · exact Or.inl ⟨hcode, hIJ _ _ hI⟩
    · exact Or.inr ⟨hcode, done, text, hlines, hIJ _ _ hI, hfits⟩

/-- In every stage something is said of the shell between two lines. -/
theorem Standing.exists_done {I : List (List Char) → Main F → Prop} (h : Standing limit I s) :
    ∃ done more, s.lines = done ++ more ∧ I done s.main := by
  unfold Standing at h
  cases hstage : s.stage with
  | prompt =>
    rw [hstage] at h
    exact ⟨_, [], (List.append_nil _).symm, h⟩
  | processing call =>
    rw [hstage] at h
    obtain ⟨done, text, former, hlines, hI, -⟩ := h
    exact ⟨done, [text], hlines, hI⟩
  | exited code =>
    rw [hstage] at h
    rcases h with ⟨-, hI⟩ | ⟨-, done, text, hlines, hI, -⟩
    · exact ⟨_, [], (List.append_nil _).symm, hI⟩
    · exact ⟨done, [text], hlines, hI⟩

/-- The numbers that `pipe` is going to have. -/
theorem pipeFails_iff {words : List String} {table : Table (Handle F)}
    {former : List (Former (Handle F))} {call : State (Handle F)}
    (hd : Determined words table former call) (hphase : call.phase = .start) :
    pipeFails limit call ↔ words ≠ [] ∧ ¬ PipeFits limit words table := by
  have hstart : tableAt words table .start = inherit table := by
    unfold tableAt
    split <;> rfl
  have htable : call.shell.table = inherit table := by
    rw [hd.shell, hphase, hstart]
    rfl
  have hlen : words.length ≠ 0 ↔ words ≠ [] := not_congr List.length_eq_zero_iff
  rw [pipeFails, hd.command, htable, PipeFits, Classical.not_imp, Nat.not_lt, hlen]
  constructor
  · rintro ⟨-, hne, hp, hle⟩
    exact ⟨hne, not_not.mp (mt isPiped_eq_none.mpr hp), hle⟩
  · rintro ⟨hne, hmem, hle⟩
    exact ⟨hphase, hne, mt isPiped_eq_none.mp (not_not.mpr hmem), hle⟩

/-- Only the shell leaves the start of a call. -/
theorem phase_eq_of_not_shell {e : Event} {call call' : State (Handle F)} (he : e ≠ .shell)
    (hst : step e call = some call') : call'.phase = call.phase := by
  cases e with
  | shell => exact absurd rfl he
  | terminate pid =>
    obtain ⟨c, -, hst⟩ := Option.bind_eq_some_iff.mp hst
    cases hst
    rfl
  | terminateFormer i =>
    obtain ⟨c, -, hst⟩ := Option.bind_eq_some_iff.mp hst
    cases hst
    rfl

@[simp] theorem Main.note_table (m : Main F) (e : Event) : (m.note e).table = m.table := by
  cases e <;> rfl

theorem call_eq_start {m : Main F} (hsig : m.sigchld = .SIG_IGN ∧ m.sigint = .SIG_IGN)
    (words : List String) : m.call words = State.start words m.table (m.jobs.map Job.former) := by
  rw [Main.call, hsig.1, hsig.2]
  rfl

section Rule

variable {I : List (List Char) → Main F → Prop}

theorem standing_moves (hsig : ∀ done m, I done m → m.sigchld = .SIG_IGN ∧ m.sigint = .SIG_IGN)
    (hblank : ∀ done text m, I done m → lineWords text = [] →
      I (done ++ [text]) { m with line := m.line + 1 })
    (hcall : ∀ done text m former call, I done m → lineWords text ≠ [] →
      Reachable (lineWords text) m.table former call → call.phase = .returned →
      PipeFits limit (lineWords text) m.table → I (done ++ [text]) (m.afterCall call))
    (hterm : ∀ done m i, I done m → I done (m.terminate i)) (h : Standing limit I s)
    {e : SessionEvent} (hst : SessionMoves limit s e t) : Standing limit I t := by
  obtain ⟨lines, main, stage⟩ := s
  cases hst with
  | finish hstage =>
    cases hstage
    exact Or.inl ⟨rfl, h⟩
  | blank hstage hwords =>
    cases hstage
    exact hblank _ _ _ h hwords
  | @command text _ hstage hwords =>
    cases hstage
    have hI : I lines main := h
    refine ⟨lines, text, main.jobs.map Job.former, rfl, hI, hwords, ?_,
      fun hphase => absurd rfl hphase⟩
    rw [call_eq_start (hsig _ _ hI)]
    exact .refl
  | returned hstage hphase =>
    cases hstage
    obtain ⟨done, text, former, hlines, hI, hwords, hreach, hfits⟩ := h
    show I lines (main.afterCall _)
    rw [show lines = done ++ [text] from hlines]
    exact hcall _ _ _ former _ hI hwords hreach hphase (hfits (by simp [hphase]))
  | noPipe hstage hfails =>
    cases hstage
    obtain ⟨done, text, former, hlines, hI, hwords, hreach, -⟩ := h
    have hfits := ((pipeFails_iff hreach.determined hfails.1).mp hfails).2
    exact Or.inr ⟨rfl, done, text, hlines, hI, hfits⟩
  | @inner call call' e hstage hfits hst =>
    cases hstage
    obtain ⟨done, text, former, hlines, hI, hwords, hreach, hold⟩ := h
    refine ⟨done, text, former, hlines, ?_, hwords, ?_, fun hphase => ?_⟩
    · cases e with
      | terminateFormer i => exact hterm _ _ i hI
      | _ => exact hI
    · rw [Main.note_table]
      exact .tail hreach trivial hst
    · rw [Main.note_table]
      by_cases hstart : call.phase = .start
      · -- it is the shell that leaves the start, and its `pipe` succeeds
        have he : e = .shell := by
          by_contra he
          exact hphase ((phase_eq_of_not_shell he hst).trans hstart)
        by_contra hno
        exact hfits ⟨he, (pipeFails_iff hreach.determined hstart).mpr ⟨hwords, hno⟩⟩
      · exact hold hstart
  | @terminate i hstage =>
    cases stage with
    | prompt => exact hterm _ _ i h
    | processing call => exact absurd rfl (hstage call)
    | exited code =>
      rcases h with ⟨hcode, hI⟩ | ⟨hcode, done, text, hlines, hI, hfits⟩
      · exact Or.inl ⟨hcode, hterm _ _ i hI⟩
      · exact Or.inr ⟨hcode, done, text, hlines, hterm _ _ i hI, hfits⟩

/-- **The rule.** What a blank line, a whole call and the end of a process keep is kept by all
sessions. -/
theorem SessionReachable.standing (h : SessionReachable limit table s)
    (h₀ : I [] (.start table))
    (hblank : ∀ done text m, m.line = done.length → I done m → lineWords text = [] →
      I (done ++ [text]) { m with line := m.line + 1 })
    (hcall : ∀ done text m former call, m.line = done.length → I done m → lineWords text ≠ [] →
      Reachable (lineWords text) m.table former call → call.phase = .returned →
      PipeFits limit (lineWords text) m.table → I (done ++ [text]) (m.afterCall call))
    (hterm : ∀ done m i, I done m → I done (m.terminate i)) : Standing limit I s := by
  -- the dispositions that `prepare` has set stay as they are, and the lines are counted
  let J : List (List Char) → Main F → Prop := fun done m =>
    (m.sigchld = .SIG_IGN ∧ m.sigint = .SIG_IGN) ∧ m.line = done.length ∧ I done m
  have hnext : ∀ (done : List (List Char)) text {n : Nat}, n = done.length →
      n + 1 = (done ++ [text]).length := by
    intro done text n hn
    rw [List.length_append, List.length_singleton, hn]
  have hJ : Standing limit J s := by
    refine Runs.Reaches.invariant h ?_ fun e t u hI he hst => ?_
    · exact ⟨⟨rfl, rfl⟩, rfl, h₀⟩
    · refine standing_moves (fun _ _ hJ => hJ.1) (fun done text m hJ hwords => ?_)
        (fun done text m former call hJ hwords hreach hphase hfits => ?_)
        (fun done m i hJ => ⟨hJ.1, hJ.2.1, hterm done m i hJ.2.2⟩) hI (sessionStep_moves he hst)
      · obtain ⟨hsig, hline, hI⟩ := hJ
        exact ⟨hsig, hnext done text hline, hblank done text m hline hI hwords⟩
      · obtain ⟨hsig, hline, hI⟩ := hJ
        refine ⟨?_, hnext done text hline,
          hcall done text m former call hline hI hwords hreach hphase hfits⟩
        have hshell := hreach.determined.shell
        exact ⟨congrArg Process.sigchld hshell, congrArg Process.sigint hshell⟩
  exact hJ.mono fun _ _ hJ => hJ.2.2

end Rule

end OsHw.Hw2
