import OsHw.Lib.Descriptors
import OsHw.Lib.Runs

/-!
# OsHw — the shell of `hw2` (`myshell.c`)

`prepare` runs once; then `process_arglist` runs for every line, here for one line of words.

* Processes have copies of the shell's memory, signal dispositions and descriptors, and meet
  only in `waitpid`. What a child does before `execvp` changes only these copies, so it is done at
  the fork; the child's `Image` is what `execvp` finds. Behind a failing `execvp` the child exits;
  what that does to the input it shares with the shell is in `getline` (`Hw2/Session.lean`).
* An open file is one of those that the shell had open before, of which nothing is known, or an
  end of the pipe that this call opens.
* `sigaction`, `pipe` and `fork` succeed. A child whose `dup2` fails exits and has no image.
* A process identifier is the index of a child. `waitpid` blocks until the child has terminated;
  then, while SIGCHLD is ignored, the child was reaped already and `waitpid` returns -1.
* `arglist` has a `NULL` behind its words; `execvp` takes the words up to the first `NULL`.
-/

namespace OsHw.Hw2

open Descriptors

variable {F : Type}

inductive Disposition where
  | SIG_DFL
  | SIG_IGN
  deriving DecidableEq

inductive File (F : Type) where
  | inherited (f : F)
  | readEnd
  | writeEnd
  deriving DecidableEq

structure Process (F : Type) where
  sigchld : Disposition
  sigint : Disposition
  table : Table (File F)

/-- A process when it calls `execvp`. -/
structure Image (F : Type) where
  argv : List String
  process : Process F

/-- `sigaction(SIGINT, &dontIgnore, NULL)`. -/
def Process.dontIgnore (p : Process F) : Process F := { p with sigint := .SIG_DFL }

def prepare (p : Process F) : Process F := { p with sigchld := .SIG_IGN, sigint := .SIG_IGN }

/-! ## The words -/

/-- The index of the first `"|"`; the source has -1 for `none`. -/
def isPiped (words : List String) : Option Nat := words.findIdx? (· == "|")

def isBackground (words : List String) : Bool := words.getLast? == some "&"

/-- The words with the `NULL` behind them. -/
def arglist (words : List String) : List (Option String) := words.map some ++ [none]

/-- What `execvp` takes from an argument list. -/
def argv (arglist : List (Option String)) : List String :=
  (arglist.takeWhile Option.isSome).filterMap id

/-! ## The children -/

/-- A child from `execChild` on, with the numbers of the pipe if it is part of one. -/
def execChild (arglist : List (Option String)) (pipeFd : Option (Nat × Nat)) (reads : Bool)
    (p : Process F) : Option (Image F) :=
  match pipeFd with
  | none => some ⟨argv arglist, p⟩
  | some (r, w) =>
    if reads then do
      let table ← dup2 (close p.table w) r 0
      return ⟨argv arglist, { p with table := close table r }⟩
    else do
      let table ← dup2 (close p.table r) w 1
      return ⟨argv arglist, { p with table := close table w }⟩

/-- The child with `pid1`. -/
def firstChild (words : List String) (pipeFd : Nat × Nat) (p : Process F) : Option (Image F) :=
  match isPiped words with
  | none =>
    if isBackground words then
      execChild ((arglist words).set (words.length - 1) none) none false p
    else execChild (arglist words) none false p.dontIgnore
  | some pipeInd => execChild ((arglist words).set pipeInd none) (some pipeFd) false p.dontIgnore

/-- The child with `pid2`. -/
def secondChild (words : List String) (pipeInd : Nat) (pipeFd : Nat × Nat) (p : Process F) :
    Option (Image F) :=
  execChild ((arglist words).drop (pipeInd + 1)) (some pipeFd) true p.dontIgnore

/-! ## The shell -/

/-- Where the shell is in `process_arglist`. -/
inductive Phase where
  | start
  | fork1
  | fork2
  | close0
  | close1
  | wait1
  | wait2
  | returned
  deriving DecidableEq

structure Child (F : Type) where
  image : Option (Image F)
  terminated : Bool

/-- A background child of an earlier line. -/
structure Former (F : Type) where
  table : Table F
  terminated : Bool

structure State (F : Type) where
  words : List String
  phase : Phase
  shell : Process F
  pipeFd : Nat × Nat
  children : List (Child F)
  former : List (Former F)

/-- The files of the shell before the call. -/
def inherit (table : Table F) : Table (File F) := table.map (Option.map .inherited)

/-- The shell before it calls `process_arglist`. Before `prepare` its signals have their default
dispositions. -/
def shellProcess (table : Table F) : Process F := prepare ⟨.SIG_DFL, .SIG_DFL, inherit table⟩

/-- The call of `process_arglist`, with the descriptors that the shell has and the children that
it has left in the background. -/
def State.start (words : List String) (table : Table F) (former : List (Former F)) : State F :=
  ⟨words, .start, shellProcess table, (0, 0), [], former⟩

/-- `waitpid(pid, …)`: it blocks, or returns -1 (`none`) or a process identifier. -/
def waitpid (s : State F) (pid : Nat) : Option (Option Nat) :=
  match s.children[pid]? with
  | none => some none
  | some c =>
    if c.terminated then some (if s.shell.sigchld = .SIG_IGN then none else some pid) else none

/-- One step of `process_arglist`. It returns 1 on every path. -/
def shellStep (s : State F) : Option (State F) :=
  match s.phase with
  | .start =>
    if s.words.length = 0 then some { s with phase := .returned }
    else
      match isPiped s.words with
      | none => some { s with phase := .fork1 }
      | some _ =>
        let (pipeFd, table) := pipe s.shell.table .readEnd .writeEnd
        some { s with phase := .fork1, pipeFd, shell := { s.shell with table } }
  | .fork1 =>
    let s : State F :=
      { s with children := s.children ++ [⟨firstChild s.words s.pipeFd s.shell, false⟩] }
    if isBackground s.words then some { s with phase := .returned }
    else if (isPiped s.words).isSome then some { s with phase := .fork2 }
    else some { s with phase := .wait1 }
  | .fork2 => do
    let pipeInd ← isPiped s.words
    let image := secondChild s.words pipeInd s.pipeFd s.shell
    return { s with phase := .close0, children := s.children ++ [⟨image, false⟩] }
  | .close0 =>
    some { s with
      phase := .close1
      shell := { s.shell with table := close s.shell.table s.pipeFd.1 } }
  | .close1 =>
    some { s with
      phase := .wait1
      shell := { s.shell with table := close s.shell.table s.pipeFd.2 } }
  | .wait1 => do
    let result ← waitpid s 0
    if isPiped s.words = none then return { s with phase := .returned }
    else if result = some 0 then return { s with phase := .wait2 }
    else return { s with phase := .returned }
  | .wait2 => do
    let _ ← waitpid s 1
    return { s with phase := .returned }
  | .returned => none

inductive Event where
  | shell
  | terminate (pid : Nat)
  | terminateFormer (i : Nat)
  deriving DecidableEq

/-- A step of the shell, or the end of a child, which may come at any time. -/
def step (e : Event) (s : State F) : Option (State F) :=
  match e with
  | .shell => shellStep s
  | .terminate pid => do
    let c ← s.children[pid]?
    return { s with children := s.children.set pid { c with terminated := true } }
  | .terminateFormer i => do
    let c ← s.former[i]?
    return { s with former := s.former.set i { c with terminated := true } }

/-- The states that a call of `process_arglist` leads to. -/
def Reachable (words : List String) (table : Table F) (former : List (Former F)) (s : State F) :
    Prop :=
  Runs.Reaches step (fun _ _ => True) (State.start words table former) s

end OsHw.Hw2
