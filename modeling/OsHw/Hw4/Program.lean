import OsHw.Lib.Runs
import OsHw.Lib.Transfer
import Mathlib.Data.BitVec

/-!
# OsHw — the XOR programs of `hw4` (`hw4.c` and its earlier variant `main.c`)

One worker thread per input file reads its file block by block and XORs each block into the
shared `outputBuffer`; the last worker of a level appends the buffer to the output file. A
worker whose file has ended retires by decrementing `numThreads`.

The model is a step function over events. One event is the next action of one thread, up to
its next visible point:

* the sections between `pthread_mutex_lock` and `pthread_mutex_unlock` are one action each, a
  wait in the middle of one splits it in two;
* reading a block touches only the worker's own file and buffer, so `readNextBlock` with all
  its `read` calls is one action;
* the main thread reads `numThreads` without the lock, in the loop tests of
  `initAndcreateThreads` and (in `main.c`) of `waitForThreads`; each test is an action, and so
  is each `pthread_create` and `pthread_join`.

`short` is the kernel's choice of how many bytes each `read` or `write` call moves. No call
fails. `pthread_cond_wait` returns after a broadcast issued during the wait (`wake`); the
return POSIX also allows without one is an event of its own, `Event.spurious`.

`numThreads` and `workersDone` are C `int`s below the number of program arguments. `level` and
`current_level` are only compared for equality with each other and never differ by more than
one, so they are natural numbers; `total_size` is reported, and wraps at 32 bits.
-/

namespace OsHw.Hw4

def BUFFER_SIZE : Nat := 1048576

/-- Two's complement wrap-around of a C `int`. -/
def wrap32 (x : Int) : Int := Int.bmod x (2 ^ 32)

/-! ## Data -/

/-- Where a worker is. `xorWait`/`retireWait` are the two waits on `allDoneCond`; their flag
says that a broadcast was issued since the wait began. -/
inductive Phase where
  /-- `pthread_create` was not called for this file yet. -/
  | unborn
  /-- At the loop test of `workerMain`, about to call `readNextBlock`. -/
  | reading
  /-- About to lock in `xorWithOutput`. -/
  | xorLock
  | xorWait (woken : Bool)
  /-- Between the unlock of `xorWithOutput` and the lock of `xorAndWrite`. -/
  | countLock
  /-- The file has ended; about to lock in `workerMain`. -/
  | retireLock
  | retireWait (woken : Bool)
  /-- Unlocked after `numThreads--`; about to call `pthread_exit`. -/
  | exiting
  | terminated
  deriving DecidableEq, Repr

/-- A worker: its file, the part of the file behind the descriptor's offset, the `readBytes`
bytes in `buff`, and its `current_level`. -/
structure Worker where
  content : List UInt8
  unread : List UInt8
  buff : List UInt8
  currentLevel : Nat
  phase : Phase
  deriving DecidableEq, Repr

/-- The global variables and the output file. Only the entries of `outputBuffer` below
`BUFFER_SIZE` exist. -/
structure Globals where
  numThreads : Int
  workersDone : Int
  lengthToWrite : Nat
  level : Nat
  totalSize : Int
  outputBuffer : Nat → UInt8
  output : List UInt8

/-- Where the main thread is: before the loop test of `initAndcreateThreads`, about to create
a thread, before the loop test of `waitForThreads`, in `pthread_join`, behind
`waitForThreads`. -/
inductive MainPhase where
  | createTest (i : Nat)
  | create (i : Nat)
  | joinTest (i : Nat)
  | join (i : Nat)
  | joined
  deriving DecidableEq, Repr

structure State where
  globals : Globals
  workers : List Worker
  main : MainPhase

/-- What `hw4.c` and `main.c` do differently: how a level is written out, whether its size is
added up, and the bound of the loop in `waitForThreads`. Both write a level from its front
(`writes_front`), and all of it where the first call is not short (`writes_all`). -/
structure Program where
  write : (Nat → Nat) → List UInt8 → Option (List UInt8)
  addSize : Int → Nat → Int
  joinBound : Nat → Int → Int
  writes_front : ∀ short bytes, ∃ out, write short bytes = some out ∧ out <+: bytes
  writes_all : ∀ short bytes, bytes.length ≤ short 0 → write short bytes = some bytes

/-- The two `write` calls of `writeToOutputFileAndCleanBuffer` and the loop around the second
one, in `hw4.c`. -/
def writeLoop (short : Nat → Nat) (bytes : List UInt8) : Option (List UInt8) :=
  (Transfer.transfer short bytes.length bytes).map Prod.fst

theorem writeLoop_eq (short : Nat → Nat) (bytes : List UInt8) :
    writeLoop short bytes = some bytes := by
  simp [writeLoop, Transfer.transfer_eq]

/-- `hw4.c`: writes in a loop, adds up `total_size`, joins `argc - 2` threads. -/
def hw4 : Program where
  write := writeLoop
  addSize total n := wrap32 (total + n)
  joinBound totalNumberOfThreads _ := totalNumberOfThreads
  writes_front short bytes := ⟨bytes, writeLoop_eq short bytes, List.prefix_refl bytes⟩
  writes_all short bytes _ := writeLoop_eq short bytes

/-- The only `write` call of a level in `main.c`, whose count is not looked at. -/
def writeOnce (short : Nat → Nat) (bytes : List UInt8) : Option (List UInt8) :=
  some (bytes.take (Transfer.moved (short 0) bytes.length bytes.length))

theorem writeOnce_eq {short : Nat → Nat} {bytes : List UInt8} (h : bytes.length ≤ short 0) :
    writeOnce short bytes = some bytes := by
  have hmoved : bytes.length ≤ Transfer.moved (short 0) bytes.length bytes.length := by
    unfold Transfer.moved
    omega
  rw [writeOnce, List.take_of_length_le hmoved]

/-- `main.c`: one `write`, no `total_size`, and `waitForThreads` loops while `i < numThreads`. -/
def mainC : Program where
  write := writeOnce
  addSize total _ := total
  joinBound _ numThreads := numThreads
  writes_front _ bytes := ⟨_, rfl, bytes.take_prefix _⟩
  writes_all _ _ := writeOnce_eq

/-! ## The worker's functions -/

/-- `readNextBlock`: the block read and the rest of the file. -/
def readNextBlock (short : Nat → Nat) (unread : List UInt8) :
    Option (List UInt8 × List UInt8) :=
  Transfer.transfer short BUFFER_SIZE unread

/-- The loop `outputBuffer[i] ^= inputBuffer[i]` over the bytes of the input buffer. -/
def xorBuffer (inputBuffer : List UInt8) (outputBuffer : Nat → UInt8) : Nat → UInt8 := fun i =>
  match inputBuffer[i]? with
  | some b => outputBuffer i ^^^ b
  | none => outputBuffer i

/-- `writeToOutputFileAndCleanBuffer`, up to its broadcast. -/
def writeToOutputFileAndCleanBuffer (p : Program) (short : Nat → Nat) (g : Globals) :
    Option Globals := do
  let bytes ← p.write short ((List.range g.lengthToWrite).map g.outputBuffer)
  return { g with
    output := g.output ++ bytes
    outputBuffer := fun i => if i < BUFFER_SIZE then 0 else g.outputBuffer i
    workersDone := 0
    totalSize := p.addSize g.totalSize g.lengthToWrite
    lengthToWrite := 0
    level := g.level + 1 }

/-- The result of a worker's action: the globals, the worker, and whether it broadcast. -/
abbrev Effect := Globals × Worker × Bool

/-- `xorWithOutput` behind its wait: XOR and unlock. -/
def xorWithOutput (g : Globals) (w : Worker) : Effect :=
  ({ g with outputBuffer := xorBuffer w.buff g.outputBuffer },
    { w with phase := .countLock }, false)

/-- `xorAndWrite` behind `xorWithOutput`, and the `current_level++` of its caller. -/
def xorAndWrite (p : Program) (short : Nat → Nat) (g : Globals) (w : Worker) :
    Option Effect :=
  let g₁ := { g with
    workersDone := g.workersDone + 1
    lengthToWrite :=
      if w.buff.length > g.lengthToWrite then w.buff.length else g.lengthToWrite }
  let w₁ := { w with currentLevel := w.currentLevel + 1, phase := .reading }
  if g₁.workersDone = g₁.numThreads then
    (writeToOutputFileAndCleanBuffer p short g₁).map fun g₂ => (g₂, w₁, true)
  else
    some (g₁, w₁, false)

/-- The end of `workerMain`, behind its wait: decrement `numThreads`, write the level out when
everyone else has contributed to it, and unlock. -/
def retire (p : Program) (short : Nat → Nat) (g : Globals) (w : Worker) : Option Effect :=
  let g₁ := { g with numThreads := g.numThreads - 1 }
  let w₁ := { w with phase := .exiting }
  if g.workersDone ≠ g.numThreads - 1 then
    some (g₁, w₁, false)
  else
    (writeToOutputFileAndCleanBuffer p short g₁).map fun g₂ => (g₂, w₁, true)

/-- The next action of a worker; `none` where it is blocked or does not run. -/
def workerMain (p : Program) (short : Nat → Nat) (g : Globals) (w : Worker) : Option Effect :=
  match w.phase with
  | .unborn => none
  | .reading =>
    (readNextBlock short w.unread).map fun r =>
      (g, { w with buff := r.1, unread := r.2,
                   phase := if 0 < r.1.length then .xorLock else .retireLock }, false)
  | .xorLock =>
    if w.currentLevel ≠ g.level then some (g, { w with phase := .xorWait false }, false)
    else some (xorWithOutput g w)
  | .xorWait false => none
  | .xorWait true => some (xorWithOutput g w)
  | .countLock => xorAndWrite p short g w
  | .retireLock =>
    if w.currentLevel ≠ g.level then some (g, { w with phase := .retireWait false }, false)
    else retire p short g w
  | .retireWait false => none
  | .retireWait true => retire p short g w
  | .exiting => some (g, { w with phase := .terminated }, false)
  | .terminated => none

/-- What a broadcast does to a worker: a waiting one will return from its wait. -/
def Worker.wake (w : Worker) : Worker :=
  match w.phase with
  | .xorWait _ => { w with phase := .xorWait true }
  | .retireWait _ => { w with phase := .retireWait true }
  | _ => w

/-! ## The whole program -/

/-- The main thread's next action. `threads[i]` is set by `pthread_create` only, so joining a
thread that was never created is undefined and has no step here. -/
def mainStep (p : Program) (s : State) : Option State :=
  match s.main with
  | .createTest i =>
    if (i : Int) < s.globals.numThreads then some { s with main := .create i }
    else some { s with main := .joinTest 0 }
  | .create i =>
    s.workers[i]?.map fun w =>
      { s with workers := s.workers.set i { w with phase := .reading }
               main := .createTest (i + 1) }
  | .joinTest i =>
    if (i : Int) < p.joinBound s.workers.length s.globals.numThreads then
      some { s with main := .join i }
    else some { s with main := .joined }
  | .join i =>
    if s.workers[i]?.map Worker.phase = some .terminated then
      some { s with main := .joinTest (i + 1) }
    else none
  | .joined => none

inductive Event where
  | main
  | worker (i : Nat) (short : Nat → Nat)
  /-- The wait of worker `i` returns without a broadcast. -/
  | spurious (i : Nat)

def step (p : Program) : Event → State → Option State
  | .main, s => mainStep p s
  | .worker i short, s => do
    let w ← s.workers[i]?
    let (g, w', broadcast) ← workerMain p short s.globals w
    let workers := s.workers.set i w'
    return { s with globals := g
                    workers := if broadcast then workers.map Worker.wake else workers }
  | .spurious i, s => do
    let w ← s.workers[i]?
    if w.phase = .xorWait false ∨ w.phase = .retireWait false then
      return { s with workers := s.workers.set i w.wake }
    else none

/-- The events of a run in which `pthread_cond_wait` returns only after a broadcast. -/
def Event.Proper : Event → Prop
  | .spurious _ => False
  | _ => True

/-- The first call of the action moves a whole block, if it is asked to. -/
def Event.Complete : Event → Prop
  | .worker _ short => BUFFER_SIZE ≤ short 0
  | _ => True

/-- A worker before its first block. -/
def Worker.fresh (phase : Phase) (content : List UInt8) : Worker :=
  { content, unread := content, buff := [], currentLevel := 0, phase }

/-- The state in which `main` calls `initAndcreateThreads`, for the given input files. -/
def init (inputs : List (List UInt8)) : State where
  globals :=
    { numThreads := inputs.length, workersDone := 0, lengthToWrite := 0, level := 0,
      totalSize := 0, outputBuffer := fun _ => 0, output := [] }
  workers := inputs.map (Worker.fresh .unborn)
  main := .createTest 0

/-- `s` occurs in some run of the program on the given input files. -/
def Reachable (p : Program) (inputs : List (List UInt8)) (s : State) : Prop :=
  Runs.Reaches (step p) (fun e _ => e.Proper) (init inputs) s

/-- `s` occurs in some run in which no `write` is short. -/
def ReachableComplete (p : Program) (inputs : List (List UInt8)) (s : State) : Prop :=
  Runs.Reaches (step p) (fun e _ => e.Proper ∧ e.Complete) (init inputs) s

theorem ReachableComplete.reachable {p : Program} {inputs : List (List UInt8)} {s : State}
    (h : ReachableComplete p inputs s) : Reachable p inputs s :=
  h.mono fun _ _ he => he.1

theorem ReachableComplete.next {p : Program} {inputs : List (List UInt8)} {s t : State}
    {e : Event} (h : ReachableComplete p inputs s) (hst : step p e s = some t)
    (he : e.Proper ∧ e.Complete) : ReachableComplete p inputs t :=
  .tail h he hst

theorem Reachable.next {p : Program} {inputs : List (List UInt8)} {s t : State} {e : Event}
    (h : Reachable p inputs s) (hst : step p e s = some t) (he : e.Proper) :
    Reachable p inputs t :=
  .tail h he hst

end OsHw.Hw4
