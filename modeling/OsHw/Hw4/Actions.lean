import OsHw.Lib.Family
import OsHw.Hw4.Program

/-!
# OsHw — what one action of a worker can do

`workerMain` is inverted once: **`Acts`** lists the ten things an action of a worker can be,
with the guard it was taken under and the globals, worker and broadcast it leaves behind.
`workerMain_acts` says that there are no others, and `step_moves` lifts this to the whole
program: a proper step moves the main thread or replaces one worker in the list, and wakes
everyone when that worker broadcast. Every invariant of `hw4` is derived from these two.
-/

namespace OsHw.Hw4

open Runs

theorem readNextBlock_eq (short : Nat → Nat) (unread : List UInt8) :
    readNextBlock short unread
      = some (unread.take BUFFER_SIZE, unread.drop BUFFER_SIZE) :=
  Transfer.transfer_eq short BUFFER_SIZE unread

/-- The bytes of the level that `writeToOutputFileAndCleanBuffer` is about to write. -/
def levelBytes (g : Globals) : List UInt8 := (List.range g.lengthToWrite).map g.outputBuffer

theorem length_levelBytes (g : Globals) : (levelBytes g).length = g.lengthToWrite := by
  rw [levelBytes, List.length_map, List.length_range]

/-- The globals behind `writeToOutputFileAndCleanBuffer`, which has written `out`. -/
def flushed (p : Program) (out : List UInt8) (g : Globals) : Globals :=
  { g with
    output := g.output ++ out
    outputBuffer := fun i => if i < BUFFER_SIZE then 0 else g.outputBuffer i
    workersDone := 0
    totalSize := p.addSize g.totalSize g.lengthToWrite
    lengthToWrite := 0
    level := g.level + 1 }

/-- What a program may write of a level. -/
def Program.Writes (p : Program) (g : Globals) (out : List UInt8) : Prop :=
  ∃ short, p.write short (levelBytes g) = some out

theorem writeToOutputFileAndCleanBuffer_eq (p : Program) (short : Nat → Nat) (g : Globals) :
    ∃ out, p.Writes g out ∧
      writeToOutputFileAndCleanBuffer p short g = some (flushed p out g) := by
  obtain ⟨out, hout, -⟩ := p.writes_front short (levelBytes g)
  refine ⟨out, ⟨short, hout⟩, ?_⟩
  rw [levelBytes] at hout
  simp only [writeToOutputFileAndCleanBuffer, hout]
  rfl

/-- It is the front of the level, and all of it in `hw4.c`. -/
theorem Program.Writes.isPrefix {p : Program} {g : Globals} {out : List UInt8}
    (h : p.Writes g out) : out <+: levelBytes g := by
  obtain ⟨short, hwrite⟩ := h
  obtain ⟨out', hwrite', hfront⟩ := p.writes_front short (levelBytes g)
  rw [hwrite] at hwrite'
  cases hwrite'
  exact hfront

theorem hw4_writes {g : Globals} {out : List UInt8} (h : hw4.Writes g out) :
    out = levelBytes g := by
  obtain ⟨short, hwrite⟩ := h
  have hall : writeLoop short (levelBytes g) = some out := hwrite
  rw [writeLoop_eq] at hall
  exact (Option.some.inj hall).symm

/-- The globals once `w` has counted itself in `xorAndWrite`. -/
def counted (g : Globals) (w : Worker) : Globals :=
  { g with
    workersDone := g.workersDone + 1
    lengthToWrite :=
      if w.buff.length > g.lengthToWrite then w.buff.length else g.lengthToWrite }

/-- The globals once a worker has taken itself off `numThreads`. -/
def retired (g : Globals) : Globals := { g with numThreads := g.numThreads - 1 }

/-- `w` holds the lock in `xorWithOutput` with its test or its wait behind it. -/
def Worker.AtXor (w : Worker) (level : Nat) : Prop :=
  (w.phase = .xorLock ∧ w.currentLevel = level) ∨ w.phase = .xorWait true

/-- `w` holds the lock at the end of `workerMain` with its test or its wait behind it. -/
def Worker.AtRetire (w : Worker) (level : Nat) : Prop :=
  (w.phase = .retireLock ∧ w.currentLevel = level) ∨ w.phase = .retireWait true

/-- The actions of a worker `w` under the globals `g`. -/
inductive Acts (p : Program) (g : Globals) (w : Worker) : Globals → Worker → Bool → Prop where
  | read (hph : w.phase = .reading) (hne : w.unread ≠ []) :
      Acts p g w g { w with buff := w.unread.take BUFFER_SIZE
                            unread := w.unread.drop BUFFER_SIZE, phase := .xorLock } false
  | eof (hph : w.phase = .reading) (hnil : w.unread = []) :
      Acts p g w g { w with buff := [], unread := [], phase := .retireLock } false
  | xorSleep (hph : w.phase = .xorLock) (hne : w.currentLevel ≠ g.level) :
      Acts p g w g { w with phase := .xorWait false } false
  | xor (hat : w.AtXor g.level) :
      Acts p g w { g with outputBuffer := xorBuffer w.buff g.outputBuffer }
        { w with phase := .countLock } false
  | count (hph : w.phase = .countLock) (hne : g.workersDone + 1 ≠ g.numThreads) :
      Acts p g w (counted g w)
        { w with currentLevel := w.currentLevel + 1, phase := .reading } false
  | countFlush {out : List UInt8} (hph : w.phase = .countLock)
      (heq : g.workersDone + 1 = g.numThreads) (hout : p.Writes (counted g w) out) :
      Acts p g w (flushed p out (counted g w))
        { w with currentLevel := w.currentLevel + 1, phase := .reading } true
  | retireSleep (hph : w.phase = .retireLock) (hne : w.currentLevel ≠ g.level) :
      Acts p g w g { w with phase := .retireWait false } false
  | retire (hat : w.AtRetire g.level) (hne : g.workersDone ≠ g.numThreads - 1) :
      Acts p g w (retired g) { w with phase := .exiting } false
  | retireFlush {out : List UInt8} (hat : w.AtRetire g.level)
      (heq : g.workersDone = g.numThreads - 1) (hout : p.Writes (retired g) out) :
      Acts p g w (flushed p out (retired g)) { w with phase := .exiting } true
  | exit (hph : w.phase = .exiting) :
      Acts p g w g { w with phase := .terminated } false

theorem retire_acts {p : Program} {short : Nat → Nat} {g g' : Globals} {w w' : Worker}
    {b : Bool} (hat : w.AtRetire g.level) (h : retire p short g w = some (g', w', b)) :
    Acts p g w g' w' b := by
  obtain ⟨out, hout, hwrite⟩ := writeToOutputFileAndCleanBuffer_eq p short (retired g)
  rw [retired] at hwrite
  simp only [retire, hwrite, Option.map_some] at h
  split at h
  · next hne =>
    cases h
    exact .retire hat hne
  · next heq =>
    cases h
    exact .retireFlush hat (not_not.mp heq) hout

/-- **Inversion of a worker's action.** -/
theorem workerMain_acts {p : Program} {short : Nat → Nat} {g g' : Globals} {w w' : Worker}
    {b : Bool} (h : workerMain p short g w = some (g', w', b)) : Acts p g w g' w' b := by
  unfold workerMain at h
  cases hph : w.phase with
  | unborn => simp [hph] at h
  | reading =>
    simp only [hph, readNextBlock_eq, Option.map_some, Option.some.injEq] at h
    cases hun : w.unread with
    | nil =>
      simp only [hun, List.take_nil, List.drop_nil, List.length_nil, Nat.lt_irrefl,
        if_false] at h
      cases h
      exact .eof hph hun
    | cons c cs =>
      have hpos : 0 < (w.unread.take BUFFER_SIZE).length := by simp [hun, BUFFER_SIZE]
      rw [if_pos hpos] at h
      cases h
      exact .read hph (by simp [hun])
  | xorLock =>
    simp only [hph] at h
    split at h
    · next hne =>
      cases h
      exact .xorSleep hph hne
    · next heq =>
      cases h
      exact .xor (.inl ⟨hph, not_not.mp heq⟩)
  | xorWait woken =>
    cases woken with
    | false => simp [hph] at h
    | true =>
      simp only [hph] at h
      cases h
      exact .xor (.inr hph)
  | countLock =>
    obtain ⟨out, hout, hwrite⟩ := writeToOutputFileAndCleanBuffer_eq p short (counted g w)
    rw [counted] at hwrite
    simp only [hph, xorAndWrite, hwrite, Option.map_some] at h
    split at h
    · next heq =>
      cases h
      exact .countFlush hph heq hout
    · next hne =>
      cases h
      exact .count hph hne
  | retireLock =>
    simp only [hph] at h
    split at h
    · next hne =>
      cases h
      exact .retireSleep hph hne
    · next heq => exact retire_acts (.inl ⟨hph, not_not.mp heq⟩) h
  | retireWait woken =>
    cases woken with
    | false => simp [hph] at h
    | true =>
      simp only [hph] at h
      exact retire_acts (.inr hph) h
  | exiting =>
    simp only [hph] at h
    cases h
    exact .exit hph
  | terminated => simp [hph] at h

/-- A worker that is blocked: not started, waiting without a broadcast, or gone. -/
def Worker.Blocked (w : Worker) : Prop :=
  w.phase = .unborn ∨ w.phase = .xorWait false ∨ w.phase = .retireWait false ∨
    w.phase = .terminated

/-- A worker that acts is not blocked. -/
theorem Acts.unblocked {p : Program} {g g' : Globals} {w w' : Worker} {b : Bool}
    (h : Acts p g w g' w' b) : ¬ w.Blocked := by
  cases h with
  | xor hat => rcases hat with ⟨hph, -⟩ | hph <;> simp [Worker.Blocked, hph]
  | retire hat _ => rcases hat with ⟨hph, -⟩ | hph <;> simp [Worker.Blocked, hph]
  | retireFlush hat _ _ => rcases hat with ⟨hph, -⟩ | hph <;> simp [Worker.Blocked, hph]
  | _ => simp [Worker.Blocked, *]

theorem workerMain_eq_none (p : Program) (short : Nat → Nat) (g : Globals) {w : Worker}
    (h : w.Blocked) : workerMain p short g w = none := by
  rcases h with hph | hph | hph | hph <;> simp [workerMain, hph]

theorem retire_isSome (p : Program) (short : Nat → Nat) (g : Globals) (w : Worker) :
    (retire p short g w).isSome := by
  obtain ⟨out, -, hwrite⟩ := writeToOutputFileAndCleanBuffer_eq p short (retired g)
  rw [retired] at hwrite
  simp only [retire, hwrite, Option.map_some]
  split <;> rfl

/-- Everyone else can act, whatever the kernel moves in a call. -/
theorem workerMain_isSome (p : Program) (short : Nat → Nat) (g : Globals) {w : Worker}
    (h : ¬ w.Blocked) : (workerMain p short g w).isSome := by
  simp only [Worker.Blocked, not_or] at h
  obtain ⟨hun, hxw, hrw, hterm⟩ := h
  unfold workerMain
  cases hph : w.phase with
  | unborn => exact absurd hph hun
  | reading => simp [readNextBlock_eq]
  | xorLock => simp only []; split <;> rfl
  -- a wait is over when it was woken
  | xorWait woken =>
    cases woken with
    | false => exact absurd hph hxw
    | true => rfl
  | countLock =>
    obtain ⟨out, -, hwrite⟩ := writeToOutputFileAndCleanBuffer_eq p short (counted g w)
    rw [counted] at hwrite
    simp only [xorAndWrite, hwrite, Option.map_some]
    split <;> rfl
  | retireLock =>
    dsimp only
    split
    · rfl
    · exact retire_isSome p short g w
  | retireWait woken =>
    cases woken with
    | false => exact absurd hph hrw
    | true => exact retire_isSome p short g w
  | exiting => rfl
  | terminated => exact absurd hph hterm

/-! ## The step of the program -/

/-- The list of workers after a possible broadcast. -/
def wakeIf (broadcast : Bool) (ws : List Worker) : List Worker :=
  if broadcast then ws.map Worker.wake else ws

@[simp] theorem wakeIf_false (ws : List Worker) : wakeIf false ws = ws := rfl

@[simp] theorem wakeIf_true (ws : List Worker) : wakeIf true ws = ws.map Worker.wake := rfl

theorem step_worker {p : Program} {i : Nat} {short : Nat → Nat} {s s' : State}
    (h : step p (.worker i short) s = some s') :
    ∃ w g' w' b, s.workers[i]? = some w ∧ workerMain p short s.globals w = some (g', w', b) ∧
      s' = { s with globals := g', workers := wakeIf b (s.workers.set i w') } := by
  simp only [step, bind, Option.bind_eq_some_iff, pure, Option.some.injEq] at h
  obtain ⟨w, hw, ⟨g', w', b⟩, hact, hs⟩ := h
  exact ⟨w, g', w', b, hw, hact, hs.symm⟩

/-- Only a wait that was not woken can return by itself. -/
theorem step_spurious {p : Program} {i : Nat} {s s' : State}
    (h : step p (.spurious i) s = some s') :
    ∃ w, s.workers[i]? = some w ∧ (w.phase = .xorWait false ∨ w.phase = .retireWait false) ∧
      s' = { s with workers := s.workers.set i w.wake } := by
  simp only [step, bind, Option.bind_eq_some_iff] at h
  obtain ⟨w, hw, hif⟩ := h
  split at hif
  · next hwait => exact ⟨w, hw, hwait, (Option.some.inj hif).symm⟩
  · cases hif

/-- The proper steps of the program: one of the main thread, or one of the worker `w` that
stands between `pre` and `post`. -/
inductive Moves (p : Program) (s : State) : State → Prop where
  | main {s' : State} (h : mainStep p s = some s') : Moves p s s'
  | worker {pre post : List Worker} {w w' : Worker} {g' : Globals} {b : Bool}
      (hs : s.workers = pre ++ w :: post) (hact : Acts p s.globals w g' w' b) :
      Moves p s { s with globals := g', workers := wakeIf b (pre ++ w' :: post) }

/-- **Inversion of a proper step.** -/
theorem step_moves {p : Program} {e : Event} {s s' : State} (he : e.Proper)
    (h : step p e s = some s') : Moves p s s' := by
  cases e with
  | main => exact .main h
  | spurious i => exact absurd he (by simp [Event.Proper])
  | worker i short =>
    obtain ⟨w, g', w', b, hw, hact, rfl⟩ := step_worker h
    obtain ⟨pre, post, -, hsplit, hset⟩ := Family.exists_split hw
    rw [hset]
    exact .worker hsplit (workerMain_acts hact)

end OsHw.Hw4
