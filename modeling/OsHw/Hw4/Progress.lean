import OsHw.Hw4.Correct

/-!
# OsHw — when the XOR programs get stuck

The barrier itself cannot get stuck: if all workers that have not retired were waiting without
a broadcast, all of them would be counted in `workersDone`, and the level would have been
closed (`retired_of_waiting`). What goes wrong goes wrong in the main thread, whose loops are
bounded by the shared `numThreads` while the workers decrement it:

* `initAndcreateThreads` (both programs) stops early when a worker retires before the last one
  is created. A worker can do so only when its file is empty, so `hw4` never gets stuck exactly
  when no input but the last is empty (`hw4_deadlockFree_iff`);
* `waitForThreads` of `main.c` stops early whenever enough workers have retired, which can
  happen on every input (`mainC_never_finishes`); `hw4.c` passes it the number of threads.

`rank` decreases with every action of a worker, so workers that are left to themselves come to
rest; the bad runs are built from that.
-/

namespace OsHw.Hw4

open Runs Family

/-! ## Waiting workers -/

/-- `w` waits and no broadcast was issued since. -/
def Worker.Waiting (w : Worker) : Prop := w.phase = .xorWait false ∨ w.phase = .retireWait false

theorem Worker.Waiting.ahead {level : Nat} {w : Worker} (hw : w.Waiting)
    (h : w.InLevel level) : w.currentLevel = level + 1 := by
  rcases hw with hph | hph <;> simpa [InLevel, hph] using h

/-- **The barrier is open.** If every worker that has not retired waits, then all of them have
retired: a worker that waits is counted in `workersDone`, and not everyone is. -/
theorem retired_of_waiting {g : Globals} {ws : List Worker} (h : Disciplined g ws)
    (hwait : ∀ w ∈ ws, w.active → w.Waiting) :
    g.numThreads = 0 ∧ ∀ w ∈ ws, w.active = false := by
  have hsame : ws.countP (Worker.doneAt g.level) = ws.countP Worker.active := by
    refine List.countP_congr fun w hw => ?_
    constructor
    · intro hdone
      simp only [Worker.doneAt, Bool.and_eq_true] at hdone
      exact hdone.1
    · intro hact
      have hcl := (hwait w hw hact).ahead (h.levels w hw)
      simp [Worker.doneAt, hact, hcl]
  have hthreads := h.threads
  have hdone := h.done
  have hopen := h.openLevel
  rw [hsame] at hdone
  have hzero : ws.countP Worker.active = 0 := by omega
  refine ⟨by omega, fun w hw => ?_⟩
  simpa using List.countP_eq_zero.mp hzero w hw

theorem Worker.active_iff (w : Worker) :
    w.active ↔ w.phase ≠ .exiting ∧ w.phase ≠ .terminated := by
  cases hph : w.phase <;> simp [active, hph]

/-- A worker of the list that is not blocked can act. -/
theorem exists_worker_step (p : Program) {s : State} {w : Worker} (hw : w ∈ s.workers)
    (h : ¬ w.Blocked) : ∃ i, s.workers[i]? = some w ∧
      ∀ short, (step p (.worker i short) s).isSome := by
  obtain ⟨i, hi⟩ := List.mem_iff_getElem?.mp hw
  refine ⟨i, hi, fun short => ?_⟩
  obtain ⟨e, he⟩ := Option.isSome_iff_exists.mp (workerMain_isSome p short s.globals h)
  obtain ⟨g, w', b⟩ := e
  simp [step, hi, he]

theorem worker_step_eq_none {p : Program} {s : State} (h : ∀ w ∈ s.workers, w.Blocked)
    (i : Nat) (short : Nat → Nat) : step p (.worker i short) s = none := by
  cases hi : s.workers[i]? with
  | none => simp [step, hi]
  | some w =>
    simp [step, hi, workerMain_eq_none p short s.globals (h w (List.mem_of_getElem? hi))]

/-- Whether a worker can act does not depend on how much its calls move. -/
theorem worker_step_isSome {p : Program} {s : State} {i : Nat} {short : Nat → Nat}
    (short' : Nat → Nat) (h : (step p (.worker i short) s).isSome) :
    (step p (.worker i short') s).isSome := by
  obtain ⟨t, ht⟩ := Option.isSome_iff_exists.mp h
  obtain ⟨w, g', w', b, hw, hact, -⟩ := step_worker ht
  have hblocked : ¬ w.Blocked := (workerMain_acts hact).unblocked
  obtain ⟨e, he⟩ :=
    Option.isSome_iff_exists.mp (workerMain_isSome p short' s.globals hblocked)
  obtain ⟨g, v, b⟩ := e
  simp [step, hw, he]

/-! ## Workers come to rest -/

def Phase.rank : Phase → Nat
  | .terminated => 0
  | .exiting => 1
  | .retireWait _ => 2
  | .retireLock => 3
  | .reading | .unborn => 4
  | .countLock => 5
  | .xorWait _ => 6
  | .xorLock => 7

/-- How much a worker has left to do: each block read is at least one byte. -/
def Worker.rank (w : Worker) : Nat := 5 * w.unread.length + w.phase.rank

def totalRank (ws : List Worker) : Nat := fold (· + ·) 0 Worker.rank ws

@[simp] theorem Worker.wake_rank (w : Worker) : w.wake.rank = w.rank := by
  cases hph : w.phase <;> simp [wake, rank, Phase.rank, hph]

theorem Acts.rank_lt {p : Program} {g g' : Globals} {w w' : Worker} {b : Bool}
    (h : Acts p g w g' w' b) : w'.rank < w.rank := by
  cases h with
  | read hph hne =>
    have hpos : 0 < w.unread.length := List.length_pos_iff.mpr hne
    have hdrop : (w.unread.drop BUFFER_SIZE).length ≤ w.unread.length - 1 := by
      rw [List.length_drop]
      exact Nat.sub_le_sub_left (by decide) _
    simp only [Worker.rank, Phase.rank, hph]
    omega
  | eof hph hnil => simp [Worker.rank, Phase.rank, hph, hnil]
  | xor hat => rcases hat with ⟨hph, -⟩ | hph <;> simp [Worker.rank, Phase.rank, hph]
  | retire hat _ => rcases hat with ⟨hph, -⟩ | hph <;> simp [Worker.rank, Phase.rank, hph]
  | retireFlush hat _ _ => rcases hat with ⟨hph, -⟩ | hph <;> simp [Worker.rank, Phase.rank, hph]
  | xorSleep hph _ | retireSleep hph _ | count hph _ | countFlush hph _ _ | exit hph =>
    simp [Worker.rank, Phase.rank, hph]

theorem totalRank_lt {p : Program} {g g' : Globals} {pre post : List Worker} {w w' : Worker}
    {b : Bool} (h : Acts p g w g' w' b) :
    totalRank (wakeIf b (pre ++ w' :: post)) < totalRank (pre ++ w :: post) := by
  have hwake : totalRank (wakeIf b (pre ++ w' :: post)) = totalRank (pre ++ w' :: post) := by
    cases b
    · rfl
    · simp only [wakeIf_true, totalRank, fold_map, Worker.wake_rank]
  have hlt := h.rank_lt
  rw [hwake, totalRank, totalRank, fold_middle, fold_middle]
  omega

/-- The actions of workers, except possibly the last one, `pthread_exit`. -/
def WorkerEvent (exits : Bool) (e : Event) (s : State) : Prop :=
  ∃ i short, e = .worker i short ∧
    (exits = false → ∀ w, s.workers[i]? = some w → w.phase ≠ .exiting)

/-- A step of a worker keeps the main thread and the set of created workers, and without
exits nobody terminates. -/
theorem worker_step_keeps {p : Program} {exits : Bool} {e : Event} {s s' : State}
    (he : WorkerEvent exits e s) (hst : step p e s = some s') :
    s'.main = s.main ∧ unbornFlags s'.workers = unbornFlags s.workers ∧
      totalRank s'.workers < totalRank s.workers ∧
      (exits = false → (∀ w ∈ s.workers, w.phase ≠ .terminated) →
        ∀ w ∈ s'.workers, w.phase ≠ .terminated) := by
  obtain ⟨i, short, rfl, hexit⟩ := he
  obtain ⟨w, g', w', b, hw, hsome, rfl⟩ := step_worker hst
  have hact := workerMain_acts hsome
  obtain ⟨pre, post, -, hsplit, hset⟩ := exists_split hw
  refine ⟨rfl, ?_, ?_, ?_⟩
  · show unbornFlags (wakeIf b (s.workers.set i w')) = unbornFlags s.workers
    rw [hset, hsplit]
    exact hact.unbornFlags
  · show totalRank (wakeIf b (s.workers.set i w')) < totalRank s.workers
    rw [hset, hsplit]
    exact totalRank_lt hact
  · show exits = false → _ → ∀ v ∈ wakeIf b (s.workers.set i w'), v.phase ≠ .terminated
    rw [hset]
    intro hno hterm v hv
    -- only `exit` terminates a worker, and it was excluded
    have hw' : w'.phase ≠ .terminated := by
      cases hact with
      | exit hph => exact absurd hph (hexit hno w hw)
      | _ => simp
    rw [hsplit] at hterm
    have hold : ∀ u ∈ pre ++ w' :: post, u.phase ≠ .terminated := forall_replace hterm hw'
    cases b with
    | false => exact hold v hv
    | true =>
      obtain ⟨u, hu, rfl⟩ := List.mem_map.mp hv
      simpa using hold u hu

/-- **Workers left to themselves come to rest**, and need no short call for it. -/
theorem exists_rest {p : Program} (exits : Bool) (s : State) :
    ∃ t, Reaches (step p) (fun e _ => e.Proper ∧ e.Complete) s t ∧
      Stuck (step p) (WorkerEvent exits) t ∧ t.main = s.main ∧
      unbornFlags t.workers = unbornFlags s.workers ∧
      (exits = false → (∀ w ∈ s.workers, w.phase ≠ .terminated) →
        ∀ w ∈ t.workers, w.phase ≠ .terminated) := by
  have hkeep : ∀ e t u, (t.main = s.main ∧ unbornFlags t.workers = unbornFlags s.workers ∧
      (exits = false → (∀ w ∈ s.workers, w.phase ≠ .terminated) →
        ∀ w ∈ t.workers, w.phase ≠ .terminated)) →
      (WorkerEvent exits e t ∧ e.Complete) → step p e t = some u →
      (u.main = s.main ∧ unbornFlags u.workers = unbornFlags s.workers ∧
        (exits = false → (∀ w ∈ s.workers, w.phase ≠ .terminated) →
          ∀ w ∈ u.workers, w.phase ≠ .terminated)) := by
    rintro e t u ⟨hm, hf, hterm⟩ ⟨he, -⟩ hst
    obtain ⟨hm', hf', -, hterm'⟩ := worker_step_keeps he hst
    exact ⟨hm'.trans hm, hf'.trans hf, fun hno hs => hterm' hno (hterm hno hs)⟩
  obtain ⟨t, hreach, ⟨hm, hf, hterm⟩, hstuck⟩ :=
    exists_stuck (fun t : State => totalRank t.workers) hkeep
      (fun e t u _ he hst => (worker_step_keeps he.1 hst).2.2.1) ⟨rfl, rfl, fun _ h => h⟩
  refine ⟨t, hreach.mono fun e u he => ?_, ?_, hm, hf, hterm⟩
  · obtain ⟨⟨i, short, rfl, -⟩, hcomplete⟩ := he
    exact ⟨trivial, hcomplete⟩
  · rintro e ⟨i, short, rfl, hexit⟩
    by_contra hne
    have hsome := worker_step_isSome (fun _ => BUFFER_SIZE)
      (Option.isSome_iff_ne_none.mpr hne)
    rw [hstuck (.worker i fun _ => BUFFER_SIZE) ⟨⟨i, _, rfl, hexit⟩, Nat.le_refl _⟩] at hsome
    cases hsome

end OsHw.Hw4
