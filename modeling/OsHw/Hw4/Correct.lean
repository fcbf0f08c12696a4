import OsHw.Hw4.Output

/-!
# OsHw — the output of `hw4` is the XOR of its inputs

The two halves of the barrier invariant hold in every reachable state (`reachable_inv`), for
both programs and whatever main thread and workers do in between, and with them the output has a
piece for each closed level (`reachable_written`). When every worker has terminated, its file is
used up at a level that was closed, so the closed levels are all levels and the output is complete.

A worker that was not created yet counts as a worker: it is at level `0` and keeps that level
open. `Created` says that the creation loop reaches the workers in order.
-/

namespace OsHw.Hw4

open Runs Family

/-- Which workers were not created yet. -/
def unbornFlags (ws : List Worker) : List Bool := ws.map fun w => decide (w.phase = .unborn)

/-- While the main thread is in the creation loop, the workers from its index on are unborn,
and only those. -/
def Created (s : State) : Prop :=
  match s.main with
  | .createTest i | .create i =>
    ∀ j u, (unbornFlags s.workers)[j]? = some u → (u = true ↔ i ≤ j)
  | _ => True

/-- What holds in every reachable state of the XOR programs. -/
structure Inv (inputs : List (List UInt8)) (s : State) : Prop where
  disciplined : Disciplined s.globals s.workers
  mixing : Mixing inputs s.globals s.workers
  created : Created s

/-! ## The creation loop -/

/-- Only a created worker acts, and it stays created. -/
theorem Acts.born {p : Program} {g g' : Globals} {w w' : Worker} {b : Bool}
    (h : Acts p g w g' w' b) : w.phase ≠ .unborn ∧ w'.phase ≠ .unborn := by
  refine ⟨fun hph => h.unblocked (.inl hph), ?_⟩
  cases h <;> simp

theorem Acts.unbornFlags {p : Program} {g g' : Globals} {pre post : List Worker}
    {w w' : Worker} {b : Bool} (h : Acts p g w g' w' b) :
    unbornFlags (wakeIf b (pre ++ w' :: post)) = unbornFlags (pre ++ w :: post) := by
  obtain ⟨hw, hw'⟩ := h.born
  cases b <;> simp [Hw4.unbornFlags, hw, hw', Function.comp_def]

theorem init_inv (inputs : List (List UInt8)) : Inv inputs (init inputs) := by
  refine ⟨⟨?_, ?_, ?_, ?_⟩, ⟨?_, ?_, ?_, ?_⟩, ?_⟩
  · have hall : ((init inputs).workers).countP Worker.active = inputs.length := by
      simp only [init, List.countP_map]
      exact List.countP_eq_length.mpr fun _ _ => rfl
    rw [hall]
    rfl
  · have hnone : ((init inputs).workers).countP (Worker.doneAt 0) = 0 := by
      simp only [init, List.countP_map]
      exact List.countP_eq_zero.mpr fun _ _ => by simp [Worker.doneAt, Worker.fresh]
    exact (congrArg Nat.cast hnone).symm
  · simp only [init]
    omega
  · intro w hw
    obtain ⟨content, -, rfl⟩ := List.mem_map.mp hw
    exact ⟨rfl, rfl⟩
  · simp [init, Worker.fresh, Function.comp_def]
  · intro w hw
    obtain ⟨content, -, rfl⟩ := List.mem_map.mp hw
    simp [Worker.Reads, Worker.fresh]
  · intro q _
    simp only [init, fold_map]
    exact (fold_eq_unit UInt8.xor_self fun _ _ => by
      simp [Worker.mixedByte, Worker.mixedAt, Worker.doneAt, Worker.fresh]).symm
  · simp only [init, fold_map]
    exact (fold_eq_unit (Nat.max_self 0) fun _ _ => by
      simp [Worker.doneLength, Worker.doneAt, Worker.fresh]).symm
  · intro j u hu
    simp only [unbornFlags, init, List.map_map] at hu
    obtain ⟨content, -, rfl⟩ := Option.map_eq_some_iff.mp (List.getElem?_map ▸ hu)
    simp [Worker.fresh]

/-- The creation of worker `i`. -/
theorem create_inv {inputs : List (List UInt8)} {s : State} {i : Nat} {w : Worker}
    (h : Inv inputs s) (hm : s.main = .create i) (hw : s.workers[i]? = some w) :
    Inv inputs { s with workers := s.workers.set i { w with phase := .reading }
                        main := .createTest (i + 1) } := by
  have hcreated := h.created
  simp only [Created, hm] at hcreated
  -- workers are created in order, so this one does not exist yet
  have hunborn : w.phase = .unborn := by
    have hflag : (unbornFlags s.workers)[i]? = some (decide (w.phase = .unborn)) := by
      simp [unbornFlags, hw]
    simpa using (hcreated i _ hflag).mpr (Nat.le_refl i)
  have hdis := h.disciplined
  have hmix := h.mixing
  obtain ⟨pre, post, -, hsplit, hset⟩ := exists_split hw
  rw [hsplit] at hdis hmix
  have hlev := hdis.levels w (by simp)
  have hread := hmix.reads w (by simp)
  simp only [Worker.InLevel, Worker.Reads, hunborn] at hlev hread
  refine ⟨?_, ?_, ?_⟩
  · rw [hset]
    -- it counts as active from the start: `numThreads` is set before the loop
    refine hdis.replace rfl rfl rfl (by simp [Worker.active, hunborn]) rfl ?_
    exact .inl (by rw [hlev.1, hlev.2])
  · rw [hset]
    refine hmix.replace rfl rfl rfl rfl ?_ ?_ hread
    · simp [Worker.mixedAt, Worker.doneAt, Worker.active, hunborn]
    · simp [Worker.doneAt, Worker.active, hunborn]
  · intro j u hu
    simp only [unbornFlags, List.map_set, List.getElem?_set] at hu
    split at hu
    · next hij =>
      subst hij
      -- only the flag of worker `i` changes
      split at hu
      · simp only [Option.some.injEq, reduceCtorEq, decide_false] at hu
        subst hu
        simp
      · cases hu
    · next hij =>
      rw [hcreated j u hu]
      omega

theorem mainStep_inv {p : Program} {inputs : List (List UInt8)} {s s' : State}
    (h : Inv inputs s) (hst : mainStep p s = some s') : Inv inputs s' := by
  have hcreated := h.created
  unfold mainStep at hst
  cases hm : s.main with
  | createTest i =>
    simp only [hm] at hst
    simp only [Created, hm] at hcreated
    split at hst
    · cases hst
      exact ⟨h.disciplined, h.mixing, hcreated⟩
    · cases hst
      exact ⟨h.disciplined, h.mixing, trivial⟩
  | create i =>
    simp only [hm, Option.map_eq_some_iff] at hst
    obtain ⟨w, hw, rfl⟩ := hst
    exact create_inv h hm hw
  | joinTest i =>
    simp only [hm] at hst
    split at hst
    · cases hst
      exact ⟨h.disciplined, h.mixing, trivial⟩
    · cases hst
      exact ⟨h.disciplined, h.mixing, trivial⟩
  | join i =>
    simp only [hm] at hst
    split at hst
    · cases hst
      exact ⟨h.disciplined, h.mixing, trivial⟩
    · cases hst
  | joined => simp [hm] at hst

theorem moves_inv {p : Program} {inputs : List (List UInt8)} {s s' : State}
    (h : Inv inputs s) (hst : Moves p s s') : Inv inputs s' := by
  cases hst with
  | main hst => exact mainStep_inv h hst
  | @worker pre post w w' g' b hs hact =>
    have hdis := h.disciplined
    have hmix := h.mixing
    have hcreated := h.created
    rw [hs] at hdis hmix
    refine ⟨acts_disciplined hdis hact, acts_mixing hdis hmix hact, ?_⟩
    simp only [Created, hact.unbornFlags]
    simpa only [Created, hs] using hcreated

/-- **The barrier invariant holds in every reachable state.** -/
theorem reachable_inv {p : Program} {inputs : List (List UInt8)} {s : State}
    (h : Reachable p inputs s) : Inv inputs s :=
  h.invariant (init_inv inputs) fun _ _ _ hI he hst => moves_inv hI (step_moves he hst)

theorem mainStep_globals {p : Program} {s s' : State} (hst : mainStep p s = some s') :
    s'.globals = s.globals := by
  unfold mainStep at hst
  cases hm : s.main with
  | createTest i | joinTest i | join i =>
    simp only [hm] at hst
    split at hst <;> cases hst <;> rfl
  | create i =>
    simp only [hm, Option.map_eq_some_iff] at hst
    obtain ⟨w, -, rfl⟩ := hst
    rfl
  | joined => simp [hm] at hst

theorem moves_written {p : Program} {R : List UInt8 → List UInt8 → Prop}
    (hR : ∀ g out, p.Writes g out → R out (levelBytes g)) {inputs : List (List UInt8)}
    {s s' : State} (h : Inv inputs s) (hwritten : Written R inputs s.globals)
    (hst : Moves p s s') : Written R inputs s'.globals := by
  cases hst with
  | main hst =>
    rw [mainStep_globals hst]
    exact hwritten
  | @worker pre post w w' g' b hs hact =>
    have hdis := h.disciplined
    have hmix := h.mixing
    rw [hs] at hdis hmix
    exact acts_written hR hdis hmix hwritten hact

/-- **The output has a piece for each closed level**, related to its block by what a `write` of
the program does. -/
theorem reachable_written {p : Program} {R : List UInt8 → List UInt8 → Prop}
    (hR : ∀ g out, p.Writes g out → R out (levelBytes g)) {inputs : List (List UInt8)}
    {s : State} (h : Reachable p inputs s) : Written R inputs s.globals := by
  have hboth : Inv inputs s ∧ Written R inputs s.globals := by
    refine h.invariant (I := fun s => Inv inputs s ∧ Written R inputs s.globals)
      ⟨init_inv inputs, [], rfl, rfl, nofun⟩ ?_
    rintro e t u ⟨hI, hwritten⟩ he hst
    exact ⟨moves_inv hI (step_moves he hst), moves_written hR hI hwritten (step_moves he hst)⟩
  exact hboth.2

/-- In `hw4.c` the pieces are whole. -/
theorem hw4_whole {inputs : List (List UInt8)} {s : State} (h : Reachable hw4 inputs s) :
    s.globals.output = (List.range (min (s.globals.level * BUFFER_SIZE)
      (maxLength inputs))).map (xorAt inputs) :=
  (reachable_written (fun _ _ => hw4_writes) h).whole

/-! ## The headline -/

/-- The XOR of byte `p` of every input that is longer than `p`. -/
def xorOfLonger (inputs : List (List UInt8)) (p : Nat) : UInt8 :=
  xorAt (inputs.filter fun content => p < content.length) p

theorem xorOfLonger_eq (inputs : List (List UInt8)) (p : Nat) :
    xorOfLonger inputs p = xorAt inputs p := by
  unfold xorOfLonger xorAt
  induction inputs with
  | nil => rfl
  | cons content inputs ih =>
    by_cases hlt : p < content.length
    · simp [hlt, ih]
    · simp [hlt, ih]

/-- A state in which every worker has terminated has closed the levels of all inputs. -/
theorem maxLength_le_of_terminated {inputs : List (List UInt8)} {s : State}
    (h : Inv inputs s) (hterm : ∀ w ∈ s.workers, w.phase = .terminated) :
    maxLength inputs ≤ s.globals.level * BUFFER_SIZE := by
  have hshort : ∀ w ∈ s.workers, w.content.length ≤ s.globals.level * BUFFER_SIZE := by
    intro w hw
    have hread := h.mixing.reads w hw
    have hlev := h.disciplined.levels w hw
    simp only [Worker.Reads, Worker.InLevel, hterm w hw] at hread hlev
    exact Nat.le_trans hread (Nat.mul_le_mul_right _ hlev)
  rw [← h.mixing.contents, maxLength, fold_map]
  generalize s.workers = ws at hshort
  induction ws with
  | nil => exact Nat.zero_le _
  | cons w ws ih =>
    simp only [fold_cons]
    have h1 := hshort w (by simp)
    have h2 := ih fun v hv => hshort v (by simp [hv])
    omega

/-- **`hw4` computes the XOR of its inputs.** However the main thread and the workers are
interleaved and however short the reads and writes are: once every worker has terminated, the
output is as long as the longest input and its byte `p` is the XOR of byte `p` of the inputs
longer than `p`. -/
theorem hw4_output {inputs : List (List UInt8)} {s : State} (h : Reachable hw4 inputs s)
    (hterm : ∀ w ∈ s.workers, w.phase = .terminated) :
    s.globals.output.length = maxLength inputs ∧
      ∀ p, p < maxLength inputs → s.globals.output[p]? = some (xorOfLonger inputs p) := by
  have hout := hw4_whole h
  rw [Nat.min_eq_right (maxLength_le_of_terminated (reachable_inv h) hterm)] at hout
  refine ⟨by simp [hout], fun p hp => ?_⟩
  simp [hout, xorOfLonger_eq, hp]

/-- Two workers, the second one a byte short: the run in which both are created, then take
turns. -/
theorem hw4_output_pair : ∃ s, Reachable hw4 [[1, 2], [4]] s ∧ s.globals.output = [5, 2] := by
  let worker i : Event := .worker i fun _ => 1
  let events : List Event := List.replicate 5 .main ++
    [worker 0, worker 1, worker 0, worker 1, worker 0, worker 1, worker 0, worker 1,
      worker 0, worker 1, worker 0, worker 1]
  obtain ⟨s, hs⟩ : ∃ s, run (step hw4) events (init [[1, 2], [4]]) = some s :=
    Option.isSome_iff_exists.mp (by decide)
  have hreach : Reachable hw4 [[1, 2], [4]] s :=
    reaches_of_run (by simp [events, worker, Event.Proper]) hs
  have hterm : ∀ w ∈ s.workers, w.phase = .terminated := by
    have hall : ((run (step hw4) events (init [[1, 2], [4]])).map fun s =>
        s.workers.all fun w => decide (w.phase = .terminated)) = some true := by decide
    rw [hs] at hall
    simpa using hall
  obtain ⟨hlen, hbytes⟩ := hw4_output hreach hterm
  refine ⟨s, hreach, List.ext_getElem? fun p => ?_⟩
  by_cases hp : p < 2
  · rw [hbytes p hp]
    have hcases : p = 0 ∨ p = 1 := by omega
    rcases hcases with rfl | rfl <;> rfl
  · have hend : s.globals.output.length ≤ p := by
      rw [hlen]
      exact Nat.not_lt.mp hp
    rw [List.getElem?_eq_none hend]
    exact (List.getElem?_eq_none (Nat.not_lt.mp hp)).symm

end OsHw.Hw4
