import OsHw.Hw4.Progress

/-!
# OsHw — the main threads of `hw4.c` and `main.c`

What the shared loop bound `numThreads` does to the two programs.

* **`hw4_deadlockFree_iff`** — `hw4` never gets stuck exactly when no input but the last one is
  empty. An empty input lets its worker retire at level `0`, before the others exist; the
  creation loop then stops early and the level of the workers that do exist is never closed.
* **`mainC_never_finishes`** — on every input, `main.c` has a run in which `waitForThreads`
  returns while a worker is still running.
-/

namespace OsHw.Hw4

open Runs Family

/-! ## Running the creation loop on its own -/

/-- The state once the first `k` workers were created and none of them has moved. -/
def afterCreate (inputs : List (List UInt8)) (k : Nat) : State :=
  { init inputs with
    workers := (inputs.take k).map (Worker.fresh .reading) ++
      (inputs.drop k).map (Worker.fresh .unborn)
    main := .createTest k }

/-- The main thread alone creates one worker after the other. Induction on their number. -/
theorem reachable_afterCreate (p : Program) (inputs : List (List UInt8)) :
    ∀ k, k ≤ inputs.length → ReachableComplete p inputs (afterCreate inputs k)
  | 0, _ => by
    have h0 : afterCreate inputs 0 = init inputs := by simp [afterCreate, init]
    rw [h0]
    exact .refl
  | k + 1, hk => by
    have hlt : k < inputs.length := by omega
    have ih := reachable_afterCreate p inputs k (by omega)
    have hlen : ((inputs.take k).map (Worker.fresh .reading)).length = k := by simp; omega
    -- worker `k` is the first of those that do not exist yet
    have hget : (afterCreate inputs k).workers[k]? = some (Worker.fresh .unborn inputs[k]) := by
      simp only [afterCreate]
      rw [List.getElem?_append_right (by omega), hlen, Nat.sub_self,
        List.drop_eq_getElem_cons hlt]
      rfl
    have hset : (afterCreate inputs k).workers.set k (Worker.fresh .reading inputs[k])
        = (afterCreate inputs (k + 1)).workers := by
      simp only [afterCreate]
      rw [List.set_append_right _ _ (by omega), hlen, Nat.sub_self,
        List.drop_eq_getElem_cons hlt, List.take_succ_eq_append_getElem hlt]
      simp only [List.map_cons, List.set_cons_zero, List.map_append, List.map_nil,
        List.append_assoc, List.cons_append, List.nil_append]
    have htest : step p .main (afterCreate inputs k)
        = some { afterCreate inputs k with main := .create k } := by
      have hcond : (k : Int) < (afterCreate inputs k).globals.numThreads := by
        show (k : Int) < inputs.length
        omega
      simp only [step, mainStep]
      rw [show (afterCreate inputs k).main = .createTest k from rfl]
      exact if_pos hcond
    have hcreate : step p .main { afterCreate inputs k with main := .create k }
        = some (afterCreate inputs (k + 1)) := by
      simp only [step, mainStep, hget, Option.map_some]
      rw [show ({ Worker.fresh .unborn inputs[k] with phase := .reading } : Worker)
        = Worker.fresh .reading inputs[k] from rfl, hset]
      rfl
    exact (ih.next htest ⟨trivial, trivial⟩).next hcreate ⟨trivial, trivial⟩

/-! ## `hw4` gets stuck exactly on an empty input before the last -/

/-- The main thread's next steps create a worker. -/
def AboutToCreate (s : State) : Prop :=
  match s.main with
  | .createTest i => (i : Int) < s.globals.numThreads
  | .create _ => True
  | _ => False

/-- Some worker can take a step; being created is a worker's first one. -/
def CanProceed (p : Program) (s : State) : Prop :=
  AboutToCreate s ∨ ∃ i short, (step p (.worker i short) s).isSome

/-- In every reachable state with a worker that has not terminated, some worker can take a
step and not all of them wait without a broadcast; and no worker waits for a level that was
closed. -/
def DeadlockFree (p : Program) (inputs : List (List UInt8)) : Prop :=
  ∀ s, Reachable p inputs s →
    ((∃ w ∈ s.workers, w.phase ≠ .terminated) →
      CanProceed p s ∧ ∃ w ∈ s.workers, w.phase ≠ .terminated ∧ ¬ w.Waiting) ∧
    ∀ w ∈ s.workers, w.Waiting → s.globals.level < w.currentLevel

/-- The creation loop is not cut short. -/
def Complete (inputs : List (List UInt8)) (s : State) : Prop :=
  match s.main with
  | .createTest i =>
    i ≤ inputs.length ∧ (i < inputs.length → s.globals.numThreads = inputs.length)
  | .create i => i < inputs.length ∧ s.globals.numThreads = inputs.length
  | _ => ∀ u ∈ unbornFlags s.workers, u = false

theorem Inv.length_workers {inputs : List (List UInt8)} {s : State} (h : Inv inputs s) :
    s.workers.length = inputs.length := by
  rw [← h.mixing.contents, List.length_map]

theorem Inv.numThreads_le {inputs : List (List UInt8)} {s : State} (h : Inv inputs s) :
    s.globals.numThreads ≤ inputs.length := by
  rw [h.disciplined.threads, ← h.length_workers]
  exact_mod_cast List.countP_le_length

/-- Worker `i` itself is still to be created. -/
theorem Inv.exists_unborn {inputs : List (List UInt8)} {s : State} (h : Inv inputs s) {i : Nat}
    (hi : i < inputs.length)
    (hcreated : ∀ j u, (unbornFlags s.workers)[j]? = some u → (u = true ↔ i ≤ j)) :
    ∃ v ∈ s.workers, v.phase = .unborn := by
  have hlt : i < s.workers.length := by rw [h.length_workers]; exact hi
  refine ⟨s.workers[i], List.getElem_mem hlt, ?_⟩
  have hflag : (unbornFlags s.workers)[i]? = some (decide (s.workers[i].phase = .unborn)) := by
    simp [unbornFlags, hlt]
  simpa using (hcreated i _ hflag).mpr (Nat.le_refl i)

/-- Behind the last index nobody is. -/
theorem Inv.all_born {inputs : List (List UInt8)} {s : State} (h : Inv inputs s) {i : Nat}
    (hi : inputs.length ≤ i)
    (hcreated : ∀ j u, (unbornFlags s.workers)[j]? = some u → (u = true ↔ i ≤ j)) :
    ∀ u ∈ unbornFlags s.workers, u = false := by
  intro u hu
  obtain ⟨j, hj⟩ := List.mem_iff_getElem?.mp hu
  have hjlt : j < inputs.length := by
    rw [← h.length_workers]
    simpa [unbornFlags] using (List.getElem?_eq_some_iff.mp hj).1
  cases u with
  | false => rfl
  | true =>
    have := (hcreated j true hj).mp rfl
    omega

/-- While a worker is unborn nobody retires, unless an input before the last is empty: the
unborn worker keeps the level at `0`, and the worker of a non-empty file is behind it. -/
theorem not_atRetire_of_unborn {inputs : List (List UInt8)} {s : State} (h : Inv inputs s)
    (hne : ∀ content ∈ inputs.dropLast, content ≠ []) {i : Nat} (hi : i < inputs.length)
    (hcreated : ∀ j u, (unbornFlags s.workers)[j]? = some u → (u = true ↔ i ≤ j))
    {pre post : List Worker} {w : Worker} (hs : s.workers = pre ++ w :: post)
    (hborn : w.phase ≠ .unborn) : ¬ w.AtRetire s.globals.level := by
  intro hat
  have hmem : w ∈ s.workers := by simp [hs]
  have hread := h.mixing.reads w hmem
  -- worker `i` is unborn, so the level is `0`
  obtain ⟨v, hv, hvun⟩ := h.exists_unborn hi hcreated
  have hvlev := h.disciplined.levels v hv
  simp only [Worker.InLevel, hvun] at hvlev
  -- so the file of `w` is empty, and `w` is the last worker
  have hcl := hat.inLevel (h.disciplined.levels w hmem)
  have hempty : w.content = [] := by
    have hzero : w.content.length ≤ w.currentLevel * BUFFER_SIZE := by
      rcases hat with ⟨hph, -⟩ | hph <;> simpa [Worker.Reads, hph] using hread
    rw [hcl, hvlev.2, Nat.zero_mul] at hzero
    exact List.length_eq_zero_iff.mp (by omega)
  have hk : s.workers[pre.length]? = some w := by simp [hs]
  have hki : pre.length < i := by
    have := (hcreated pre.length (decide (w.phase = .unborn)) (by simp [unbornFlags, hk]))
    simp only [decide_eq_true_eq, hborn, false_iff] at this
    omega
  have hin : inputs[pre.length]? = some w.content := by
    rw [← h.mixing.contents, List.getElem?_map, hk]
    rfl
  refine hne w.content ?_ hempty
  rw [List.dropLast_eq_take]
  exact List.mem_of_getElem? (i := pre.length)
    (by rw [List.getElem?_take_of_lt (by omega), hin])

theorem complete_moves {p : Program} {inputs : List (List UInt8)} {s s' : State}
    (hne : ∀ content ∈ inputs.dropLast, content ≠ []) (h : Inv inputs s)
    (hc : Complete inputs s) (hst : Moves p s s') : Complete inputs s' := by
  have hcreated := h.created
  cases hst with
  | main hst =>
    unfold mainStep at hst
    cases hm : s.main with
    | createTest i =>
      simp only [hm] at hst
      simp only [Complete, hm] at hc
      simp only [Created, hm] at hcreated
      split at hst
      · next hlt =>
        cases hst
        have hi : i < inputs.length := by have := h.numThreads_le; omega
        exact ⟨hi, hc.2 hi⟩
      · next hge =>
        cases hst
        have hi : inputs.length ≤ i := by
          by_contra hlt
          have := hc.2 (by omega)
          omega
        exact h.all_born hi hcreated
    | create i =>
      simp only [hm, Option.map_eq_some_iff] at hst
      obtain ⟨w, hw, rfl⟩ := hst
      simp only [Complete, hm] at hc
      exact ⟨by omega, fun _ => hc.2⟩
    | joinTest i =>
      simp only [hm] at hst
      simp only [Complete, hm] at hc
      split at hst
      · cases hst
        exact hc
      · cases hst
        exact hc
    | join i =>
      simp only [hm] at hst
      simp only [Complete, hm] at hc
      split at hst
      · cases hst
        exact hc
      · cases hst
    | joined => simp [hm] at hst
  | @worker pre post w w' g' b hs hact =>
    -- nobody retires while a worker is missing, so `numThreads` is not changed
    have hkeep : ∀ i, i < inputs.length →
        (∀ j u, (unbornFlags s.workers)[j]? = some u → (u = true ↔ i ≤ j)) →
        g'.numThreads = s.globals.numThreads := by
      intro i hi hcr
      have hno := not_atRetire_of_unborn h hne hi hcr hs hact.born.1
      cases hact with
      | retire hat _ => exact absurd hat hno
      | retireFlush hat _ => exact absurd hat hno
      | _ => rfl
    cases hm : s.main with
    | createTest i =>
      simp only [Complete, hm] at hc ⊢
      simp only [Created, hm] at hcreated
      exact ⟨hc.1, fun hi => (hkeep i hi hcreated).trans (hc.2 hi)⟩
    | create i =>
      simp only [Complete, hm] at hc ⊢
      simp only [Created, hm] at hcreated
      exact ⟨hc.1, (hkeep i hc.1 hcreated).trans hc.2⟩
    | joinTest i | join i | joined =>
      simp only [Complete, hm] at hc ⊢
      rw [hact.unbornFlags, ← hs]
      exact hc

/-- When all workers exist, one that has not terminated means that one can act. -/
theorem exists_unblocked {inputs : List (List UInt8)} {s : State} (h : Inv inputs s)
    (hall : ∀ u ∈ unbornFlags s.workers, u = false)
    (hlive : ∃ w ∈ s.workers, w.phase ≠ .terminated) : ∃ w ∈ s.workers, ¬ w.Blocked := by
  by_contra hnone
  simp only [not_exists, not_and, not_not] at hnone
  have hborn : ∀ w ∈ s.workers, w.phase ≠ .unborn := by
    intro w hw
    simpa using hall (decide (w.phase = .unborn)) (List.mem_map_of_mem hw)
  have hwait : ∀ w ∈ s.workers, w.active → w.Waiting := by
    intro w hw hact
    rcases hnone w hw with hph | hph | hph | hph
    · exact absurd hph (hborn w hw)
    · exact .inl hph
    · exact .inr hph
    · exact absurd hph ((Worker.active_iff w).mp hact).2
  obtain ⟨w, hw, hterm⟩ := hlive
  have hoff := (retired_of_waiting h.disciplined hwait).2 w hw
  rcases hnone w hw with hph | hph | hph | hph
  · exact hborn w hw hph
  · simp [Worker.active, hph] at hoff
  · simp [Worker.active, hph] at hoff
  · exact hterm hph

/-- A state in which the main thread has left the creation loop although worker `n - 1` was
not created. -/
theorem reachable_cut_short (p : Program) {inputs : List (List UInt8)} {j : Nat}
    (hj : j + 1 < inputs.length) (hempty : inputs[j]? = some []) :
    ∃ s, Reachable p inputs s ∧ s.main = .joinTest 0 ∧ true ∈ unbornFlags s.workers := by
  set s₀ := afterCreate inputs (inputs.length - 1) with hs₀
  have hreach₀ : Reachable p inputs s₀ := (reachable_afterCreate p inputs _ (by omega)).reachable
  have hget : s₀.workers[j]? = some (Worker.fresh .reading []) := by
    simp only [hs₀, afterCreate]
    rw [List.getElem?_append_left (by simp; omega), List.getElem?_map,
      List.getElem?_take_of_lt (by omega), hempty]
    rfl
  have hlt : j < s₀.workers.length := (List.getElem?_eq_some_iff.mp hget).1
  have hlast : s₀.workers[inputs.length - 1]?.map Worker.phase = some .unborn := by
    simp only [hs₀, afterCreate]
    rw [List.getElem?_append_right (by simp), List.length_map, List.length_take,
      show inputs.length - 1 - min (inputs.length - 1) inputs.length = 0 from by omega,
      List.drop_eq_getElem_cons (by omega)]
    rfl
  -- worker `j` reads the end of its file and retires at level `0`
  let short : Nat → Nat := fun _ => 1
  let w₁ : Worker := { Worker.fresh .reading [] with phase := .retireLock }
  let s₁ : State := { s₀ with workers := s₀.workers.set j w₁ }
  have hstep₁ : step p (.worker j short) s₀ = some s₁ := by
    simp only [step, hget, bind, Option.bind_some, workerMain, readNextBlock_eq, Worker.fresh]
    rfl
  have hget₁ : s₁.workers[j]? = some w₁ := List.getElem?_set_self hlt
  let s₂ : State := { s₁ with globals := retired s₁.globals
                              workers := s₁.workers.set j { w₁ with phase := .exiting } }
  have hstep₂ : step p (.worker j short) s₁ = some s₂ := by
    have hone : s₁.globals.workersDone ≠ s₁.globals.numThreads - 1 := by
      show (0 : Int) ≠ (inputs.length : Int) - 1
      omega
    have hcl : ¬ w₁.currentLevel ≠ s₁.globals.level := by
      show ¬ (0 : Nat) ≠ 0
      omega
    simp only [step, hget₁, bind, Option.bind_some, workerMain]
    rw [show w₁.phase = .retireLock from rfl]
    simp only [if_neg hcl, retire, if_pos hone]
    rfl
  -- the main thread finds `i < numThreads` false one worker early
  let s₃ : State := { s₂ with main := .joinTest 0 }
  have hstep₃ : step p .main s₂ = some s₃ := by
    have htest : ¬ ((inputs.length - 1 : Nat) : Int) < s₂.globals.numThreads := by
      show ¬ ((inputs.length - 1 : Nat) : Int) < (inputs.length : Int) - 1
      omega
    simp only [step, mainStep]
    rw [show s₂.main = .createTest (inputs.length - 1) from rfl]
    simp only [if_neg htest]
    rfl
  have hreach₃ := ((hreach₀.next hstep₁ trivial).next hstep₂ trivial).next hstep₃ trivial
  refine ⟨s₃, hreach₃, rfl, ?_⟩
  have hlast₃ : s₃.workers[inputs.length - 1]?.map Worker.phase = some .unborn := by
    show ((s₀.workers.set j w₁).set j _)[inputs.length - 1]?.map Worker.phase = _
    rw [List.getElem?_set_ne (by omega), List.getElem?_set_ne (by omega)]
    exact hlast
  obtain ⟨w, hw, hph⟩ := Option.map_eq_some_iff.mp hlast₃
  exact List.mem_map.mpr ⟨w, List.mem_of_getElem? hw, by simp [hph]⟩

/-- If no input before the last is empty, every reachable state has either a worker about to
be created or all workers. -/
theorem created_or_all {p : Program} {inputs : List (List UInt8)} {s : State}
    (hne : ∀ content ∈ inputs.dropLast, content ≠ []) (h : Reachable p inputs s) :
    (AboutToCreate s ∧ ∃ w ∈ s.workers, w.phase = .unborn) ∨
      ∀ u ∈ unbornFlags s.workers, u = false := by
  have hinv := reachable_inv h
  have hinit : Complete inputs (init inputs) := ⟨Nat.zero_le _, fun _ => rfl⟩
  have hboth : Complete inputs s ∧ Inv inputs s := by
    refine Reaches.invariant (I := fun s => Complete inputs s ∧ Inv inputs s) h
      ⟨hinit, init_inv inputs⟩ ?_
    rintro e t u ⟨hc, hI⟩ he hst
    exact ⟨complete_moves hne hI hc (step_moves he hst), moves_inv hI (step_moves he hst)⟩
  have hc := hboth.1
  have hcreated := hinv.created
  cases hm : s.main with
  | createTest i =>
    simp only [Complete, Created, hm] at hc hcreated
    by_cases hi : i < inputs.length
    · refine .inl ⟨?_, hinv.exists_unborn hi hcreated⟩
      simp only [AboutToCreate, hm]
      have := hc.2 hi
      omega
    · exact .inr (hinv.all_born (by omega) hcreated)
  | create i =>
    simp only [Complete, Created, hm] at hc hcreated
    exact .inl ⟨by simp [AboutToCreate, hm], hinv.exists_unborn hc.1 hcreated⟩
  | joinTest i | join i | joined =>
    simp only [Complete, hm] at hc
    exact .inr hc

/-- If no input before the last is empty, the program does not get stuck. -/
theorem deadlockFree_of_nonempty {p : Program} {inputs : List (List UInt8)}
    (hne : ∀ content ∈ inputs.dropLast, content ≠ []) : DeadlockFree p inputs := by
  intro s hreach
  have hinv := reachable_inv hreach
  refine ⟨fun hlive => ?_, fun w hw hwait => ?_⟩
  · rcases created_or_all hne hreach with ⟨habout, w, hw, hph⟩ | hall
    · exact ⟨.inl habout, w, hw, by simp [hph], by simp [Worker.Waiting, hph]⟩
    · obtain ⟨w, hw, hblocked⟩ := exists_unblocked hinv hall hlive
      obtain ⟨i, -, hsome⟩ := exists_worker_step p hw hblocked
      simp only [Worker.Blocked, not_or] at hblocked
      refine ⟨.inr ⟨i, fun _ => 1, hsome _⟩, w, hw, hblocked.2.2.2, ?_⟩
      rintro (hph | hph)
      · exact hblocked.2.1 hph
      · exact hblocked.2.2.1 hph
  · have := hwait.ahead (hinv.disciplined.levels w hw)
    omega

/-- An empty input before the last one gets the program stuck: the creation loop is cut short,
the workers that exist come to rest, and the last one never starts. -/
theorem not_deadlockFree_of_empty {p : Program} {inputs : List (List UInt8)} {j : Nat}
    (hj : j + 1 < inputs.length) (hempty : inputs[j]? = some []) :
    ¬ DeadlockFree p inputs := by
  intro hfree
  obtain ⟨s, hreach, hm, hun⟩ := reachable_cut_short p hj hempty
  obtain ⟨t, hrest, hstuck, htm, hflags, -⟩ := exists_rest true s
  have ht : Reachable p inputs t := hreach.trans (hrest.mono fun _ _ he => he.1)
  rw [← hflags] at hun
  obtain ⟨w, hw, hph⟩ := List.mem_map.mp hun
  have hph : w.phase = .unborn := by simpa using hph
  obtain ⟨hproceed, -⟩ := (hfree t ht).1 ⟨w, hw, by simp [hph]⟩
  rcases hproceed with habout | ⟨i, short, hsome⟩
  · simp [AboutToCreate, htm, hm] at habout
  · rw [hstuck (.worker i short) ⟨i, short, rfl, nofun⟩] at hsome
    cases hsome

/-- **When `hw4` can get stuck.** Exactly when an input before the last one is empty. -/
theorem hw4_deadlockFree_iff (inputs : List (List UInt8)) :
    DeadlockFree hw4 inputs ↔ ∀ content ∈ inputs.dropLast, content ≠ [] := by
  refine ⟨fun hfree content hmem hnil => ?_, deadlockFree_of_nonempty⟩
  rw [List.dropLast_eq_take] at hmem
  obtain ⟨j, hj⟩ := List.mem_iff_getElem?.mp hmem
  have hlt : j < inputs.length - 1 := by
    have := (List.getElem?_eq_some_iff.mp hj).1
    simp at this
    omega
  rw [List.getElem?_take_of_lt hlt, hnil] at hj
  exact not_deadlockFree_of_empty (by omega) hj hfree

/-- Three inputs, the first one empty: worker `0` retires before worker `2` is created, so
worker `2` never is, and worker `1` waits for a third contribution that never comes. -/
theorem hw4_deadlock_three : ¬ DeadlockFree hw4 [[], [97], [98]] := by
  intro hfree
  let worker i : Event := .worker i fun _ => 1
  let events : List Event := List.replicate 4 .main ++ List.replicate 3 (worker 0) ++
    List.replicate 4 .main ++ List.replicate 5 (worker 1)
  obtain ⟨s, hs⟩ : ∃ s, run (step hw4) events (init [[], [97], [98]]) = some s :=
    Option.isSome_iff_exists.mp (by decide)
  have hreach : Reachable hw4 [[], [97], [98]] s :=
    reaches_of_run (by simp [events, worker, Event.Proper]) hs
  have hview : s.workers.map Worker.phase = [.terminated, .retireWait false, .unborn] ∧
      s.main = .join 1 := by
    have hrun : (run (step hw4) events (init [[], [97], [98]])).map
        (fun s => (s.workers.map Worker.phase, s.main))
          = some ([.terminated, .retireWait false, .unborn], .join 1) := by decide
    rw [hs] at hrun
    simpa using hrun
  have hblocked : ∀ w ∈ s.workers, w.Blocked := by
    intro w hw
    have hph : w.phase ∈ s.workers.map Worker.phase := List.mem_map_of_mem hw
    rw [hview.1] at hph
    simp only [List.mem_cons, List.not_mem_nil, or_false] at hph
    unfold Worker.Blocked
    rcases hph with hph | hph | hph <;> simp [hph]
  have hlive : ∃ w ∈ s.workers, w.phase ≠ .terminated := by
    have hph : Phase.unborn ∈ s.workers.map Worker.phase := by simp [hview.1]
    obtain ⟨w, hw, hun⟩ := List.mem_map.mp hph
    exact ⟨w, hw, by simp [hun]⟩
  obtain ⟨hproceed, -⟩ := (hfree s hreach).1 hlive
  rcases hproceed with habout | ⟨i, short, hsome⟩
  · simp [AboutToCreate, hview.2] at habout
  · simp [worker_step_eq_none hblocked] at hsome

/-! ## `main.c` does not wait for its workers -/

/-- In a run without short writes, when `waitForThreads` has returned, every worker that was
created has terminated, and the output reaches to the end of every input. -/
def Finishes (p : Program) (inputs : List (List UInt8)) : Prop :=
  ∀ s, ReachableComplete p inputs s → s.main = .joined →
    (∀ w ∈ s.workers, w.phase ≠ .unborn → w.phase = .terminated) ∧
    ∀ content ∈ inputs, content.length ≤ s.globals.output.length

/-- The main thread can create all workers and enter `waitForThreads` before any of them moves. -/
theorem exists_all_created (p : Program) (inputs : List (List UInt8)) :
    ∃ s, ReachableComplete p inputs s ∧ s.main = .joinTest 0 ∧
      ∀ w ∈ s.workers, w.phase = .reading := by
  have hcreate := reachable_afterCreate p inputs inputs.length (Nat.le_refl _)
  let s₀ : State := { afterCreate inputs inputs.length with main := .joinTest 0 }
  have hstep : step p .main (afterCreate inputs inputs.length) = some s₀ := by
    have htest : ¬ (inputs.length : Int) < (afterCreate inputs inputs.length).globals.numThreads :=
      Int.lt_irrefl _
    simp only [step, mainStep]
    rw [show (afterCreate inputs inputs.length).main = .createTest inputs.length from rfl]
    exact if_neg htest
  refine ⟨s₀, hcreate.next hstep ⟨trivial, trivial⟩, rfl, fun w hw => ?_⟩
  simp only [s₀, afterCreate, List.take_length, List.drop_length, List.map_nil,
    List.append_nil] at hw
  obtain ⟨content, -, rfl⟩ := List.mem_map.mp hw
  rfl

/-- All workers can be between `numThreads--` and `pthread_exit` when the main thread enters
`waitForThreads`: let it create them all, then let them run without exiting. -/
theorem exists_all_exiting (p : Program) (inputs : List (List UInt8)) :
    ∃ s, ReachableComplete p inputs s ∧ s.main = .joinTest 0 ∧ s.globals.numThreads = 0 ∧
      ∀ w ∈ s.workers, w.phase = .exiting := by
  obtain ⟨s₀, hcreate, hm₀, hphase⟩ := exists_all_created p inputs
  obtain ⟨t, hrest, hstuck, hm, hflags, hterm⟩ := exists_rest false s₀
  have ht : ReachableComplete p inputs t := hcreate.trans hrest
  have hterm := hterm rfl fun w hw => by simp [hphase w hw]
  have hborn : ∀ w ∈ t.workers, w.phase ≠ .unborn := by
    intro w hw hph
    have hflag : true ∈ unbornFlags t.workers := List.mem_map.mpr ⟨w, hw, by simp [hph]⟩
    rw [hflags] at hflag
    obtain ⟨v, hv, hvph⟩ := List.mem_map.mp hflag
    simp [hphase v hv] at hvph
  -- whoever has not retired waits, so everyone has retired
  have hwait : ∀ w ∈ t.workers, w.active → w.Waiting := by
    intro w hw hact
    have hblocked : w.Blocked := by
      by_contra hblocked
      obtain ⟨i, hi, hsome⟩ := exists_worker_step p hw hblocked
      have hnone := hstuck (.worker i fun _ => 1) ⟨i, _, rfl, fun _ v hv => by
        rw [hi] at hv
        cases hv
        exact ((Worker.active_iff w).mp hact).1⟩
      simpa [hnone] using hsome fun _ => 1
    rcases hblocked with hph | hph | hph | hph
    · exact absurd hph (hborn w hw)
    · exact .inl hph
    · exact .inr hph
    · exact absurd hph (hterm w hw)
  obtain ⟨hzero, hoff⟩ := retired_of_waiting (reachable_inv ht.reachable).disciplined hwait
  refine ⟨t, ht, hm.trans hm₀, hzero, fun w hw => ?_⟩
  by_contra hne
  have hact : w.active := (Worker.active_iff w).mpr ⟨hne, hterm w hw⟩
  simp [hoff w hw] at hact

/-- **`main.c` finishes on no input.** Whatever the files are, there is a run in which
`waitForThreads` returns before the created workers have terminated. -/
theorem mainC_never_finishes {inputs : List (List UInt8)} (hne : inputs ≠ []) :
    ¬ Finishes mainC inputs := by
  intro hfin
  obtain ⟨s, hreach, hm, hzero, hexiting⟩ := exists_all_exiting mainC inputs
  let t : State := { s with main := .joined }
  have hstep : step mainC .main s = some t := by
    have htest : ¬ ((0 : Nat) : Int) < mainC.joinBound s.workers.length s.globals.numThreads := by
      simp [mainC, hzero]
    simp only [step, mainStep, hm]
    exact if_neg htest
  have hlen : 0 < s.workers.length := by
    rw [(reachable_inv hreach.reachable).length_workers]
    exact List.length_pos_iff.mpr hne
  have hmem : s.workers[0] ∈ s.workers := List.getElem_mem hlen
  have hph := hexiting _ hmem
  have := (hfin t (hreach.next hstep ⟨trivial, trivial⟩) rfl).1 s.workers[0] hmem (by simp [hph])
  simp [hph] at this

/-- The statement above at two files. -/
theorem mainC_never_finishes_two_files : ¬ Finishes mainC [[1, 2], [4]] :=
  mainC_never_finishes (by simp)

/-- Two inputs, the first one empty: its worker retires, the main thread joins it and finds
`1 < numThreads` false, and the byte of the other input was not even read. -/
theorem mainC_two_files : ¬ Finishes mainC [[], [97]] := by
  intro hfin
  let worker i : Event := .worker i fun _ => BUFFER_SIZE
  let events : List Event := List.replicate 5 .main ++ List.replicate 3 (worker 0) ++
    List.replicate 3 .main
  obtain ⟨s, hs⟩ : ∃ s, run (step mainC) events (init [[], [97]]) = some s :=
    Option.isSome_iff_exists.mp (by decide)
  have hreach : ReachableComplete mainC [[], [97]] s :=
    reaches_of_run (by simp [events, worker, Event.Proper, Event.Complete]) hs
  have hview : s.globals.output = [] ∧ s.main = .joined := by
    have hrun : (run (step mainC) events (init [[], [97]])).map
        (fun s => (s.globals.output, s.main)) = some ([], .joined) := by decide
    rw [hs] at hrun
    simpa using hrun
  have := (hfin s hreach hview.2).2 [97] (by simp)
  simp [hview.1] at this

end OsHw.Hw4
