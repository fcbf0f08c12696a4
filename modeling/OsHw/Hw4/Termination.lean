import OsHw.Hw4.Stalls
import OsHw.Hw4.Size

/-!
# OsHw — the runs of the XOR programs end

Every event uses something up: a worker moves on in its file or in its phases, the main thread in
its two loops. So no schedule goes on forever, and what is left to ask is how runs end.

* **`remaining`** — the measure that every event decreases.
* **`runs_end`** — a bound for the length of every run of both programs, in the sizes of the inputs.
* **`Finished`** — all workers have terminated and were joined, and the output is the XOR of the
  inputs.
* **`hw4_finishes_iff`** — every run of `hw4` that cannot go on has finished, exactly if no input
  but the last one is empty.
-/

namespace OsHw.Hw4

open Runs Family

variable {p : Program} {inputs : List (List UInt8)} {s s' : State}

/-! ## The measure -/

/-- How far the main thread is from its end, with `n` workers. -/
def MainPhase.rank (n : Nat) : MainPhase → Nat
  | .createTest i => 2 * (n + 1 - i) + 2 * n + 6
  | .create i => 2 * (n + 1 - i) + 2 * n + 5
  | .joinTest i => 2 * (n + 1 - i) + 2
  | .join i => 2 * (n + 1 - i) + 1
  | .joined => 0

def remaining (s : State) : Nat := totalRank s.workers + s.main.rank s.workers.length

/-- A step of the main thread leaves the workers as they are, up to the one it creates, and gets on
in its loops: an index at which it creates or joins is one of a worker. -/
theorem mainStep_remaining (h : Inv inputs s) (hst : mainStep p s = some s') :
    remaining s' < remaining s := by
  have hcreated := h.created
  unfold mainStep at hst
  unfold remaining
  cases hm : s.main with
  | createTest i =>
    simp only [hm] at hst
    split at hst
    · cases hst
      simp only [MainPhase.rank]
      omega
    · cases hst
      simp only [MainPhase.rank]
      omega
  | create i =>
    simp only [hm, Option.map_eq_some_iff] at hst
    obtain ⟨w, hw, rfl⟩ := hst
    simp only [Created, hm] at hcreated
    have hlt : i < s.workers.length := (List.getElem?_eq_some_iff.mp hw).1
    have hunborn : w.phase = .unborn := by
      have hflag : (unbornFlags s.workers)[i]? = some (decide (w.phase = .unborn)) := by
        simp [unbornFlags, hw]
      simpa using (hcreated i _ hflag).mpr (Nat.le_refl i)
    -- being created costs nothing, and the index goes up
    have hrank : totalRank (s.workers.set i { w with phase := .reading }) =
        totalRank s.workers := by
      obtain ⟨pre, post, -, hsplit, hset⟩ := exists_split hw
      rw [hset, hsplit, totalRank, totalRank, fold_middle, fold_middle]
      simp only [Worker.rank, Phase.rank, hunborn]
    simp only [hrank, List.length_set, MainPhase.rank]
    omega
  | joinTest i =>
    simp only [hm] at hst
    split at hst
    · cases hst
      simp only [MainPhase.rank]
      omega
    · cases hst
      simp only [MainPhase.rank]
      omega
  | join i =>
    simp only [hm] at hst
    split at hst
    · next hgone =>
      cases hst
      obtain ⟨w, hw, -⟩ := Option.map_eq_some_iff.mp hgone
      have hlt : i < s.workers.length := (List.getElem?_eq_some_iff.mp hw).1
      simp only [MainPhase.rank]
      omega
    · cases hst
  | joined => simp [hm] at hst

/-- **Every proper step decreases the measure.** -/
theorem moves_remaining (h : Inv inputs s) (hst : Moves p s s') : remaining s' < remaining s := by
  cases hst with
  | main hst => exact mainStep_remaining h hst
  | @worker pre post w w' g' b hs hact =>
    have hlength : (wakeIf b (pre ++ w' :: post)).length = s.workers.length := by
      cases b <;> simp [hs]
    have hlt : totalRank (wakeIf b (pre ++ w' :: post)) < totalRank (pre ++ w :: post) :=
      totalRank_lt hact
    rw [← hs] at hlt
    simp only [remaining, hlength]
    omega

/-- What the measure is at first: five for each byte, and eight for each worker. -/
theorem remaining_init (inputs : List (List UInt8)) :
    remaining (init inputs) = 5 * (inputs.map List.length).sum + 8 * inputs.length + 8 := by
  have hrank : totalRank (inputs.map (Worker.fresh .unborn)) =
      5 * (inputs.map List.length).sum + 4 * inputs.length := by
    induction inputs with
    | nil => rfl
    | cons content inputs ih =>
      simp only [totalRank, List.map_cons, fold_cons] at ih ⊢
      rw [ih]
      simp only [Worker.rank, Worker.fresh, Phase.rank, List.sum_cons, List.length_cons]
      omega
  simp only [remaining, init, hrank, MainPhase.rank, List.length_map]
  omega

/-- **Every run ends.** In both programs, under every schedule in which a wait ends only by a
broadcast, and however short the reads and writes are, a run has at most five events for each byte
of the inputs, eight for each input, and eight more. -/
theorem runs_end {es : List Event} (hes : ∀ e ∈ es, e.Proper)
    (hrun : run (step p) es (init inputs) = some s) :
    es.length ≤ 5 * (inputs.map List.length).sum + 8 * inputs.length + 8 := by
  rw [← remaining_init]
  exact length_le_of_allowed (P := fun e _ => e.Proper) (I := Inv inputs) remaining
    (fun _ _ _ h he hst => moves_inv h (step_moves he hst))
    (fun _ _ _ h he hst => moves_remaining h (step_moves he hst))
    (fun e he _ => hes e he) (init_inv inputs) hrun

/-- Two inputs of three bytes together, up to the last join. -/
theorem runs_end_two : ∃ es s, run (step hw4) es (init [[1, 2], [4]]) = some s ∧
    s.main = .joined ∧ es.length ≤ 39 := by
  obtain ⟨s, hs, hm⟩ := run_oneByOne
  exact ⟨oneByOne, s, hs, hm, runs_end oneByOne_proper hs⟩

/-- The measure is one: from every reachable state some run goes on until nobody can. -/
theorem exists_stuck_from (h : Reachable p inputs s) {I : State → Prop} (hI : I s)
    (hkeep : ∀ t u, Inv inputs t → I t → Moves p t u → I u) :
    ∃ t, Reachable p inputs t ∧ I t ∧ Stuck (step p) (fun e _ => e.Proper) t := by
  obtain ⟨t, hreach, ⟨-, ht⟩, hstuck⟩ := exists_stuck (P := fun (e : Event) _ => e.Proper)
    (I := fun t => Inv inputs t ∧ I t) remaining
    (fun e t u hI he hst => ⟨moves_inv hI.1 (step_moves he hst),
      hkeep t u hI.1 hI.2 (step_moves he hst)⟩)
    (fun e t u hI he hst => moves_remaining hI.1 (step_moves he hst)) ⟨reachable_inv h, hI⟩
  exact ⟨t, h.trans hreach, ht, hstuck⟩

/-! ## How runs end -/

/-- `main` is behind `waitForThreads`, all threads are gone, and the file holds the XOR. -/
structure Finished (inputs : List (List UInt8)) (s : State) : Prop where
  main : s.main = .joined
  terminated : ∀ w ∈ s.workers, w.phase = .terminated
  output : s.globals.output = (List.range (maxLength inputs)).map (xorOfLonger inputs)

/-- In `hw4.c` only workers that there are get joined. -/
def JoinsWorker (s : State) : Prop :=
  match s.main with
  | .join i => i < s.workers.length
  | _ => True

theorem moves_joinsWorker (h : JoinsWorker s) (hst : Moves hw4 s s') : JoinsWorker s' := by
  cases hst with
  | main hst =>
    unfold mainStep at hst
    cases hm : s.main with
    | createTest i =>
      simp only [hm] at hst
      split at hst <;> cases hst <;> trivial
    | create i =>
      simp only [hm, Option.map_eq_some_iff] at hst
      obtain ⟨w, -, rfl⟩ := hst
      trivial
    | joinTest i =>
      simp only [hm] at hst
      split at hst
      · next hlt =>
        cases hst
        exact Int.ofNat_lt.mp hlt
      · cases hst
        trivial
    | join i =>
      simp only [hm] at hst
      split at hst
      · cases hst
        trivial
      · cases hst
    | joined => simp [hm] at hst
  | @worker pre post w w' g' b hs hact =>
    have hlength : (wakeIf b (pre ++ w' :: post)).length = s.workers.length := by
      cases b <;> simp [hs]
    simpa only [JoinsWorker, hlength] using h

/-- The main thread has left the creation loop with a worker missing. -/
def CutShort (s : State) : Prop :=
  true ∈ unbornFlags s.workers ∧
    match s.main with
    | .createTest _ | .create _ => False
    | _ => True

/-- Nobody creates the worker then. -/
theorem moves_cutShort (h : CutShort s) (hst : Moves p s s') : CutShort s' := by
  obtain ⟨hunborn, hpast⟩ := h
  cases hst with
  | main hst =>
    unfold mainStep at hst
    cases hm : s.main with
    | createTest i | create i => simp [hm] at hpast
    | joinTest i =>
      simp only [hm] at hst
      split at hst <;> cases hst <;> exact ⟨hunborn, trivial⟩
    | join i =>
      simp only [hm] at hst
      split at hst
      · cases hst
        exact ⟨hunborn, trivial⟩
      · cases hst
    | joined => simp [hm] at hst
  | @worker pre post w w' g' b hs hact =>
    refine ⟨?_, hpast⟩
    rw [hs] at hunborn
    rw [hact.unbornFlags]
    exact hunborn

theorem Finished.not_cutShort (h : Finished inputs s) : ¬ CutShort s := by
  rintro ⟨hunborn, -⟩
  obtain ⟨w, hw, hflag⟩ := List.mem_map.mp hunborn
  rw [h.terminated w hw] at hflag
  cases hflag

theorem complete_of_reachable (hne : ∀ content ∈ inputs.dropLast, content ≠ [])
    (h : Reachable p inputs s) : Complete inputs s := by
  have hboth : Complete inputs s ∧ Inv inputs s := by
    refine Reaches.invariant (I := fun s => Complete inputs s ∧ Inv inputs s) h
      ⟨⟨Nat.zero_le _, fun _ => rfl⟩, init_inv inputs⟩ ?_
    rintro e t u ⟨hc, hI⟩ he hst
    exact ⟨complete_moves hne hI hc (step_moves he hst), moves_inv hI (step_moves he hst)⟩
  exact hboth.1

/-- Where nobody can go on the main thread joins, or has joined: it can always test, and the worker
it is to create is there. -/
theorem joining_of_stuck (hc : Complete inputs s) (hlength : s.workers.length = inputs.length)
    (hmain : mainStep p s = none) : (∃ i, s.main = .join i) ∨ s.main = .joined := by
  cases hm : s.main with
  | createTest i | joinTest i =>
    simp only [mainStep, hm] at hmain
    split at hmain <;> cases hmain
  | create i =>
    simp only [Complete, hm] at hc
    simp only [mainStep, hm, Option.map_eq_none_iff, List.getElem?_eq_none_iff] at hmain
    omega
  | join i => exact Or.inl ⟨i, rfl⟩
  | joined => exact Or.inr rfl

theorem born_of_stuck (h : Inv inputs s) (hc : Complete inputs s)
    (hmain : mainStep p s = none) : ∀ u ∈ unbornFlags s.workers, u = false := by
  rcases joining_of_stuck hc h.length_workers hmain with ⟨i, hm⟩ | hm
  · simp only [Complete, hm] at hc
    exact hc
  · simp only [Complete, hm] at hc
    exact hc

/-- Where all workers are gone it does not wait for one of them. -/
theorem joined_of_stuck (hc : Complete inputs s) (hlength : s.workers.length = inputs.length)
    (hjoins : JoinsWorker s) (hterm : ∀ w ∈ s.workers, w.phase = .terminated)
    (hmain : mainStep hw4 s = none) : s.main = .joined := by
  rcases joining_of_stuck hc hlength hmain with ⟨i, hm⟩ | hm
  · simp only [JoinsWorker, hm] at hjoins
    have hgone : s.workers[i]?.map Worker.phase = some .terminated :=
      (gone_iff hjoins).mpr (hterm _ (List.getElem_mem hjoins))
    simp only [mainStep, hm, if_pos hgone] at hmain
    cases hmain
  · exact hm

/-- A state in which nobody can go on, and no worker is missing. -/
theorem finished_of_stuck (h : Reachable hw4 inputs s)
    (hne : ∀ content ∈ inputs.dropLast, content ≠ [])
    (hstuck : Stuck (step hw4) (fun e _ => e.Proper) s) : Finished inputs s := by
  have hinv := reachable_inv h
  have hc := complete_of_reachable hne h
  have hmain : mainStep hw4 s = none := hstuck .main trivial
  have hborn := born_of_stuck hinv hc hmain
  have hterm : ∀ w ∈ s.workers, w.phase = .terminated := by
    by_contra hlive
    simp only [not_forall] at hlive
    obtain ⟨w, hw, hwt⟩ := hlive
    obtain ⟨v, hv, hblocked⟩ := exists_unblocked hinv hborn ⟨w, hw, hwt⟩
    obtain ⟨i, -, hsome⟩ := exists_worker_step hw4 hv hblocked
    have hnone := hstuck (.worker i fun _ => 1) trivial
    simpa [hnone] using hsome fun _ => 1
  have hjoins : JoinsWorker s :=
    h.invariant (I := JoinsWorker) trivial fun _ _ _ hI he hst =>
      moves_joinsWorker hI (step_moves he hst)
  have hout := hw4_whole h
  rw [Nat.min_eq_right (maxLength_le_of_terminated hinv hterm)] at hout
  refine ⟨joined_of_stuck hc hinv.length_workers hjoins hterm hmain, hterm, ?_⟩
  rw [hout]
  exact congrArg (List.map · _) (funext fun p => (xorOfLonger_eq inputs p).symm)

/-- **When `hw4` always finishes.** Whatever the schedule and however short the reads and writes,
with no call that fails and no wait that ends without a broadcast: a run that cannot go on has
joined all its threads and written the XOR of its inputs, exactly if no input but the last one is
empty. -/
theorem hw4_finishes_iff (inputs : List (List UInt8)) :
    (∀ s, Reachable hw4 inputs s → Stuck (step hw4) (fun e _ => e.Proper) s →
      Finished inputs s) ↔ ∀ content ∈ inputs.dropLast, content ≠ [] := by
  refine ⟨fun hfinish content hmem hnil => ?_, fun hne s h => finished_of_stuck h hne⟩
  rw [List.dropLast_eq_take] at hmem
  obtain ⟨j, hj⟩ := List.mem_iff_getElem?.mp hmem
  have hlt : j < inputs.length - 1 := by
    have hbound := (List.getElem?_eq_some_iff.mp hj).1
    simp at hbound
    omega
  rw [List.getElem?_take_of_lt hlt, hnil] at hj
  -- the creation loop is cut short, and the run goes on until nobody can
  obtain ⟨s, hreach, hm, hunborn⟩ := reachable_cut_short hw4 (by omega) hj
  have hcut : CutShort s := by
    refine ⟨hunborn, ?_⟩
    rw [hm]
    trivial
  obtain ⟨t, ht, htcut, hstuck⟩ :=
    exists_stuck_from hreach hcut fun _ _ _ hI hst => moves_cutShort hI hst
  exact (hfinish t ht hstuck).not_cutShort htcut

end OsHw.Hw4
