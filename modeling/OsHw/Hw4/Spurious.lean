import OsHw.Hw4.Correct
import Mathlib.Logic.Function.Basic

/-!
# OsHw — `hw4` when `pthread_cond_wait` returns without a broadcast

Both waits on `allDoneCond` stand behind an `if`. POSIX allows a wait to return although nobody
called `pthread_cond_broadcast`; a worker that then goes on is one level ahead.

* **`Early`** — a history variable: which workers have returned from a wait of theirs with no
  broadcast since. **`OnBroadcast`** is the condition that such a worker does not go on.
* **`hide`** — the state with these workers put back to sleep. As long as the condition holds
  it is a reachable state of a run without spurious returns (`hide_reachable`), so it has all the
  invariants of one.
* **`hw4_inLevel_iff`** — the workers keep to the levels in exactly the runs that meet the
  condition.
-/

namespace OsHw.Hw4

open Runs

/-! ## Early returns -/

/-- Which workers have returned from a wait with no broadcast since the wait began. -/
abbrev Early := Nat → Bool

/-- The event makes a worker broadcast. -/
def broadcasts (p : Program) (e : Event) (s : State) : Bool :=
  match e with
  | .worker i short =>
    match s.workers[i]?.bind (workerMain p short s.globals) with
    | some (_, _, broadcast) => broadcast
    | none => false
  | _ => false

/-- A spurious return makes a worker early, and a broadcast makes up for all of them. A worker
that goes on has its wait behind it. -/
def Early.next (p : Program) (e : Event) (s : State) (early : Early) : Early :=
  match e with
  | .spurious i => Function.update early i true
  | .worker i _ =>
    if broadcasts p e s then fun _ => false else Function.update early i false
  | .main => early

/-- No worker goes on that has returned from its wait without a broadcast. -/
def OnBroadcast (e : Event) (x : State × Early) : Prop :=
  match e with
  | .worker i _ => x.2 i = false
  | _ => True

/-- **The level discipline.** A worker that XORs its block number `current_level` does so at
this level, and one that decrements `numThreads` is at the level. -/
def InLevel (e : Event) (s : State) : Prop :=
  match e with
  | .worker i _ => ∀ w, s.workers[i]? = some w →
    (w.AtXor s.globals.level →
      w.buff = block w.content w.currentLevel ∧ s.globals.level = w.currentLevel) ∧
    (w.AtRetire s.globals.level → w.currentLevel = s.globals.level)
  | _ => True

/-! ## Hiding early returns -/

/-- Take back the return of a wait. -/
def Worker.sleep (w : Worker) : Worker :=
  match w.phase with
  | .xorWait _ => { w with phase := .xorWait false }
  | .retireWait _ => { w with phase := .retireWait false }
  | _ => w

def Worker.sleepIf (early : Bool) (w : Worker) : Worker := if early then w.sleep else w

/-- The workers, the early ones asleep. -/
def asleep (early : Early) (ws : List Worker) : List Worker :=
  ws.mapIdx fun i w => w.sleepIf (early i)

/-- The state in which the early workers are still waiting. -/
def hide (early : Early) (s : State) : State := { s with workers := asleep early s.workers }

/-- An early worker is behind its wait. -/
def BehindWait (early : Early) (ws : List Worker) : Prop :=
  ∀ i, early i = true →
    ∃ w, ws[i]? = some w ∧ (w.phase = .xorWait true ∨ w.phase = .retireWait true)

section Asleep

variable {early : Early} {ws : List Worker} {i : Nat} {w : Worker}

@[simp] theorem Worker.sleepIf_false (w : Worker) : w.sleepIf false = w := rfl

@[simp] theorem Worker.sleepIf_true (w : Worker) : w.sleepIf true = w.sleep := rfl

theorem Worker.wake_sleep (w : Worker) : w.sleep.wake = w.wake := by
  cases hph : w.phase <;> simp [sleep, wake, hph]

theorem Worker.sleep_wake
    (hwait : w.phase = .xorWait false ∨ w.phase = .retireWait false) :
    w.sleep = w ∧ w.wake.sleep = w := by
  obtain ⟨content, unread, buff, currentLevel, phase⟩ := w
  rcases hwait with hph | hph <;> cases hph <;> exact ⟨rfl, rfl⟩

/-- Putting to sleep only matters in a wait. -/
theorem Worker.sleepIf_phase (b : Bool) (w : Worker) (phase : Phase) :
    ({ w.sleepIf b with phase := phase } : Worker) = { w with phase := phase } := by
  cases b with
  | false => rfl
  | true => cases hph : w.phase <;> simp [sleep, hph]

theorem asleep_getElem? : (asleep early ws)[i]? = ws[i]?.map fun w => w.sleepIf (early i) :=
  List.getElem?_mapIdx

@[simp] theorem asleep_length : (asleep early ws).length = ws.length := List.length_mapIdx

/-- A worker that is not early is left alone. -/
theorem asleep_worker (hi : early i = false) (hw : ws[i]? = some w) :
    (asleep early ws)[i]? = some w := by
  rw [asleep_getElem?, hw, hi]
  rfl

theorem asleep_none : asleep (fun _ => false) ws = ws := by
  apply List.ext_getElem?
  intro i
  rw [asleep_getElem?]
  simp

/-- One worker is replaced, and may become early or cease to be. -/
theorem asleep_set (early : Early) (ws : List Worker) (i : Nat) (b : Bool) (w : Worker) :
    asleep (Function.update early i b) (ws.set i w) = (asleep early ws).set i (w.sleepIf b) := by
  apply List.ext_getElem?
  intro j
  rw [asleep_getElem?]
  by_cases hij : i = j
  · subst hij
    rw [List.getElem?_set_self', List.getElem?_set_self', asleep_getElem?, Function.update_self]
    cases ws[i]? <;> rfl
  · rw [List.getElem?_set_ne hij, List.getElem?_set_ne hij, asleep_getElem?,
      Function.update_of_ne (Ne.symm hij)]

/-- A broadcast wakes those that sleep and those that only seem to. -/
theorem asleep_wake : (asleep early ws).map Worker.wake = ws.map Worker.wake := by
  apply List.ext_getElem?
  intro i
  rw [List.getElem?_map, List.getElem?_map, asleep_getElem?]
  cases ws[i]? with
  | none => rfl
  | some w => cases hi : early i <;> simp [Worker.wake_sleep]

end Asleep

/-! ## Steps behind early returns -/

section

variable {p : Program} {inputs : List (List UInt8)} {s s' : State} {early : Early} {i : Nat}

/-- The main thread cannot tell the difference. -/
theorem hide_main (hst : mainStep p s = some s') :
    mainStep p (hide early s) = some (hide early s') := by
  unfold mainStep hide at *
  cases hm : s.main with
  | createTest i =>
    simp only [hm] at hst ⊢
    split at hst <;> cases hst <;> simp only [*, if_true, if_false]
  | create i =>
    simp only [hm, Option.map_eq_some_iff] at hst ⊢
    obtain ⟨w, hw, rfl⟩ := hst
    refine ⟨w.sleepIf (early i), by rw [asleep_getElem?, hw]; rfl, ?_⟩
    -- a worker that was just created does not wait
    have hset := asleep_set early s.workers i (early i) { w with phase := .reading }
    rw [Function.update_eq_self] at hset
    rw [Worker.sleepIf_phase, hset]
    cases early i <;> rfl
  | joinTest i =>
    simp only [hm, asleep_length] at hst ⊢
    split at hst <;> cases hst <;> simp only [*, if_true, if_false]
  | join i =>
    simp only [hm] at hst ⊢
    split at hst
    · next hterm =>
      cases hst
      obtain ⟨w, hw, hph⟩ := Option.map_eq_some_iff.mp hterm
      have hsleep : (w.sleepIf (early i)).phase = .terminated := by
        cases early i <;> simp [Worker.sleep, hph]
      rw [asleep_getElem?, hw, if_pos (by simp [hsleep])]
    · cases hst
  | joined => simp [hm] at hst

/-- A worker that is not early acts in the hidden state as it does in the state. -/
theorem hide_worker {short : Nat → Nat} (hi : early i = false)
    (hst : step p (.worker i short) s = some s') :
    step p (.worker i short) (hide early s) =
      some (hide (early.next p (.worker i short) s) s') := by
  obtain ⟨w, g', w', b, hw, hact, rfl⟩ := step_worker hst
  have hb : broadcasts p (.worker i short) s = b := by
    simp only [broadcasts, hw, Option.bind_some, hact]
  have hset := asleep_set early s.workers i false w'
  have hact' : workerMain p short (hide early s).globals w = some (g', w', b) := hact
  have hw' : (hide early s).workers[i]? = some w := asleep_worker hi hw
  simp only [step, hw', bind, Option.bind_some, hact', pure, Option.some.injEq, Early.next, hb]
  unfold hide
  cases b with
  | false =>
    simp only [Bool.false_eq_true, if_false, wakeIf_false]
    rw [hset]
    rfl
  | true =>
    simp only [if_true, asleep_none, wakeIf_true]
    rw [Worker.sleepIf_false] at hset
    rw [← hset, asleep_wake]

/-- A spurious return is hidden. -/
theorem hide_spurious (hst : step p (.spurious i) s = some s') :
    hide (Function.update early i true) s' = hide early s := by
  obtain ⟨w, hw, hwait, rfl⟩ := step_spurious hst
  obtain ⟨hsleep, hwake⟩ := Worker.sleep_wake hwait
  have hset := asleep_set early s.workers i true w.wake
  have hself : (asleep early s.workers)[i]? = some w := by
    rw [asleep_getElem?, hw]
    cases early i <;> simp [hsleep]
  obtain ⟨hlt, hget⟩ := List.getElem?_eq_some_iff.mp hself
  unfold hide
  rw [hset, Worker.sleepIf_true, hwake]
  nth_rewrite 2 [← hget]
  rw [List.set_getElem_self]

/-- Behind the early returns there is a state of a run without them. -/
structure Hidden (p : Program) (inputs : List (List UInt8)) (x : State × Early) : Prop where
  reachable : Reachable p inputs (hide x.2 x.1)
  behindWait : BehindWait x.2 x.1.workers

theorem init_hidden (p : Program) (inputs : List (List UInt8)) :
    Hidden p inputs (init inputs, fun _ => false) where
  reachable := by
    unfold hide
    rw [asleep_none]
    exact .refl
  behindWait := by
    intro i hi
    cases hi

/-- The main thread does not move a worker behind its wait: the one it creates is unborn. -/
theorem mainStep_behindWait (h : Hidden p inputs (s, early)) (hst : mainStep p s = some s') :
    BehindWait early s'.workers := by
  have hbehind := h.behindWait
  unfold mainStep at hst
  cases hm : s.main with
  | createTest i =>
    simp only [hm] at hst
    split at hst <;> cases hst <;> exact hbehind
  | create i =>
    simp only [hm, Option.map_eq_some_iff] at hst
    obtain ⟨w, hw, rfl⟩ := hst
    intro j hj
    obtain ⟨v, hv, hwait⟩ := hbehind j hj
    by_cases hij : i = j
    · subst hij
      -- behind its wait is not where an unborn worker is
      have hcreated := (reachable_inv h.reachable).created
      unfold Created at hcreated
      rw [show (hide early s).main = .create i from hm] at hcreated
      have hflag : (unbornFlags (hide early s).workers)[i]? = some false := by
        have hhidden : (hide early s).workers[i]? = some (v.sleepIf (early i)) := by
          rw [hide, asleep_getElem?, hv]
          rfl
        unfold unbornFlags
        rw [List.getElem?_map, hhidden, hj]
        rcases hwait with hph | hph <;> simp [Worker.sleep, hph]
      have hborn := (hcreated i false hflag).mpr (Nat.le_refl i)
      cases hborn
    · exact ⟨v, by rw [List.getElem?_set_ne hij, hv], hwait⟩
  | joinTest i =>
    simp only [hm] at hst
    split at hst <;> cases hst <;> exact hbehind
  | join i =>
    simp only [hm] at hst
    split at hst
    · cases hst
      exact hbehind
    · cases hst
  | joined => simp [hm] at hst

/-- **A step that meets the condition stays behind the hidden run.** -/
theorem step_hidden {e : Event} (h : Hidden p inputs (s, early)) (he : OnBroadcast e (s, early))
    (hst : step p e s = some s') : Hidden p inputs (s', early.next p e s) := by
  cases e with
  | main =>
    refine ⟨h.reachable.next (e := .main) (hide_main hst) trivial, ?_⟩
    exact mainStep_behindWait h hst
  | worker i short =>
    have hi : early i = false := he
    refine ⟨h.reachable.next (hide_worker hi hst) trivial, ?_⟩
    obtain ⟨w, g', w', b, hw, hact, rfl⟩ := step_worker hst
    have hb : broadcasts p (.worker i short) s = b := by
      simp only [broadcasts, hw, Option.bind_some, hact]
    intro j hj
    simp only [Early.next, hb] at hj
    cases b with
    | true => cases hj
    | false =>
      have hne : i ≠ j := by
        rintro rfl
        simp at hj
      simp only [Bool.false_eq_true, if_false, Function.update_of_ne (Ne.symm hne)] at hj
      obtain ⟨v, hv, hwait⟩ := h.behindWait j hj
      refine ⟨v, ?_, hwait⟩
      rw [wakeIf_false, List.getElem?_set_ne hne]
      exact hv
  | spurious i =>
    refine ⟨(hide_spurious hst).symm ▸ h.reachable, ?_⟩
    obtain ⟨w, hw, hwait, rfl⟩ := step_spurious hst
    intro j hj
    by_cases hij : i = j
    · subst hij
      obtain ⟨hlt, -⟩ := List.getElem?_eq_some_iff.mp hw
      refine ⟨w.wake, List.getElem?_set_self hlt, ?_⟩
      rcases hwait with hph | hph <;> simp [Worker.wake, hph]
    · have hold : early j = true := by
        have hj' : Function.update early i true j = true := hj
        rwa [Function.update_of_ne (Ne.symm hij)] at hj'
      obtain ⟨v, hv, hbehind⟩ := h.behindWait j hold
      exact ⟨v, by rw [List.getElem?_set_ne hij, hv], hbehind⟩

/-! ## The levels -/

/-- A worker that is not early keeps to the level. -/
theorem inLevel_of_onBroadcast {e : Event} (h : Hidden p inputs (s, early))
    (he : OnBroadcast e (s, early)) : InLevel e s := by
  cases e with
  | worker i short =>
    intro w hw
    have hinv := reachable_inv h.reachable
    have hmem : w ∈ (hide early s).workers :=
      List.mem_of_getElem? (asleep_worker he hw)
    have hlevel : w.InLevel s.globals.level := hinv.disciplined.levels w hmem
    constructor
    · intro hat
      have hreads := hinv.mixing.reads w hmem
      refine ⟨?_, (hat.inLevel hlevel).symm⟩
      rcases hat with ⟨hph, -⟩ | hph
      · simp only [Worker.Reads, hph] at hreads
        exact hreads.1
      · simp only [Worker.Reads, hph] at hreads
        exact hreads.1
    · intro hat
      exact hat.inLevel hlevel
  | _ => trivial

/-- An early worker is one level ahead, and its next step is to XOR or to retire. -/
theorem onBroadcast_of_inLevel {e : Event} (h : Hidden p inputs (s, early))
    (he : InLevel e s) : OnBroadcast e (s, early) := by
  cases e with
  | worker i short =>
    by_contra hne
    have hi : early i = true := by
      rwa [OnBroadcast, Bool.not_eq_false] at hne
    obtain ⟨w, hw, hwait⟩ := h.behindWait i hi
    have hmem : w.sleep ∈ (hide early s).workers := by
      apply List.mem_of_getElem? (i := i)
      rw [hide, asleep_getElem?, hw, hi]
      rfl
    have hlevel : w.sleep.InLevel s.globals.level :=
      (reachable_inv h.reachable).disciplined.levels _ hmem
    obtain ⟨hxor, hretire⟩ := he w hw
    rcases hwait with hph | hph
    · have hahead : w.currentLevel = s.globals.level + 1 := by
        simpa [Worker.sleep, Worker.InLevel, hph] using hlevel
      have heq := (hxor (.inr hph)).2
      omega
    · have hahead : w.currentLevel = s.globals.level + 1 := by
        simpa [Worker.sleep, Worker.InLevel, hph] using hlevel
      have heq := hretire (.inr hph)
      omega
  | _ => trivial

end

/-- **The barrier under POSIX waits.** In a run in which waits may also return without a
broadcast, every XOR and every decrement of `numThreads` is at the right level if and only if no
worker goes on from its wait before a broadcast. -/
theorem hw4_inLevel_iff (inputs : List (List UInt8)) (events : List Event) :
    Throughout (step hw4) InLevel events (init inputs) ↔
      Throughout (withGhost (step hw4) (Early.next hw4)) OnBroadcast events
        (init inputs, fun _ => false) := by
  rw [← throughout_withGhost (Early.next hw4) events (init inputs) fun _ => false]
  refine throughout_iff (I := Hidden hw4 inputs) ?_ ?_ (init_hidden hw4 inputs) events
  · rintro e ⟨s, early⟩ t hhidden -
    exact ⟨onBroadcast_of_inLevel hhidden, inLevel_of_onBroadcast hhidden⟩
  · rintro e ⟨s, early⟩ t hhidden he hst
    obtain ⟨s', hstep, rfl⟩ := Option.map_eq_some_iff.mp hst
    exact step_hidden hhidden he hstep

/-- Two workers with a byte each. Worker 0 has contributed its byte and waits to retire; its
wait returns spuriously, and it retires at level 0, before the byte of worker 1. -/
theorem hw4_early_retire :
    ¬ ∀ inputs events, Throughout (step hw4) InLevel events (init inputs) := by
  intro hall
  let worker i : Event := .worker i fun _ => 1
  let events : List Event := List.replicate 5 .main ++ List.replicate 5 (worker 0) ++ [.spurious 0]
  obtain ⟨s, hs⟩ : ∃ s, run (step hw4) events (init [[97], [98]]) = some s :=
    Option.isSome_iff_exists.mp (by decide)
  obtain ⟨w, hw, hphase, hahead⟩ : ∃ w, s.workers[0]? = some w ∧ w.phase = .retireWait true ∧
      w.currentLevel ≠ s.globals.level := by
    have hview : (run (step hw4) events (init [[97], [98]])).any (fun s =>
        s.workers[0]?.any fun w =>
          w.phase = .retireWait true ∧ w.currentLevel ≠ s.globals.level) = true := by decide
    rw [hs] at hview
    simpa [Option.any_eq_true] using hview
  have hnot : ¬ w.Blocked := by simp [Worker.Blocked, hphase]
  obtain ⟨⟨g', w', b⟩, hact⟩ :=
    Option.isSome_iff_exists.mp (workerMain_isSome hw4 (fun _ => 1) s.globals hnot)
  obtain ⟨t, hstep⟩ : ∃ t, step hw4 (worker 0) s = some t :=
    Option.isSome_iff_exists.mp (by simp [step, worker, hw, hact])
  have hlevel := (hall [[97], [98]] (events ++ [worker 0])).at_step hs hstep
  exact hahead ((hlevel w hw).2 (.inr hphase))

end OsHw.Hw4
