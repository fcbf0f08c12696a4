import OsHw.Ex5.Drains

/-!
# OsHw — when SIGINT hangs `pcc_server`

The handler runs on top of a thread, takes the lock that this thread may hold, and waits for a
count in which this thread may be included.

* **`Hung`** — the handler is not done, and however the run goes on it takes no further step.
* **`Clear`** — the condition on the delivery: the main thread is not between the lock of
  `updateActiveThreads(1)` and the end of `pthread_create`; the thread of a connection is behind
  `updateActiveThreads(-1)`.
* **`not_hung`** — a handler on top of a thread that neither holds the lock nor counts gets on.
* **`sigint_hangs_iff`** — the result.
-/

namespace OsHw.Ex5

open Server

/-! ## Blocked forever -/

/-- The handler has begun and is not done, the process lives, and the handler never takes another
step. -/
structure Hung (order : ByteOrder) (s : Server) : Prop where
  handler : ∃ t p, s.cleanup = some (t, p) ∧ p ≠ .done
  lives : s.main ≠ .returned
  stuck : ∀ u, Runs.Reaches (step order) Fed s u → step order .cleanup u = none

/-- Where SIGINT may be delivered: the main thread is not in `updateActiveThreads(1)` with the
lock, nor about to create the thread it has counted; a connection's thread is not counted any
more, and has given the lock back. -/
def Clear (e : Event) (s : Server) : Prop :=
  match e with
  | .sigint .main => s.main.locked = false ∧ s.main.creating = 0
  | .sigint (.connection i) => ∀ c ∈ s.connections[i]?, c.phase = .print
  | _ => True

instance (e : Event) (s : Server) : Decidable (Clear e s) := by
  unfold Clear
  split <;> infer_instance

section Steps

variable {order : ByteOrder} {s s' : Server} {t : Thread} {P : MainPhase → Prop}
  {Q : Phase → Prop}

/-! ## Hanging -/

/-- A handler hangs if it is blocked wherever the interrupted thread is where it is, and either
nothing wakes it or `active_threads` cannot become 0. -/
theorem hung_of_blocked {p : CleanupPhase} (hs : Sound order s) (hmain : s.main ≠ .returned)
    (hp : s.cleanup = some (t, p)) (hdone : p ≠ .done) (hat : s.At t P Q)
    (hblocked : ∀ u, Sound order u → u.At t P Q → u.cleanupStep t p = none)
    (hasleep : p.wake = p ∨ ∀ u, Sound order u → u.At t P Q → u.activeThreads ≠ 0) :
    Hung order s where
  handler := ⟨t, p, hp, hdone⟩
  lives := hmain
  stuck u hu := by
    have hall : Sound order u ∧ u.cleanup = some (t, p) ∧ u.At t P Q := by
      apply hu.invariant (I := fun u => Sound order u ∧ u.cleanup = some (t, p) ∧ u.At t P Q)
      · exact ⟨hs, hp, hat⟩
      rintro e v w ⟨hv, hpv, hatv⟩ hfed hst
      have hw := step_sound hv hst
      have hthread : e.OfThread → Sound order w ∧ w.cleanup = some (t, p) ∧ w.At t P Q := by
        intro he
        obtain ⟨hfrozen, hsignals⟩ := thread_step hpv hdone hst he
        have hatw := hfrozen.at hatv
        refine ⟨hw, ?_, hatw⟩
        rcases hsignals with ⟨hsame, -⟩ | ⟨hwoken, hzero⟩
        · rw [hsame, hpv]
        · rcases hasleep with hwake | hactive
          · rw [hwoken, hpv, broadcast, Option.map_some, hwake]
          · exact absurd hzero (hactive w hw hatw)
      cases step_moves hst with
      | main hrun h => exact hthread trivial
      | connection hrun h => exact hthread trivial
      | sigint hlives h =>
        simp only [sigintHandler, hpv] at h
        simp at h
      | cleanup hlives hpv' h =>
        rw [hpv] at hpv'
        cases hpv'
        rw [hblocked v hv hatv] at h
        cases h
      | spurious hlives h => cases hfed
    obtain ⟨hu, hpu, hatu⟩ := hall
    simp only [step, hpu, hblocked u hu hatu, ite_self]

/-- The handler waits for a lock that the thread below it has. -/
theorem hung_on_lock (hs : Sound order s) (hmain : s.main ≠ .returned)
    (hp : s.cleanup = some (t, .lock)) (hinside : s.Inside (.thread t)) : Hung order s := by
  apply hung_of_blocked hs hmain hp (by decide) (inside_iff_at.mp hinside)
  · intro u hu hat
    have howner := hu.guarded _ (inside_iff_at.mpr hat)
    simp [cleanupStep, lock, howner]
  · exact Or.inl rfl

/-- The handler waits until nothing is active, and the thread below it is. -/
theorem hung_on_count (hs : Sound order s) (hmain : s.main ≠ .returned)
    (hp : s.cleanup = some (t, .wait false)) (hcounts : s.Counts t) : Hung order s := by
  apply hung_of_blocked hs hmain hp (by decide) hcounts
  · exact fun u _ _ => rfl
  · exact Or.inr fun u hu hat => hu.active_ne_zero hat

/-! ## The result -/

/-- The handler runs on top of a thread that does not hold the lock and is not counted. -/
def Aside (s : Server) : Prop :=
  ∀ t p, s.cleanup = some (t, p) → p ≠ .done →
    s.At t (fun m => m.locked = false ∧ m.creating = 0) (· = .print)

theorem start_aside : Aside start := by
  intro t p hp
  cases hp

theorem CleanupPhase.ne_done_of_wake {p : CleanupPhase} (h : p.wake ≠ .done) : p ≠ .done := by
  rintro rfl
  exact h rfl

/-- A handler that is not done after the step of a thread was there before, maybe not woken. -/
theorem exists_handler {e : Event} {p : CleanupPhase} (hst : step order e s = some s')
    (he : e.OfThread) (hp : s'.cleanup = some (t, p)) (hdone : p ≠ .done) :
    ∃ q, s.cleanup = some (t, q) ∧ q ≠ .done := by
  have hsignals : Signals s s' := by
    cases step_moves hst with
    | main hrun h => exact mainStep_signals h
    | connection hrun h =>
      obtain ⟨c, c', s₁, hc, hacts, rfl⟩ := connectionStep_acts h
      exact hacts.signals
    | _ => cases he
  rcases hsignals with ⟨hsame, -⟩ | ⟨hwoken, -⟩
  · exact ⟨p, hsame ▸ hp, hdone⟩
  · rw [hwoken] at hp
    obtain ⟨q, hq, rfl⟩ := broadcast_some hp
    exact ⟨q, hq, CleanupPhase.ne_done_of_wake hdone⟩

/-- The handler goes on on top of the thread that it interrupted. -/
theorem cleanupStep_thread {p q : CleanupPhase} {t' : Thread} (h : s.cleanupStep t p = some s')
    (hq : s'.cleanup = some (t', q)) : t' = t ∧ p ≠ .done := by
  cases p with
  | lock =>
    obtain ⟨s₁, -, rfl⟩ := Option.map_eq_some_iff.mp h
    cases hq
    exact ⟨rfl, by decide⟩
  | test =>
    simp only [cleanupStep] at h
    split at h <;> cases h <;> cases hq <;> exact ⟨rfl, by decide⟩
  | wait woken =>
    cases woken with
    | false => cases h
    | true =>
      obtain ⟨s₁, -, rfl⟩ := Option.map_eq_some_iff.mp h
      cases hq
      exact ⟨rfl, by decide⟩
  | done => cases h
  | _ =>
    cases h
    cases hq
    exact ⟨rfl, by decide⟩

theorem step_aside {e : Event} (hs : Aside s) (hclear : Clear e s)
    (hst : step order e s = some s') : Aside s' := by
  have hthread : e.OfThread → Aside s' := by
    intro he t p hp hdone
    obtain ⟨q, hq, hqdone⟩ := exists_handler hst he hp hdone
    exact (thread_step hq hqdone hst he).1.at (hs t q hq hqdone)
  cases step_moves hst with
  | main hrun h => exact hthread trivial
  | connection hrun h => exact hthread trivial
  | @sigint t s' hlives h =>
    simp only [sigintHandler] at h
    split at h
    · next halive =>
      cases h
      intro t' p hp hdone
      cases hp
      cases t with
      | main => exact hclear
      | connection i =>
        obtain ⟨c, hc, -⟩ := halive.2
        exact ⟨c, hc, hclear c hc⟩
    · cases h
  | @cleanup t p s' hlives hp h =>
    intro t' q hq hdone
    obtain ⟨hsame, hpdone⟩ := cleanupStep_thread h hq
    obtain ⟨lock, sigint, cleanup, rfl⟩ := cleanupStep_untouched h
    have hat := hs t p hp hpdone
    subst hsame
    cases t' <;> exact hat
  | spurious hlives h =>
    simp only [spuriousStep] at h
    split at h
    · cases h
      intro t p hp hdone
      obtain ⟨q, hq, rfl⟩ := broadcast_some hp
      have hat := hs t q hq (CleanupPhase.ne_done_of_wake hdone)
      cases t <;> exact hat
    · cases h

/-- At the end of the threads nothing is active. -/
theorem inactive_of_ended {u : Server} (hu : Sound order u)
    (hat : u.At t (fun m => m.locked = false ∧ m.creating = 0) (· = .print))
    (hcreating : t ≠ .main → u.main.creating = 0)
    (hreturned : ∀ i c, u.connections[i]? = some c → t ≠ .connection i → c.phase = .returned) :
    u.activeThreads = 0 := by
  have hmain : u.main.creating = 0 := by
    by_cases ht : t = .main
    · subst ht
      exact hat.2
    · exact hcreating ht
  have hfinished : u.connections.countP Connection.finished = u.connections.length := by
    apply List.countP_eq_length.mpr
    intro c hc
    obtain ⟨i, hi⟩ := List.getElem?_of_mem hc
    by_cases ht : t = .connection i
    · subst ht
      obtain ⟨d, hd, hprint⟩ := hat
      rw [hi] at hd
      cases hd
      rw [Connection.finished, hprint]
      rfl
    · rw [Connection.finished, hreturned i c hi ht]
      rfl
  have hactive := hu.counted.active
  have hregistered := hu.counted.registered
  omega

/-- A handler that is aside can get on. -/
theorem not_hung (hs : Sound order s) (haside : Aside s) : ¬ Hung order s := by
  rintro ⟨⟨t, p, hp, hdone⟩, hlives, hstuck⟩
  have hat := haside t p hp hdone
  have hnow := hstuck s .refl
  simp only [step, hp, hlives, ne_eq, not_false_eq_true, if_true] at hnow
  -- inside the section and behind it nothing holds the handler up
  have hlocked : p.locked = false := by
    cases p with
    | test =>
      simp only [cleanupStep] at hnow
      split at hnow <;> cases hnow
    | unlock => cases hnow
    | _ => rfl
  have hout : s.Outside t := by
    cases t with
    | main => exact hat.1
    | connection i =>
      obtain ⟨c, hc, hprint⟩ := hat
      exact ⟨c, hc, by rw [hprint]; rfl⟩
  obtain ⟨u, hreach, hu, hstop⟩ := exists_drained hs hlives hp hdone
  obtain ⟨hfree, hcreating, hreturned⟩ := hu.ended hlocked hdone hout hstop
  have hblocked := hstuck u (hreach.mono fun _ _ => Draining.fed)
  have hzero : u.activeThreads = 0 :=
    inactive_of_ended hu.sound (hu.frozen.at hat) hcreating hreturned
  have hgo : ∀ q, u.cleanup = some (t, q) → q = .lock ∨ q = .wait true → False := by
    intro q hq hlock
    have hdestroyed : ¬ u.Destroyed :=
      not_destroyed hq (by rcases hlock with rfl | rfl <;> decide)
    simp only [step, hq, hu.lives, ne_eq, not_false_eq_true, if_true] at hblocked
    rcases hlock with rfl | rfl <;>
      simp [cleanupStep, lock, hfree, hdestroyed] at hblocked
  have hwaiting : u.cleanup ≠ some (t, .wait false) := fun hwait => hu.sound.waiting t hwait hzero
  rcases hu.handler with hq | hq
  · cases p with
    | lock => exact hgo _ hq (Or.inl rfl)
    | wait woken =>
      cases woken with
      | false => exact hwaiting hq
      | true => exact hgo _ hq (Or.inr rfl)
    | print => cases hnow
    | done => exact hdone rfl
    | _ => cases hlocked
  · cases p with
    | lock => exact hgo _ hq (Or.inl rfl)
    | wait woken => exact hgo _ hq (Or.inr rfl)
    | print => cases hnow
    | done => exact hdone rfl
    | _ => cases hlocked

/-- A thread at which the signal should not come holds the lock, or counts. -/
theorem inside_or_counts (hlives : s.main ≠ .returned) (halive : s.Alive t)
    (hnot : ¬ Clear (.sigint t) s) :
    s.Inside (.thread t) ∨ (s.Outside t ∧ s.Counts t) := by
  cases t with
  | main =>
    unfold Clear at hnot
    show s.main.locked = true ∨ (s.main.locked = false ∧ s.main.creating = 1)
    cases hmain : s.main with
    | update | unlock => exact Or.inl rfl
    | create => exact Or.inr ⟨rfl, rfl⟩
    | returned => exact absurd hmain hlives
    | _ =>
      rw [hmain] at hnot
      exact absurd ⟨rfl, rfl⟩ hnot
  | connection i =>
    obtain ⟨c, hc, hrunning⟩ := halive
    have hc' : s.connections[i]? = some c := hc
    have hprint : c.phase ≠ .print := by
      intro hprint
      apply hnot
      intro d hd
      rw [hc] at hd
      cases hd
      exact hprint
    cases hphase : c.phase with
    | update | unlock => exact Or.inl ⟨c, hc', by rw [hphase]; rfl⟩
    | print => exact absurd hphase hprint
    | returned => exact absurd hphase hrunning
    | _ => exact Or.inr ⟨⟨c, hc', by rw [hphase]; rfl⟩, ⟨c, hc', by rw [hphase]; rfl⟩⟩

/-- Delivered anywhere else, the signal leads to a handler that hangs. -/
theorem exists_hung (hs : Sound order s) (hst : step order (.sigint t) s = some s')
    (hnot : ¬ Clear (.sigint t) s) :
    ∃ u, Runs.Reaches (step order) Fed s' u ∧ Hung order u := by
  have hs' := step_sound hs hst
  obtain ⟨hlives, halive, rfl⟩ : s.main ≠ .returned ∧ s.Alive t ∧
      s' = { s with sigintHappend := true, cleanup := some (t, .lock) } := by
    cases step_moves hst with
    | sigint hlives h =>
      simp only [sigintHandler] at h
      split at h
      · next halive =>
        cases h
        exact ⟨hlives, halive.2, rfl⟩
      · cases h
  have hframe : ∀ {P : MainPhase → Prop} {Q : Phase → Prop}, s.At t P Q →
      Server.At t P Q { s with sigintHappend := true, cleanup := some (t, .lock) } := by
    intro P Q hat
    cases t <;> exact hat
  rcases inside_or_counts hlives halive hnot with hinside | ⟨hout, hcounts⟩
  · refine ⟨_, .refl, hung_on_lock hs' hlives rfl ?_⟩
    exact inside_iff_at.mpr (hframe (inside_iff_at.mp hinside))
  -- the others give the lock back, and the handler goes on to its wait
  obtain ⟨u, hreach, hu, hstop⟩ := exists_drained hs' hlives rfl (by decide)
  obtain ⟨hfree, -, -⟩ := hu.ended rfl (by decide) (hframe hout) hstop
  have hp : u.cleanup = some (t, .lock) := by
    rcases hu.handler with hp | hp <;> exact hp
  have hcountsu : u.Counts t := hu.frozen.at (hframe hcounts)
  let v : Server := { u with activeThreadsLock := some .cleanup, cleanup := some (t, .test) }
  let w : Server := { v.unlock with cleanup := some (t, .wait false) }
  have hv : step order .cleanup u = some v := by
    have hdestroyed := not_destroyed hp (by decide)
    simp [step, hp, hu.lives, cleanupStep, lock, hfree, hdestroyed, v]
  have hw : step order .cleanup v = some w := by
    have hactive : u.activeThreads ≠ 0 := hu.sound.active_ne_zero hcountsu
    simp [step, hu.lives, cleanupStep, hactive, v, w]
  refine ⟨w, ?_, ?_⟩
  · have hwait := hreach.mono (Q := Fed) fun _ _ => Draining.fed
    exact .tail (e := .cleanup) (.tail (e := .cleanup) hwait trivial hv) trivial hw
  · refine hung_on_count (step_sound (step_sound hu.sound hv) hw) hu.lives rfl ?_
    cases t <;> exact hcountsu

/-- **SIGINT.** A run in which the signal is delivered where it should be has no handler that
hangs; delivered anywhere else, it leads to one. -/
theorem sigint_hangs_iff (order : ByteOrder) :
    (∀ s, Runs.Reaches (step order) Clear start s → ¬ Hung order s) ∧
    ∀ s t s', Runs.Reaches (step order) (fun _ _ => True) start s →
      step order (.sigint t) s = some s' → ¬ Clear (.sigint t) s →
      ∃ u, Runs.Reaches (step order) Fed s' u ∧ Hung order u := by
  constructor
  · intro s hs
    have haside : Aside s :=
      hs.invariant (I := Aside) start_aside fun _ _ _ ht hclear hst => step_aside ht hclear hst
    exact not_hung (reaches_sound hs) haside
  · intro s t s' hs hst hnot
    exact exists_hung (reaches_sound hs) hst hnot

end Steps

/-- The signal comes in `accept`, with one client being served, and the handler waits for it. -/
theorem sigint_waits : ∃ s, Runs.Reaches (step .little) Clear start s ∧
    s.cleanup = some (.main, .wait false) ∧ ¬ Hung .little s := by
  have hrun : (Runs.run (fun e s => if Clear e s then step .little e s else none)
      (List.replicate 7 (.main (.replicate 4 0)) ++ [.sigint .main, .cleanup, .cleanup])
      start).map (fun s => s.cleanup) = some (some (.main, .wait false)) := by decide
  obtain ⟨s, hs, hcleanup⟩ := Option.map_eq_some_iff.mp hrun
  have hreach := Runs.reaches_of_run_allowed hs
  exact ⟨s, hreach, hcleanup, (sigint_hangs_iff .little).1 s hreach⟩

/-- The signal comes while the main thread counts the first connection, with the lock. -/
theorem sigint_hangs : ∃ s, Runs.Reaches (step .little) (fun _ _ => True) start s ∧
    Hung .little s := by
  have hrun : (Runs.run (step .little) (List.replicate 3 (.main (.replicate 4 0)) ++
      [.sigint .main]) start).map (fun s => (s.main, s.cleanup)) =
      some (.update, some (.main, .lock)) := by decide
  obtain ⟨s, hs, heq⟩ := Option.map_eq_some_iff.mp hrun
  obtain ⟨hmain, hcleanup⟩ := Prod.mk.inj heq
  have hreach := Runs.reaches_of_run (P := fun _ _ => True) (fun _ _ _ => trivial) hs
  refine ⟨s, hreach, hung_on_lock (reaches_sound hreach) ?_ hcleanup ?_⟩
  · rw [hmain]
    decide
  · show s.main.locked = true
    rw [hmain]
    rfl

end OsHw.Ex5
