import OsHw.Ex5.Statistics
import OsHw.Lib.Mutex

/-!
# OsHw — when the shutdown of `pcc_server` is complete

`cleanup` takes `active_threads == 0` as a sign that all threads are done. That is so unless the
signal comes between `accept` and `updateActiveThreads(1)`, the wait ends without a broadcast, or
a thread that has taken itself off `active_threads` has its last `printf` ahead of it.

* **`reaches_guarded`** — at most one party is between lock and unlock.
* **`Orderly`** — the condition on the step by which `cleanup` goes on to print.
* **`step_settled`** — what an orderly step keeps, up to the end of the process.
* **`shutdown_complete_iff`** — the shutdown is complete where that step is orderly, and only
  there.
-/

namespace OsHw.Ex5

open Server

/-! ## Mutual exclusion -/

def MainPhase.locked : MainPhase → Bool
  | .update | .unlock => true
  | _ => false

def Phase.locked : Phase → Bool
  | .update | .unlock => true
  | _ => false

def CleanupPhase.locked : CleanupPhase → Bool
  | .test | .unlock => true
  | _ => false

/-- A party is between its lock and its unlock. -/
def Server.Inside (s : Server) : Holder → Prop
  | .thread .main => s.main.locked = true
  | .thread (.connection i) => ∃ c, s.connections[i]? = some c ∧ c.phase.locked = true
  | .cleanup => ∃ t p, s.cleanup = some (t, p) ∧ p.locked = true

/-- Whoever is inside holds the lock. -/
def Server.Guarded (s : Server) : Prop := Mutex.Guarded s.Inside s.activeThreadsLock

theorem start_guarded : start.Guarded := by
  intro h hinside
  rcases h with (- | i) | -
  · cases hinside
  · obtain ⟨c, hc, -⟩ := hinside
    cases hc
  · obtain ⟨t, p, hp, -⟩ := hinside
    cases hp

section Steps

variable {order : ByteOrder} {s s' : Server} {i : Nat} {h : Holder}

theorem CleanupPhase.wake_locked (p : CleanupPhase) : p.wake.locked = p.locked := by
  cases p <;> rfl

/-- A broadcast leaves the handler where it is. -/
theorem broadcast_inside {cleanup : Option (Thread × CleanupPhase)}
    (h : ∃ t p, broadcast cleanup = some (t, p) ∧ p.locked = true) :
    ∃ t p, cleanup = some (t, p) ∧ p.locked = true := by
  obtain ⟨t, p, hp, hlocked⟩ := h
  simp only [broadcast, Option.map_eq_some_iff, Prod.mk.injEq] at hp
  obtain ⟨⟨t₀, p₀⟩, hcleanup, rfl, rfl⟩ := hp
  exact ⟨t₀, p₀, hcleanup, by rwa [CleanupPhase.wake_locked] at hlocked⟩

/-- Neither `updateActiveThreads` nor a broadcast moves anybody. -/
theorem updateActiveThreads_inside {n : Int} (hinside : (s.updateActiveThreads n).Inside h) :
    s.Inside h := by
  rcases h with (- | i) | -
  · exact hinside
  · exact hinside
  · unfold Inside updateActiveThreads at hinside
    dsimp only at hinside
    split at hinside
    · exact broadcast_inside hinside
    · exact hinside

/-- The main thread moves, and nobody else. -/
theorem inside_of_main (hinside : s'.Inside h) (hne : h ≠ .thread .main)
    (hconnections : s'.connections = s.connections) (hcleanup : s'.cleanup = s.cleanup) :
    s.Inside h := by
  rcases h with (- | i) | -
  · exact absurd rfl hne
  · rwa [Inside, hconnections] at hinside
  · rwa [Inside, hcleanup] at hinside

/-- The main thread moves outside. -/
theorem Server.Guarded.main_outside (hs : s.Guarded) (hconnections : s'.connections = s.connections)
    (hcleanup : s'.cleanup = s.cleanup) (hlock : s'.activeThreadsLock = s.activeThreadsLock)
    (hout : s'.main.locked = false) : s'.Guarded := by
  have hmono : ∀ h, s'.Inside h → s.Inside h := by
    intro h hinside
    by_cases hmain : h = .thread .main
    · rw [hmain] at hinside
      exact absurd hinside (by rw [Inside, hout]; decide)
    · exact inside_of_main hinside hmain hconnections hcleanup
  unfold Server.Guarded
  rw [hlock]
  exact Mutex.Guarded.mono hs hmono

theorem mainStep_guarded {junk : Vector UInt8 UINT_LEN} (hs : s.Guarded)
    (hst : s.mainStep junk = some s') : s'.Guarded := by
  unfold mainStep at hst
  cases hmain : s.main with
  | test =>
    simp only [hmain] at hst
    cases hst
    exact hs.main_outside rfl rfl rfl (by cases s.sigintHappend <;> rfl)
  | accept =>
    simp only [hmain] at hst
    split at hst <;> cases hst <;> exact hs.main_outside rfl rfl rfl rfl
  | lock =>
    simp only [hmain, Option.map_eq_some_iff] at hst
    obtain ⟨s₁, hlock, rfl⟩ := hst
    obtain ⟨hfree, rfl⟩ := lock_eq_some hlock
    unfold Server.Guarded at hs
    rw [hfree] at hs
    -- the lock is free, so nobody is inside
    exact hs.acquire fun _ hne hin => inside_of_main hin hne rfl rfl
  | update =>
    simp only [hmain] at hst
    cases hst
    refine Mutex.Guarded.mono hs fun h hinside => ?_
    by_cases hh : h = .thread .main
    · rw [hh, Inside, hmain]
      rfl
    · have hbody : (s.updateActiveThreads 1).Inside h := inside_of_main hinside hh rfl rfl
      exact updateActiveThreads_inside hbody
  | unlock =>
    simp only [hmain] at hst
    cases hst
    have hinside : s.Inside (.thread .main) := by
      rw [Inside, hmain]
      rfl
    exact Mutex.Guarded.release hs hinside nofun fun _ hne hin => inside_of_main hin hne rfl rfl
  | create =>
    simp only [hmain] at hst
    cases hst
    refine Mutex.Guarded.mono hs fun h hinside => ?_
    rcases h with (- | i) | -
    · cases hinside
    · obtain ⟨c, hc, hlocked⟩ := hinside
      have hc' : (s.connections ++ [Connection.start junk])[i]? = some c := hc
      rw [List.getElem?_append] at hc'
      split at hc'
      · exact ⟨c, hc', hlocked⟩
      · -- the new thread is outside
        rw [List.mem_singleton.mp (List.mem_of_getElem? hc')] at hlocked
        cases hlocked
    · exact hinside
  | returned => simp [hmain] at hst

/-- The thread of a connection moves, and nobody else. -/
theorem inside_of_set {c : Connection}
    (hinside : Server.Inside { s' with connections := s.connections.set i c } h)
    (hne : h ≠ .thread (.connection i)) (hmain : s'.main = s.main)
    (hcleanup : s'.cleanup = s.cleanup) : s.Inside h := by
  rcases h with (- | j) | -
  · have hin : s'.main.locked = true := hinside
    rwa [hmain] at hin
  · have hij : i ≠ j := fun heq => hne (by rw [heq])
    obtain ⟨d, hd, hlocked⟩ := hinside
    have hd' : (s.connections.set i c)[j]? = some d := hd
    rw [List.getElem?_set_ne hij] at hd'
    exact ⟨d, hd', hlocked⟩
  · have hin : ∃ t p, s'.cleanup = some (t, p) ∧ p.locked = true := hinside
    rwa [hcleanup] at hin

theorem not_inside_of_set {c : Connection} (hout : c.phase.locked = false)
    (hinside : Server.Inside { s' with connections := s.connections.set i c }
      (.thread (.connection i))) : False := by
  obtain ⟨d, hd, hlocked⟩ := hinside
  have hd' : (s.connections.set i c)[i]? = some d := hd
  rw [List.getElem?_set_self'] at hd'
  obtain ⟨_, _, rfl⟩ := Option.map_eq_some_iff.mp hd'
  rw [Function.const_apply, hout] at hlocked
  cases hlocked

/-- The thread of a connection moves outside. -/
theorem Server.Guarded.thread_outside {c : Connection} (hs : s.Guarded) (hmain : s'.main = s.main)
    (hcleanup : s'.cleanup = s.cleanup) (hlock : s'.activeThreadsLock = s.activeThreadsLock)
    (hout : c.phase.locked = false) :
    Server.Guarded { s' with connections := s.connections.set i c } := by
  have hmono : ∀ h, Server.Inside { s' with connections := s.connections.set i c } h →
      s.Inside h := by
    intro h hinside
    by_cases hh : h = .thread (.connection i)
    · rw [hh] at hinside
      exact (not_inside_of_set hout hinside).elim
    · exact inside_of_set hinside hh hmain hcleanup
  unfold Server.Guarded
  rw [hlock]
  exact Mutex.Guarded.mono hs hmono

theorem Phase.Early.not_locked {p : Phase} (hp : p.Early) : p.locked = false := by
  cases p with
  | update => cases hp.1
  | unlock => cases hp.2
  | _ => rfl

theorem connectionStep_guarded {action : Action} (hs : s.Guarded)
    (hst : s.connectionStep order i action = some s') : s'.Guarded := by
  obtain ⟨c, c', s₁, hc, hacts, rfl⟩ := connectionStep_acts hst
  cases hacts with
  | received data hread =>
    exact hs.thread_outside rfl rfl rfl (Connection.received_early hread data).not_locked
  | wrote k hwrite =>
    exact hs.thread_outside rfl rfl rfl (Connection.wrote_early hwrite k).not_locked
  | merge j hphase => exact hs.thread_outside rfl rfl rfl (by split <;> rfl)
  | lock hphase hfree =>
    unfold Server.Guarded at hs
    rw [hfree] at hs
    -- the lock is free, so nobody is inside
    exact hs.acquire fun _ hne hin => inside_of_set hin hne rfl rfl
  | update hphase =>
    refine Mutex.Guarded.mono hs fun h hinside => ?_
    by_cases hh : h = .thread (.connection i)
    · rw [hh]
      exact ⟨c, hc, by rw [hphase]; rfl⟩
    · have hbody : (s.updateActiveThreads (-1)).Inside h := inside_of_set hinside hh rfl rfl
      exact updateActiveThreads_inside hbody
  | unlock hphase =>
    have hinside : s.Inside (.thread (.connection i)) := ⟨c, hc, by rw [hphase]; rfl⟩
    exact Mutex.Guarded.release hs hinside (not_inside_of_set rfl)
      fun _ hne hin => inside_of_set hin hne rfl rfl
  | print hphase => exact hs.thread_outside rfl rfl rfl rfl

/-- The handler moves, and nobody else. -/
theorem inside_of_cleanup (hinside : s'.Inside h) (hne : h ≠ .cleanup)
    (hmain : s'.main = s.main) (hconnections : s'.connections = s.connections) : s.Inside h := by
  rcases h with (- | i) | -
  · rwa [Inside, hmain] at hinside
  · rwa [Inside, hconnections] at hinside
  · exact absurd rfl hne

theorem not_inside_of_cleanup {t : Thread} {q : CleanupPhase} (hout : q.locked = false)
    (hinside : Server.Inside { s' with cleanup := some (t, q) } .cleanup) : False := by
  obtain ⟨t', q', hcleanup, hlocked⟩ := hinside
  cases hcleanup
  rw [hout] at hlocked
  cases hlocked

/-- The handler moves outside. -/
theorem Server.Guarded.cleanup_outside {t : Thread} {q : CleanupPhase} (hs : s.Guarded)
    (hmain : s'.main = s.main) (hconnections : s'.connections = s.connections)
    (hlock : s'.activeThreadsLock = s.activeThreadsLock) (hout : q.locked = false) :
    Server.Guarded { s' with cleanup := some (t, q) } := by
  have hmono : ∀ h, Server.Inside { s' with cleanup := some (t, q) } h → s.Inside h := by
    intro h hinside
    by_cases hh : h = .cleanup
    · rw [hh] at hinside
      exact (not_inside_of_cleanup hout hinside).elim
    · exact inside_of_cleanup hinside hh hmain hconnections
  unfold Server.Guarded
  rw [hlock]
  exact Mutex.Guarded.mono hs hmono

theorem cleanupStep_guarded {t : Thread} {p : CleanupPhase} (hs : s.Guarded)
    (hp : s.cleanup = some (t, p)) (hst : s.cleanupStep t p = some s') : s'.Guarded := by
  have hfree : ∀ {q}, (s.lock .cleanup).map (fun s => { s with cleanup := some (t, q) }) = some s' →
      s'.Guarded := by
    intro q hmap
    simp only [Option.map_eq_some_iff] at hmap
    obtain ⟨s₁, hlock, rfl⟩ := hmap
    obtain ⟨hnone, rfl⟩ := lock_eq_some hlock
    unfold Server.Guarded at hs
    rw [hnone] at hs
    exact hs.acquire fun _ hne hin => inside_of_cleanup hin hne rfl rfl
  -- the handler leaves to `q`
  have hout : ∀ {q : CleanupPhase}, p.locked = true → q.locked = false →
      Server.Guarded { s.unlock with cleanup := some (t, q) } := by
    intro q hlocked hq
    have hinside : s.Inside .cleanup := ⟨t, p, hp, hlocked⟩
    exact Mutex.Guarded.release hs hinside (not_inside_of_cleanup hq)
      fun _ hne hin => inside_of_cleanup hin hne rfl rfl
  cases p with
  | lock => exact hfree hst
  | test =>
    simp only [cleanupStep] at hst
    split at hst
    · cases hst
      exact hout rfl rfl
    · cases hst
      refine Mutex.Guarded.mono hs fun h hinside => ?_
      by_cases hh : h = .cleanup
      · rw [hh]
        exact ⟨t, .test, hp, rfl⟩
      · exact inside_of_cleanup hinside hh rfl rfl
  | wait woken =>
    cases woken with
    | false => cases hst
    | true => exact hfree hst
  | unlock =>
    cases hst
    exact hout rfl rfl
  | print =>
    cases hst
    exact hs.cleanup_outside rfl rfl rfl rfl
  | done => cases hst

/-- **At most one party is inside.** -/
theorem step_guarded {e : Event} (hs : s.Guarded) (hst : step order e s = some s') :
    s'.Guarded := by
  cases step_moves hst with
  | main hrun h => exact mainStep_guarded hs h
  | connection hrun h => exact connectionStep_guarded hs h
  | @sigint t s' hmain h =>
    simp only [sigintHandler] at h
    split at h
    · cases h
      exact hs.cleanup_outside rfl rfl rfl rfl
    · cases h
  | cleanup hmain hp h => exact cleanupStep_guarded hs hp h
  | @spurious s' hmain h =>
    simp only [spuriousStep] at h
    split at h
    · cases h
      refine Mutex.Guarded.mono hs fun h hinside => ?_
      by_cases hh : h = .cleanup
      · rw [hh] at hinside ⊢
        exact broadcast_inside hinside
      · exact inside_of_cleanup hinside hh rfl rfl
    · cases h

theorem reaches_guarded {P : Event → Server → Prop} (h : Runs.Reaches (step order) P start s) :
    s.Guarded :=
  h.invariant start_guarded fun _ _ _ hs _ hst => step_guarded hs hst

end Steps

/-! ## The condition -/

/-- SIGINT is delivered to the main thread, and not while it holds the lock. -/
def ToMain (e : Event) (s : Server) : Prop :=
  match e with
  | .sigint t => t = .main ∧ s.main.locked = false
  | _ => True

instance (e : Event) (s : Server) : Decidable (ToMain e s) := by
  unfold ToMain
  split <;> infer_instance

/-- When `cleanup` goes on to print, the signal has not come between `accept` and
`updateActiveThreads(1)`, `active_threads` is 0, which it is unless the wait has ended without a
broadcast, and no thread has its last `printf` ahead of it. -/
def Orderly (e : Event) (s : Server) : Prop :=
  match e, s.cleanup with
  | .cleanup, some (_, .unlock) =>
    s.main ≠ .lock ∧ s.activeThreads = 0 ∧ ∀ c ∈ s.connections, c.phase ≠ .print
  | _, _ => True

instance (e : Event) (s : Server) : Decidable (Orderly e s) := by
  unfold Orderly
  split <;> infer_instance

/-! ## Completeness -/

/-- `printCounters` and what comes behind it. -/
def CleanupPhase.printing : CleanupPhase → Bool
  | .print | .done => true
  | _ => false

/-- `cleanup` has reached `printCounters`. -/
def Server.Printing (s : Server) : Prop := ∃ t p, s.cleanup = some (t, p) ∧ p.printing = true

/-- Each accepted connection has its thread, no thread is running, and all their counters are
added. -/
structure Server.Complete (s : Server) : Prop where
  accepted : s.connections.length = s.accepted
  returned : ∀ c ∈ s.connections, c.phase = .returned
  merged : ∀ i, s.counters i = (s.connections.map fun c => c.localCounter i).sum

/-- The main thread has no connection in its hands, and does not get one any more. -/
def MainPhase.idle : MainPhase → Bool
  | .test | .accept | .returned => true
  | _ => false

/-- Once the signal is there, the main thread is under the handler; from `printCounters` on the
shutdown is complete. -/
structure Settled (s : Server) : Prop where
  handler : ∀ t p, s.cleanup = some (t, p) →
    t = .main ∧ s.sigintHappend = true ∧ s.main.locked = false
  complete : s.Printing → s.Complete ∧ s.main.idle = true

theorem start_settled : Settled start where
  handler := nofun
  complete := nofun

section Completeness

variable {order : ByteOrder} {s s' : Server} {i : Nat}

/-- The handler stays where it is, or is woken up. -/
def Follows (s s' : Server) : Prop :=
  s'.cleanup = s.cleanup ∨ s'.cleanup = broadcast s.cleanup

theorem broadcast_some {cleanup : Option (Thread × CleanupPhase)} {t : Thread} {p : CleanupPhase}
    (h : broadcast cleanup = some (t, p)) : ∃ q, cleanup = some (t, q) ∧ p = q.wake := by
  simp only [broadcast, Option.map_eq_some_iff, Prod.mk.injEq] at h
  obtain ⟨⟨t₀, q⟩, hcleanup, rfl, rfl⟩ := h
  exact ⟨q, hcleanup, rfl⟩

theorem CleanupPhase.wake_printing (p : CleanupPhase) : p.wake.printing = p.printing := by
  cases p <;> rfl

theorem Follows.handler (h : Follows s s') {t : Thread} {p : CleanupPhase}
    (hp : s'.cleanup = some (t, p)) :
    ∃ q, s.cleanup = some (t, q) ∧ p.printing = q.printing := by
  rcases h with hsame | hwoken
  · exact ⟨p, hsame ▸ hp, rfl⟩
  · rw [hwoken] at hp
    obtain ⟨q, hq, rfl⟩ := broadcast_some hp
    exact ⟨q, hq, q.wake_printing⟩

theorem Follows.printing (h : Follows s s') (hp : s'.Printing) : s.Printing := by
  obtain ⟨t, p, hcleanup, hprinting⟩ := hp
  obtain ⟨q, hq, heq⟩ := h.handler hcleanup
  exact ⟨t, q, hq, heq ▸ hprinting⟩

/-- Before `printCounters`, anything may happen to the rest. -/
theorem Settled.follow (hs : Settled s) (h : Follows s s') (hmain : s'.main = s.main)
    (hsigint : s'.sigintHappend = s.sigintHappend) (hnot : ¬ s.Printing) : Settled s' where
  handler t p hp := by
    obtain ⟨q, hq, -⟩ := h.handler hp
    rw [hsigint, hmain]
    exact hs.handler t q hq
  complete hp := absurd (h.printing hp) hnot

theorem Settled.of_none (h : s.cleanup = none) : Settled s where
  handler t p hp := by rw [h] at hp; cases hp
  complete hp := by
    obtain ⟨t, p, hcleanup, -⟩ := hp
    rw [h] at hcleanup
    cases hcleanup

theorem updateActiveThreads_follows (n : Int) : Follows s (s.updateActiveThreads n) := by
  show (if s.activeThreads + n = 0 then broadcast s.cleanup else s.cleanup) = s.cleanup ∨
    (if s.activeThreads + n = 0 then broadcast s.cleanup else s.cleanup) = broadcast s.cleanup
  split
  · exact Or.inr rfl
  · exact Or.inl rfl

theorem mainStep_follows {junk : Vector UInt8 UINT_LEN} (hst : s.mainStep junk = some s') :
    Follows s s' := by
  unfold mainStep at hst
  cases hmain : s.main with
  | accept =>
    simp only [hmain] at hst
    split at hst <;> cases hst <;> exact Or.inl rfl
  | lock =>
    simp only [hmain, Option.map_eq_some_iff] at hst
    obtain ⟨s₁, hlock, rfl⟩ := hst
    obtain ⟨-, rfl⟩ := lock_eq_some hlock
    exact Or.inl rfl
  | update =>
    simp only [hmain] at hst
    cases hst
    exact updateActiveThreads_follows 1
  | returned => simp [hmain] at hst
  | _ =>
    simp only [hmain] at hst
    cases hst
    exact Or.inl rfl

/-- Under a handler that is not done, the main thread does not move; behind it, it returns. -/
theorem mainStep_settled {junk : Vector UInt8 UINT_LEN} (hs : Settled s) (hrun : s.CanRun .main)
    (hst : s.mainStep junk = some s') : Settled s' := by
  cases hcleanup : s.cleanup with
  | none =>
    apply Settled.of_none
    rcases mainStep_follows hst with hsame | hwoken
    · rw [hsame, hcleanup]
    · rw [hwoken, hcleanup]
      rfl
  | some hp =>
    obtain ⟨t, p⟩ := hp
    obtain ⟨rfl, hsigint, hout⟩ := hs.handler t p hcleanup
    -- the main thread runs again, so the handler is done
    obtain rfl : p = .done := hrun.2 (.main, p) hcleanup rfl
    obtain ⟨hcomplete, hidle⟩ := hs.complete ⟨.main, .done, hcleanup, rfl⟩
    have hreturned : Settled { s with main := .returned } :=
      ⟨fun t p hp => ⟨(hs.handler t p hp).1, hsigint, rfl⟩,
        fun _ => ⟨⟨hcomplete.accepted, hcomplete.returned, hcomplete.merged⟩, rfl⟩⟩
    unfold mainStep at hst
    cases hmain : s.main with
    | test =>
      simp only [hmain] at hst
      cases hst
      rw [if_pos hsigint]
      exact hreturned
    | accept =>
      have hdestroyed : s.Destroyed := by
        rw [Destroyed, hcleanup]
        rfl
      simp only [hmain, if_pos hdestroyed] at hst
      cases hst
      exact hreturned
    | returned => simp [hmain] at hst
    | _ =>
      rw [hmain] at hidle
      cases hidle

/-- What a thread of a connection leaves alone, and that a returned one does nothing. -/
theorem Server.Acts.follows {c c' : Connection} (h : Acts order i c s c' s') :
    s'.main = s.main ∧ s'.sigintHappend = s.sigintHappend ∧ Follows s s' ∧
      c.phase ≠ .returned := by
  cases h with
  | received data hread =>
    refine ⟨rfl, rfl, Or.inl rfl, fun hphase => ?_⟩
    rw [hphase] at hread
    cases hread
  | wrote k hwrite =>
    refine ⟨rfl, rfl, Or.inl rfl, fun hphase => ?_⟩
    rw [hphase] at hwrite
    cases hwrite
  | merge j hphase => exact ⟨rfl, rfl, Or.inl rfl, by rw [hphase]; nofun⟩
  | lock hphase hfree => exact ⟨rfl, rfl, Or.inl rfl, by rw [hphase]; nofun⟩
  | update hphase => exact ⟨rfl, rfl, updateActiveThreads_follows (-1), by rw [hphase]; nofun⟩
  | unlock hphase => exact ⟨rfl, rfl, Or.inl rfl, by rw [hphase]; nofun⟩
  | print hphase => exact ⟨rfl, rfl, Or.inl rfl, by rw [hphase]; nofun⟩

theorem connectionStep_settled {action : Action} (hs : Settled s)
    (hst : s.connectionStep order i action = some s') : Settled s' := by
  obtain ⟨c, c', s₁, hc, hacts, rfl⟩ := connectionStep_acts hst
  obtain ⟨hmain, hsigint, hfollows, hrunning⟩ := hacts.follows
  -- once `cleanup` prints, no thread is running
  have hnot : ¬ s.Printing := fun hprinting =>
    hrunning ((hs.complete hprinting).1.returned c (List.mem_of_getElem? hc))
  exact hs.follow hfollows hmain hsigint hnot

/-- **An orderly shutdown is complete.** With `active_threads` at 0, all threads are finished;
none of them is inside the locked section, nor in its last `printf`. -/
theorem complete_of_orderly (hs : Counted order s) (hguarded : s.Guarded) {t : Thread}
    (hcleanup : s.cleanup = some (t, .unlock)) (hout : s.main.locked = false)
    (hlock : s.main ≠ .lock) (hzero : s.activeThreads = 0)
    (hprint : ∀ c ∈ s.connections, c.phase ≠ .print) : s.Complete ∧ s.main.idle = true := by
  obtain ⟨hcreating, hfinished⟩ := hs.all_finished hzero
  have hinside : s.Inside .cleanup := ⟨t, .unlock, hcleanup, rfl⟩
  have hreturned : ∀ c ∈ s.connections, c.phase = .returned := by
    intro c hc
    have hf : c.phase.deregistered = true := hfinished c hc
    cases hphase : c.phase with
    -- the handler holds the lock, so no thread is at its unlock
    | unlock =>
      obtain ⟨i, hi⟩ := List.getElem?_of_mem hc
      have hthread : s.Inside (.thread (.connection i)) := ⟨c, hi, by rw [hphase]; rfl⟩
      cases hguarded.exclusive hinside hthread
    | print => exact absurd hphase (hprint c hc)
    | returned => rfl
    | _ =>
      rw [hphase] at hf
      cases hf
  have hidle : s.main.idle = true := by
    cases hmain : s.main with
    | test => rfl
    | accept => rfl
    | returned => rfl
    | lock => exact absurd hmain hlock
    | create =>
      rw [hmain] at hcreating
      cases hcreating
    | _ =>
      rw [hmain] at hout
      cases hout
  have hregistering : s.main.registering = 0 := by
    cases hmain : s.main with
    | lock => exact absurd hmain hlock
    | update =>
      rw [hmain] at hout
      cases hout
    | _ => rfl
  refine ⟨⟨?_, hreturned, ?_⟩, hidle⟩
  · have hregistered := hs.registered
    have haccepted := hs.accepted
    omega
  · intro i
    rw [hs.counters i]
    exact congrArg List.sum
      (List.map_congr_left fun c hc => c.merged_of_finished (hfinished c hc) i)

theorem cleanupStep_settled {t : Thread} {p : CleanupPhase} (hs : Settled s)
    (hcounted : Counted order s) (hguarded : s.Guarded) (hp : s.cleanup = some (t, p))
    (horderly : Orderly .cleanup s) (hst : s.cleanupStep t p = some s') : Settled s' := by
  obtain ⟨hvictim, hsigint, hout⟩ := hs.handler t p hp
  have hhandler : ∀ {q : CleanupPhase}, ∀ t' p', some (t, q) = some (t', p') →
      t' = .main ∧ s.sigintHappend = true ∧ s.main.locked = false := by
    intro q t' p' hp'
    cases hp'
    exact ⟨hvictim, hsigint, hout⟩
  -- the handler goes on to `q`, before `printCounters`
  have hearly : ∀ {q : CleanupPhase} {lock : Option Holder}, q.printing = false →
      Settled { s with activeThreadsLock := lock, cleanup := some (t, q) } := by
    intro q lock hprinting
    refine ⟨hhandler, ?_⟩
    rintro ⟨t', p', hp', hprinting'⟩
    cases hp'
    rw [hprinting] at hprinting'
    cases hprinting'
  -- the handler goes on to `q`, with the shutdown complete
  have hlate : ∀ {q : CleanupPhase} {lock : Option Holder}, s.Complete ∧ s.main.idle = true →
      Settled { s with activeThreadsLock := lock, cleanup := some (t, q) } := by
    intro q lock hcomplete
    obtain ⟨⟨haccepted, hreturned, hmerged⟩, hidle⟩ := hcomplete
    exact ⟨hhandler, fun _ => ⟨⟨haccepted, hreturned, hmerged⟩, hidle⟩⟩
  cases p with
  | lock =>
    simp only [cleanupStep, Option.map_eq_some_iff] at hst
    obtain ⟨s₁, hlock, rfl⟩ := hst
    obtain ⟨-, rfl⟩ := lock_eq_some hlock
    exact hearly rfl
  | test =>
    simp only [cleanupStep] at hst
    split at hst <;> cases hst <;> exact hearly rfl
  | wait woken =>
    cases woken with
    | false => cases hst
    | true =>
      simp only [cleanupStep, if_true, Option.map_eq_some_iff] at hst
      obtain ⟨s₁, hlock, rfl⟩ := hst
      obtain ⟨-, rfl⟩ := lock_eq_some hlock
      exact hearly rfl
  | unlock =>
    cases hst
    unfold Orderly at horderly
    rw [hp] at horderly
    obtain ⟨hlock, hzero, hprint⟩ := horderly
    exact hlate (complete_of_orderly hcounted hguarded hp hout hlock hzero hprint)
  | print =>
    cases hst
    exact hlate (hs.complete ⟨t, .print, hp, rfl⟩)
  | done => cases hst

/-- **What an orderly step keeps.** -/
theorem step_settled {e : Event} (hs : Settled s) (hcounted : Counted order s)
    (hguarded : s.Guarded) (hmain : ToMain e s) (horderly : Orderly e s)
    (hst : step order e s = some s') : Settled s' := by
  cases step_moves hst with
  | main hrun h => exact mainStep_settled hs hrun h
  | connection hrun h => exact connectionStep_settled hs h
  | sigint halive h =>
    obtain ⟨rfl, hout⟩ := hmain
    simp only [sigintHandler] at h
    split at h
    · cases h
      constructor
      · intro t p hp
        cases hp
        exact ⟨rfl, rfl, hout⟩
      · rintro ⟨t, p, hp, hprinting⟩
        cases hp
        cases hprinting
    · cases h
  | cleanup halive hp h => exact cleanupStep_settled hs hcounted hguarded hp horderly h
  | spurious halive h =>
    simp only [spuriousStep] at h
    split at h
    · next t woken hwait =>
      cases h
      refine hs.follow (Or.inr rfl) rfl rfl ?_
      rintro ⟨t', p', hp', hprinting⟩
      rw [hwait] at hp'
      cases hp'
      cases hprinting
    · cases h

/-- What a run keeps whose steps are orderly, with the signal at the main thread. -/
theorem reaches_settled
    (h : Runs.Reaches (step order) (fun e s => ToMain e s ∧ Orderly e s) start s) : Settled s := by
  have hall : Counted order s ∧ s.Guarded ∧ Settled s := by
    apply h.invariant (I := fun s => Counted order s ∧ s.Guarded ∧ Settled s)
    · exact ⟨start_counted, start_guarded, start_settled⟩
    · rintro e t u ⟨hcounted, hguarded, hs⟩ ⟨hmain, horderly⟩ hst
      exact ⟨step_counted hcounted hst, step_guarded hguarded hst,
        step_settled hs hcounted hguarded hmain horderly hst⟩
  exact hall.2.2

/-- A shutdown that is complete has come from an orderly step. -/
theorem orderly_of_complete {e : Event} (hs : Counted order s) (hst : step order e s = some s')
    (hnot : ¬ Orderly e s) : s'.Printing ∧ ¬ s'.Complete := by
  unfold Orderly at hnot
  split at hnot
  · next t hcleanup =>
    have hnext : s' = { s.unlock with cleanup := some (t, .print) } := by
      cases step_moves hst with
      | cleanup halive hp h =>
        rw [hcleanup] at hp
        cases hp
        cases h
        rfl
    refine ⟨⟨t, .print, by rw [hnext], rfl⟩, fun hcomplete => hnot ?_⟩
    rw [hnext] at hcomplete
    obtain ⟨haccepted, hreturned, -⟩ := hcomplete
    change s.connections.length = s.accepted at haccepted
    change ∀ c ∈ s.connections, c.phase = .returned at hreturned
    -- all threads have returned, so nothing is active, and all accepted connections have one
    have hfinished : s.connections.countP Connection.finished = s.connections.length := by
      apply List.countP_eq_length.mpr
      intro c hc
      rw [Connection.finished, hreturned c hc]
      rfl
    have hactive := hs.active
    have hregistered := hs.registered
    have haccepted' := hs.accepted
    refine ⟨fun hlock => ?_, by omega, fun c hc hprint => ?_⟩
    · have hone : s.main.registering = 1 := by
        rw [hlock]
        rfl
      omega
    · rw [hreturned c hc] at hprint
      cases hprint
  · exact absurd trivial hnot

/-- **Shutdown.** With the signal at the main thread: in a run of orderly steps, the shutdown is
complete from `printCounters` on; and a step that is not orderly goes on to print without it. -/
theorem shutdown_complete_iff (order : ByteOrder) :
    (∀ s, Runs.Reaches (step order) (fun e s => ToMain e s ∧ Orderly e s) start s →
      s.Printing → s.Complete) ∧
    ∀ s e s', Runs.Reaches (step order) ToMain start s → ToMain e s → step order e s = some s' →
      ¬ Orderly e s → s'.Printing ∧ ¬ s'.Complete := by
  constructor
  · intro s hs hprinting
    exact ((reaches_settled hs).complete hprinting).1
  · intro s e s' hs _ hst hnot
    exact orderly_of_complete (reaches_counted hs) hst hnot

end Completeness

/-- Two clients are served, and the signal comes in the next `accept`. -/
theorem shutdown_orderly : ∃ s, Runs.Reaches (step .little)
    (fun e s => ToMain e s ∧ Orderly e s) start s ∧ s.accepted = 2 ∧ s.Printing ∧ s.Complete := by
  have hrun : (Runs.run
      (fun e s => if ToMain e s ∧ Orderly e s then step .little e s else none)
      (alternating ++ [.main (.replicate 4 0), .sigint .main, .cleanup, .cleanup, .cleanup])
      start).map (fun s => (s.accepted, s.cleanup)) =
      some (2, some (.main, .print)) := by decide +kernel
  obtain ⟨s, hs, heq⟩ := Option.map_eq_some_iff.mp hrun
  obtain ⟨haccepted, hcleanup⟩ := Prod.mk.inj heq
  have hreach := Runs.reaches_of_run_allowed hs
  have hprinting : s.Printing := ⟨.main, .print, hcleanup, rfl⟩
  exact ⟨s, hreach, haccepted, hprinting, (shutdown_complete_iff .little).1 s hreach hprinting⟩

/-- The signal comes behind the first `accept`: nothing is active, and the connection is lost. -/
theorem shutdown_incomplete : ∃ s, Runs.Reaches (step .little) ToMain start s ∧
    s.Printing ∧ ¬ s.Complete := by
  have hrun : (Runs.run (fun e s => if ToMain e s then step .little e s else none)
      [.main (.replicate 4 0), .main (.replicate 4 0), .sigint .main, .cleanup, .cleanup, .cleanup]
      start).map (fun s => (s.accepted, s.connections.length, s.cleanup)) =
      some (1, 0, some (.main, .print)) := by decide
  obtain ⟨s, hs, heq⟩ := Option.map_eq_some_iff.mp hrun
  simp only [Prod.mk.injEq] at heq
  obtain ⟨haccepted, hnone, hcleanup⟩ := heq
  refine ⟨s, Runs.reaches_of_run_allowed hs, ⟨.main, .print, hcleanup, rfl⟩, fun hcomplete => ?_⟩
  have hall := hcomplete.accepted
  omega

end OsHw.Ex5
