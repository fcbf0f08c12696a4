import OsHw.Ex5.Shutdown

/-!
# OsHw — what every run of `pcc_server` keeps

Mutual exclusion says that at most one party is between lock and unlock; here is what else ties
the lock, the handler and the threads together.

* **`step_owned`** — whoever owns the lock is between lock and unlock.
* **`Signals`** — what the step of a thread does to the handler: it wakes it when
  `active_threads` becomes 0, and only then.
* **`Sound`** — the invariant: with the above, a handler that waits is waiting for someone.
* **`thread_step`** — while the handler runs on top of a thread, that thread is **`Frozen`**.
-/

namespace OsHw.Ex5

open Server

section Steps

variable {order : ByteOrder} {s s' : Server} {i : Nat} {h : Holder} {t : Thread}

/-! ## The owner of the lock -/

/-- A broadcast leaves the handler where it is. -/
theorem inside_broadcast {cleanup : Option (Thread × CleanupPhase)}
    (h : ∃ t p, cleanup = some (t, p) ∧ p.locked = true) :
    ∃ t p, broadcast cleanup = some (t, p) ∧ p.locked = true := by
  obtain ⟨t, p, rfl, hlocked⟩ := h
  exact ⟨t, p.wake, rfl, by rwa [CleanupPhase.wake_locked]⟩

theorem inside_updateActiveThreads {n : Int} (hinside : s.Inside h) :
    (s.updateActiveThreads n).Inside h := by
  rcases h with (- | i) | -
  · exact hinside
  · exact hinside
  · unfold Inside updateActiveThreads
    dsimp only
    split
    · exact inside_broadcast hinside
    · exact hinside

/-- The main thread is not inside, and moves. -/
theorem owned_of_main (hs : Mutex.Owned s.Inside s.activeThreadsLock)
    (hlock : s'.activeThreadsLock = s.activeThreadsLock) (hout : s.main.locked = false)
    (hconnections : ∀ (i : Nat) c, s.connections[i]? = some c → s'.connections[i]? = some c)
    (hcleanup : s'.cleanup = s.cleanup) : Mutex.Owned s'.Inside s'.activeThreadsLock := by
  rw [hlock]
  refine hs.mono fun h hinside => ?_
  rcases h with (- | i) | -
  · rw [Inside, hout] at hinside
    cases hinside
  · obtain ⟨c, hc, hlocked⟩ := hinside
    exact ⟨c, hconnections i c hc, hlocked⟩
  · rwa [Inside, hcleanup]

theorem mainStep_owned {junk : Vector UInt8 UINT_LEN}
    (hs : Mutex.Owned s.Inside s.activeThreadsLock) (hst : s.mainStep junk = some s') :
    Mutex.Owned s'.Inside s'.activeThreadsLock := by
  unfold mainStep at hst
  cases hmain : s.main with
  | test =>
    simp only [hmain] at hst
    cases hst
    exact owned_of_main hs rfl (by rw [hmain]; rfl) (fun _ _ hc => hc) rfl
  | accept =>
    have hout : s.main.locked = false := by rw [hmain]; rfl
    simp only [hmain] at hst
    split at hst <;> cases hst <;> exact owned_of_main hs rfl hout (fun _ _ hc => hc) rfl
  | lock =>
    simp only [hmain, Option.map_eq_some_iff] at hst
    obtain ⟨s₁, hlock, rfl⟩ := hst
    obtain ⟨-, rfl⟩ := lock_eq_some hlock
    exact .acquire rfl
  | update =>
    simp only [hmain] at hst
    cases hst
    refine hs.mono fun h hinside => ?_
    rcases h with (- | i) | -
    · rfl
    · exact hinside
    · exact inside_updateActiveThreads (h := .cleanup) (n := 1) hinside
  | unlock =>
    simp only [hmain] at hst
    cases hst
    exact .of_free
  | create =>
    simp only [hmain] at hst
    cases hst
    refine owned_of_main hs rfl (by rw [hmain]; rfl) (fun i c hc => ?_) rfl
    obtain ⟨hlt, -⟩ := List.getElem?_eq_some_iff.mp hc
    rw [List.getElem?_append_left hlt, hc]
  | returned => simp [hmain] at hst

/-- The thread of a connection moves; the others stay. -/
theorem owned_of_set {c c' : Connection} (hs : Mutex.Owned s.Inside s.activeThreadsLock)
    (hlock : s'.activeThreadsLock = s.activeThreadsLock) (hc : s.connections[i]? = some c)
    (hkeep : c.phase.locked = true → c'.phase.locked = true) (hmain : s'.main = s.main)
    (hcleanup : s.Inside .cleanup → s'.Inside .cleanup) :
    Mutex.Owned (Server.Inside { s' with connections := s.connections.set i c' })
      s'.activeThreadsLock := by
  rw [hlock]
  refine hs.mono fun h hinside => ?_
  rcases h with (- | j) | -
  · show s'.main.locked = true
    rwa [hmain]
  · obtain ⟨d, hd, hlocked⟩ := hinside
    by_cases hij : i = j
    · subst hij
      rw [hc] at hd
      cases hd
      obtain ⟨hlt, -⟩ := List.getElem?_eq_some_iff.mp hc
      exact ⟨c', List.getElem?_set_self hlt, hkeep hlocked⟩
    · exact ⟨d, by rw [← hd]; exact List.getElem?_set_ne hij, hlocked⟩
  · exact hcleanup hinside

theorem connectionStep_owned {action : Action} (hs : Mutex.Owned s.Inside s.activeThreadsLock)
    (hst : s.connectionStep order i action = some s') :
    Mutex.Owned s'.Inside s'.activeThreadsLock := by
  obtain ⟨c, c', s₁, hc, hacts, rfl⟩ := connectionStep_acts hst
  -- a thread that is not inside may do what it likes
  have houtside : c.phase.locked = false → c.phase.locked = true → c'.phase.locked = true := by
    intro hout hlocked
    rw [hout] at hlocked
    cases hlocked
  cases hacts with
  | received data hread =>
    have hout := (Phase.early_of_open hread).not_locked
    exact owned_of_set hs rfl hc (houtside hout) rfl id
  | wrote k hwrite =>
    have hout := (Phase.early_of_open hwrite).not_locked
    exact owned_of_set hs rfl hc (houtside hout) rfl id
  | merge j hphase => exact owned_of_set hs rfl hc (houtside (by rw [hphase]; rfl)) rfl id
  | lock hphase hfree =>
    obtain ⟨hlt, -⟩ := List.getElem?_eq_some_iff.mp hc
    exact .acquire ⟨_, List.getElem?_set_self hlt, rfl⟩
  | update hphase =>
    exact owned_of_set hs rfl hc (fun _ => rfl) rfl inside_updateActiveThreads
  | unlock hphase => exact .of_free
  | print hphase => exact owned_of_set hs rfl hc (houtside (by rw [hphase]; rfl)) rfl id

/-- The handler moves; the threads stay. -/
theorem owned_of_cleanup {cleanup : Option (Thread × CleanupPhase)}
    (hs : Mutex.Owned s.Inside s.activeThreadsLock)
    (hkeep : s.Inside .cleanup → ∃ t p, cleanup = some (t, p) ∧ p.locked = true) :
    Mutex.Owned (Server.Inside { s with cleanup := cleanup }) s.activeThreadsLock := by
  refine hs.mono fun h hinside => ?_
  rcases h with (- | j) | -
  · exact hinside
  · exact hinside
  · exact hkeep hinside

theorem cleanupStep_owned {p : CleanupPhase} (hs : Mutex.Owned s.Inside s.activeThreadsLock)
    (hp : s.cleanup = some (t, p)) (hst : s.cleanupStep t p = some s') :
    Mutex.Owned s'.Inside s'.activeThreadsLock := by
  have hlock : ∀ {q : CleanupPhase}, q.locked = true →
      (s.lock .cleanup).map (fun s => { s with cleanup := some (t, q) }) = some s' →
      Mutex.Owned s'.Inside s'.activeThreadsLock := by
    intro q hq hmap
    obtain ⟨s₁, hlock, rfl⟩ := Option.map_eq_some_iff.mp hmap
    obtain ⟨-, rfl⟩ := lock_eq_some hlock
    exact .acquire ⟨t, q, rfl, hq⟩
  cases p with
  | lock => exact hlock rfl hst
  | test =>
    simp only [cleanupStep] at hst
    split at hst
    · cases hst
      exact .of_free
    · cases hst
      exact owned_of_cleanup hs fun _ => ⟨t, .unlock, rfl, rfl⟩
  | wait woken =>
    cases woken with
    | false => cases hst
    | true => exact hlock rfl hst
  | unlock =>
    cases hst
    exact .of_free
  | print =>
    cases hst
    refine owned_of_cleanup hs ?_
    rintro ⟨t', p', hcleanup, hlocked⟩
    rw [hp] at hcleanup
    cases hcleanup
    cases hlocked
  | done => cases hst

/-- **The owner of the lock is inside.** -/
theorem step_owned {e : Event} (hs : Mutex.Owned s.Inside s.activeThreadsLock)
    (hst : step order e s = some s') : Mutex.Owned s'.Inside s'.activeThreadsLock := by
  cases step_moves hst with
  | main hrun h => exact mainStep_owned hs h
  | connection hrun h => exact connectionStep_owned hs h
  | @sigint t s' hmain h =>
    simp only [sigintHandler] at h
    split at h
    · next hnone =>
      cases h
      refine owned_of_cleanup (s := { s with sigintHappend := true }) (hs.mono ?_) ?_
      · intro h hinside
        rcases h with (- | j) | - <;> exact hinside
      · rintro ⟨t', p', hcleanup, -⟩
        have hnone' : s.cleanup = some (t', p') := hcleanup
        rw [hnone.1] at hnone'
        cases hnone'
    · cases h
  | cleanup hmain hp h => exact cleanupStep_owned hs hp h
  | @spurious s' hmain h =>
    simp only [spuriousStep] at h
    split at h
    · cases h
      exact owned_of_cleanup hs inside_broadcast
    · cases h

/-! ## What every run keeps -/

/-- The loops of `connectionMain` stay within their bounds. -/
def Phase.Bounded : Phase → Prop
  | .readN bytesRead => bytesRead < UINT_LEN
  | .sendC written => written < UINT_LEN
  | .merge i => i < PRINTABLES_LEN
  | _ => True

theorem Server.Acts.bounded {c c' : Connection} (h : Acts order i c s c' s')
    (hc : c.phase.Bounded) : c'.phase.Bounded := by
  cases h with
  | received data hread =>
    obtain ⟨phase, charC, N, totalRead, totalPrintable, localCounter, processed, sent⟩ := c
    cases phase with
    | readN bytesRead =>
      dsimp only [Connection.received]
      split
      · next hmore => exact hmore.1
      · trivial
    | readStream =>
      dsimp only [Connection.received]
      split
      · trivial
      · show 0 < UINT_LEN
        decide
    | _ => exact hc
  | wrote k hwrite =>
    obtain ⟨phase, charC, N, totalRead, totalPrintable, localCounter, processed, sent⟩ := c
    cases phase with
    | sendC written =>
      dsimp only [Connection.wrote]
      split
      · next hmore => exact hmore
      · show 0 < PRINTABLES_LEN
        decide
    | _ => exact hc
  | merge j hphase =>
    dsimp only
    split
    · next hmore => exact hmore
    · trivial
  | _ => trivial

/-- What the step of a thread does to the handler: it wakes it when `active_threads` becomes 0,
and only then. -/
def Signals (s s' : Server) : Prop :=
  (s'.cleanup = s.cleanup ∧ (s'.activeThreads = s.activeThreads ∨ s'.activeThreads ≠ 0)) ∨
    (s'.cleanup = broadcast s.cleanup ∧ s'.activeThreads = 0)

theorem updateActiveThreads_signals (n : Int) : Signals s (s.updateActiveThreads n) := by
  unfold Signals updateActiveThreads
  dsimp only
  by_cases hzero : s.activeThreads + n = 0
  · rw [if_pos hzero]
    exact Or.inr ⟨rfl, hzero⟩
  · rw [if_neg hzero]
    exact Or.inl ⟨rfl, Or.inr hzero⟩

theorem mainStep_signals {junk : Vector UInt8 UINT_LEN} (hst : s.mainStep junk = some s') :
    Signals s s' := by
  have hquiet : ∀ {u : Server}, u.cleanup = s.cleanup → u.activeThreads = s.activeThreads →
      Signals s u := fun hcleanup hactive => Or.inl ⟨hcleanup, Or.inl hactive⟩
  unfold mainStep at hst
  cases hmain : s.main with
  | accept =>
    simp only [hmain] at hst
    split at hst <;> cases hst <;> exact hquiet rfl rfl
  | lock =>
    simp only [hmain, Option.map_eq_some_iff] at hst
    obtain ⟨s₁, hlock, rfl⟩ := hst
    obtain ⟨-, rfl⟩ := lock_eq_some hlock
    exact hquiet rfl rfl
  | update =>
    simp only [hmain] at hst
    cases hst
    exact updateActiveThreads_signals 1
  | returned => simp [hmain] at hst
  | _ =>
    simp only [hmain] at hst
    cases hst
    exact hquiet rfl rfl

theorem Server.Acts.signals {c c' : Connection} (h : Acts order i c s c' s') : Signals s s' := by
  cases h with
  | update hphase => exact updateActiveThreads_signals (-1)
  | _ => exact Or.inl ⟨rfl, Or.inl rfl⟩

/-- **What every run keeps.** -/
structure Sound (order : ByteOrder) (s : Server) : Prop where
  counted : Counted order s
  guarded : s.Guarded
  owned : Mutex.Owned s.Inside s.activeThreadsLock
  waiting : ∀ t, s.cleanup = some (t, .wait false) → s.activeThreads ≠ 0
  bounded : ∀ c ∈ s.connections, c.phase.Bounded

theorem start_sound : Sound order start where
  counted := start_counted
  guarded := start_guarded
  owned := .of_free
  waiting t ht := by cases ht
  bounded c hc := by cases hc

/-- A thread does not leave the handler waiting for nobody. -/
theorem Signals.waiting (h : Signals s s') (hs : s.cleanup = some (t, .wait false) →
    s.activeThreads ≠ 0) (hwait : s'.cleanup = some (t, .wait false)) : s'.activeThreads ≠ 0 := by
  rcases h with ⟨hcleanup, hsame | hne⟩ | ⟨hcleanup, -⟩
  · rw [hsame]
    exact hs (hcleanup ▸ hwait)
  · exact hne
  · rw [hcleanup] at hwait
    obtain ⟨q, -, hq⟩ := broadcast_some hwait
    cases q <;> cases hq

theorem step_waiting {e : Event} (hst : step order e s = some s')
    (hs : ∀ t, s.cleanup = some (t, .wait false) → s.activeThreads ≠ 0) :
    ∀ t, s'.cleanup = some (t, .wait false) → s'.activeThreads ≠ 0 := by
  intro t hwait
  cases step_moves hst with
  | main hrun h => exact (mainStep_signals h).waiting (hs t) hwait
  | connection hrun h =>
    obtain ⟨c, c', s₁, hc, hacts, rfl⟩ := connectionStep_acts h
    exact hacts.signals.waiting (hs t) hwait
  | sigint hmain h =>
    simp only [sigintHandler] at h
    split at h <;> cases h
    cases hwait
  | @cleanup t' p s' hmain hp h =>
    cases p with
    | test =>
      simp only [cleanupStep] at h
      split at h
      · next hne =>
        cases h
        exact hne
      · cases h
        cases hwait
    | lock =>
      obtain ⟨s₁, -, rfl⟩ := Option.map_eq_some_iff.mp h
      cases hwait
    | wait woken =>
      cases woken with
      | false => cases h
      | true =>
        obtain ⟨s₁, -, rfl⟩ := Option.map_eq_some_iff.mp h
        cases hwait
    | done => cases h
    | _ =>
      cases h
      cases hwait
  | spurious hmain h =>
    simp only [spuriousStep] at h
    split at h
    · next hw =>
      cases h
      obtain ⟨q, -, hq⟩ := broadcast_some hwait
      cases q <;> cases hq
    · cases h

theorem step_bounded {e : Event} (hst : step order e s = some s')
    (hs : ∀ c ∈ s.connections, c.phase.Bounded) : ∀ c ∈ s'.connections, c.phase.Bounded := by
  cases step_moves hst with
  | main hrun h =>
    unfold mainStep at h
    cases hmain : s.main with
    | accept =>
      simp only [hmain] at h
      split at h <;> cases h <;> exact hs
    | lock =>
      simp only [hmain, Option.map_eq_some_iff] at h
      obtain ⟨s₁, hlock, rfl⟩ := h
      obtain ⟨-, rfl⟩ := lock_eq_some hlock
      exact hs
    | create =>
      simp only [hmain] at h
      cases h
      refine List.forall_mem_append.mpr ⟨hs, List.forall_mem_singleton.mpr ?_⟩
      show 0 < UINT_LEN
      decide
    | returned => simp [hmain] at h
    | _ =>
      simp only [hmain] at h
      cases h
      exact hs
  | connection hrun h =>
    obtain ⟨c, c', s₁, hc, hacts, rfl⟩ := connectionStep_acts h
    intro d hd
    rcases List.mem_or_eq_of_mem_set hd with hd | rfl
    · exact hs d hd
    · exact hacts.bounded (hs c (List.mem_of_getElem? hc))
  | sigint hmain h =>
    obtain ⟨lock, sigint, cleanup, rfl⟩ := sigintHandler_untouched h
    exact hs
  | cleanup hmain hp h =>
    obtain ⟨lock, sigint, cleanup, rfl⟩ := cleanupStep_untouched h
    exact hs
  | spurious hmain h =>
    obtain ⟨lock, sigint, cleanup, rfl⟩ := spuriousStep_untouched h
    exact hs

theorem step_sound {e : Event} (hs : Sound order s) (hst : step order e s = some s') :
    Sound order s' where
  counted := step_counted hs.counted hst
  guarded := step_guarded hs.guarded hst
  owned := step_owned hs.owned hst
  waiting := step_waiting hst hs.waiting
  bounded := step_bounded hst hs.bounded

theorem reaches_sound {P : Event → Server → Prop} (h : Runs.Reaches (step order) P start s) :
    Sound order s :=
  h.invariant start_sound fun _ _ _ hs _ hst => step_sound hs hst

/-! ## The interrupted thread -/

/-- Where the thread is in its code. -/
def Server.At (t : Thread) (P : MainPhase → Prop) (Q : Phase → Prop) (s : Server) : Prop :=
  match t with
  | .main => P s.main
  | .connection i => ∃ c, s.connections[i]? = some c ∧ Q c.phase

variable {P : MainPhase → Prop} {Q : Phase → Prop}

/-- The thread is where it was. -/
def Frozen (t : Thread) (s s' : Server) : Prop :=
  match t with
  | .main => s'.main = s.main
  | .connection i => ∀ c, s.connections[i]? = some c → s'.connections[i]? = some c

theorem Frozen.at (h : Frozen t s s') (hat : s.At t P Q) : s'.At t P Q := by
  cases t with
  | main =>
    have hmain : s'.main = s.main := h
    rwa [At, hmain]
  | connection i =>
    obtain ⟨c, hc, hQ⟩ := hat
    exact ⟨c, h c hc, hQ⟩

theorem inside_iff_at :
    s.Inside (.thread t) ↔ s.At t (·.locked = true) (·.locked = true) := by
  cases t <;> rfl

/-- The thread is not between lock and unlock. -/
abbrev Server.Outside (t : Thread) (s : Server) : Prop :=
  s.At t (·.locked = false) (·.locked = false)

theorem Outside.not_inside (h : s.Outside t) : ¬ s.Inside (.thread t) := by
  intro hinside
  cases t with
  | main =>
    have hout : s.main.locked = false := h
    have hin : s.main.locked = true := hinside
    rw [hout] at hin
    cases hin
  | connection i =>
    obtain ⟨c, hc, hout⟩ := h
    obtain ⟨d, hd, hin⟩ := hinside
    rw [hc] at hd
    cases hd
    rw [hout] at hin
    cases hin

/-- The event is a step of a thread. -/
def Event.OfThread : Event → Prop
  | .main _ | .connection _ _ => True
  | _ => False

/-- The step of another thread: it leaves the interrupted one where it is, and signals. -/
theorem thread_step {e : Event} {p : CleanupPhase} (hp : s.cleanup = some (t, p))
    (hdone : p ≠ .done) (hst : step order e s = some s') (he : e.OfThread) :
    Frozen t s s' ∧ Signals s s' := by
  cases step_moves hst with
  | main hrun h =>
    refine ⟨?_, mainStep_signals h⟩
    cases t with
    | main => exact absurd (hrun.2 _ hp rfl) hdone
    | connection i =>
      intro c hc
      unfold mainStep at h
      cases hmain : s.main with
      | accept =>
        simp only [hmain] at h
        split at h <;> cases h <;> exact hc
      | lock =>
        simp only [hmain, Option.map_eq_some_iff] at h
        obtain ⟨s₁, hlock, rfl⟩ := h
        obtain ⟨-, rfl⟩ := lock_eq_some hlock
        exact hc
      | create =>
        simp only [hmain] at h
        cases h
        obtain ⟨hlt, -⟩ := List.getElem?_eq_some_iff.mp hc
        rw [List.getElem?_append_left hlt, hc]
      | returned => simp [hmain] at h
      | _ =>
        simp only [hmain] at h
        cases h
        exact hc
  | @connection j action s' hrun h =>
    obtain ⟨c, c', s₁, hc, hacts, rfl⟩ := connectionStep_acts h
    refine ⟨?_, hacts.signals⟩
    cases t with
    | main => exact hacts.follows.1
    | connection i =>
      intro d hd
      have hij : j ≠ i := by
        rintro rfl
        exact hdone (hrun.2 _ hp rfl)
      rw [← hd]
      exact List.getElem?_set_ne hij
  | _ => cases he

/-- The thread counts in `active_threads`, or is about to create one that does. -/
abbrev Server.Counts (t : Thread) (s : Server) : Prop :=
  s.At t (·.creating = 1) (·.deregistered = false)

theorem Sound.active_ne_zero (hs : Sound order s) (hcounts : s.Counts t) :
    s.activeThreads ≠ 0 := by
  intro hzero
  obtain ⟨hcreating, hfinished⟩ := hs.counted.all_finished hzero
  cases t with
  | main =>
    have hone : s.main.creating = 1 := hcounts
    omega
  | connection i =>
    obtain ⟨c, hc, hout⟩ := hcounts
    have hf : c.phase.deregistered = true := hfinished c (List.mem_of_getElem? hc)
    rw [hout] at hf
    cases hf

end Steps

end OsHw.Ex5
