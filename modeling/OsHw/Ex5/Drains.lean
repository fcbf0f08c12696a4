import OsHw.Ex5.Sound

/-!
# OsHw — the threads of `pcc_server` can be run to their ends

Under a handler, whatever the state of the other threads: as long as their clients send data,
they can go on until they have returned.

* **`Draining`** — the steps by which they do, a byte at a time; `Server.work` decreases with each.
* **`Drains`** — what such steps keep: the thread below the handler and the handler itself stand
  where they stood.
* **`Drains.ended`** — where no such step is possible, the lock is free and the others have
  returned.
-/

namespace OsHw.Ex5

open Server

/-- How a run may go on: the clients send data, and a wait returns after a broadcast only. -/
def Fed (e : Event) (_ : Server) : Prop :=
  match e with
  | .connection _ (.read data) => data ≠ []
  | .spurious => False
  | _ => True

section Steps

variable {order : ByteOrder} {s s' : Server} {i : Nat} {t : Thread}

/-! ## Steps -/

/-- The steps with which the threads finish what they have begun: each call on a socket moves one
byte, and the main thread accepts nothing more. -/
def Draining (e : Event) (s : Server) : Prop :=
  match e with
  | .main _ => s.main.locked = true ∨ s.main.creating = 1
  | .connection _ (.read data) => data.length = 1
  | .connection _ (.write k) => k = 1
  | .connection _ .proceed => True
  | _ => False

theorem Draining.fed {e : Event} (h : Draining e s) : Fed e s := by
  cases e with
  | connection i action =>
    cases action with
    | read data =>
      rintro rfl
      cases h
    | _ => trivial
  | spurious => exact h
  | _ => trivial

theorem Draining.ofThread {e : Event} (h : Draining e s) : e.OfThread := by
  cases e with
  | main junk => trivial
  | connection i action => trivial
  | _ => cases h

/-! ## Work -/

/-- What a connection has ahead of it. One byte at a time, the loop of `connectionMain` ends when
`totalRead` has come around to `N`. -/
def Connection.work (c : Connection) : Nat :=
  match c.phase with
  | .readN bytesRead => 2 ^ 32 + 200 + (UINT_LEN - bytesRead)
  | .readStream => (c.N - 1 - c.totalRead).toNat + 200
  | .sendC written => 110 + (UINT_LEN - written)
  | .merge i => 10 + (PRINTABLES_LEN - i)
  | .lock => 4
  | .update => 3
  | .unlock => 2
  | .print => 1
  | .returned => 0

/-- What the main thread has ahead of it until its loop test, with the connection it creates. -/
def MainPhase.work : MainPhase → Nat
  | .update => 2 ^ 32 + 302
  | .unlock => 2 ^ 32 + 301
  | .create => 2 ^ 32 + 300
  | _ => 0

def Server.work (s : Server) : Nat := s.main.work + (s.connections.map Connection.work).sum

/-- A counter below `N` is one step closer to it than before, also across the wrap-around. -/
theorem sub_toNat_lt {N n : BitVec 32} (h : (n + 1).ult N = true) :
    (N - 1 - (n + 1)).toNat < (N - 1 - n).toNat := by
  have hlt : n + 1 < N := by simpa only [BitVec.ult_iff_lt] using h
  bv_omega

theorem received_work {c : Connection} {data : List UInt8} (hdata : data.length = 1)
    (hbounded : c.phase.Bounded) {want : Nat} (hrequest : c.request = some want) :
    (c.received order data).work < c.work := by
  have hlen : UINT_LEN = 4 := rfl
  obtain ⟨phase, charC, N, totalRead, totalPrintable, localCounter, processed, sent⟩ := c
  cases phase with
  | readN bytesRead =>
    have hlt : bytesRead < 4 := hbounded
    unfold Connection.received
    dsimp only
    split
    · show 2 ^ 32 + 200 + (UINT_LEN - (bytesRead + data.length)) <
        2 ^ 32 + 200 + (UINT_LEN - bytesRead)
      omega
    · have hword := (order.decode (store charC bytesRead data) - 1 - totalRead).isLt
      show (order.decode (store charC bytesRead data) - 1 - totalRead).toNat + 200 <
        2 ^ 32 + 200 + (UINT_LEN - bytesRead)
      omega
  | readStream =>
    unfold Connection.received
    simp only [hdata]
    split
    · next hmore =>
      have hlt := sub_toNat_lt hmore.1
      show (N - 1 - (totalRead + 1)).toNat + 200 < (N - 1 - totalRead).toNat + 200
      omega
    · show 110 + (UINT_LEN - 0) < (N - 1 - totalRead).toNat + 200
      omega
  | _ => cases hrequest

theorem connectionMain_work {action : Action} {c c' : Connection}
    (h : connectionMain order i action c s = some (c', s')) (hbounded : c.phase.Bounded)
    (hdrain : Draining (.connection i action) s) : c'.work < c.work := by
  have hlen : UINT_LEN = 4 := rfl
  have hprintables : PRINTABLES_LEN = 95 := rfl
  cases action with
  | read data =>
    simp only [connectionMain] at h
    split at h
    · next want hrequest =>
      split at h
      · cases h
        exact received_work hdrain hbounded hrequest
      · cases h
    · cases h
  | write k =>
    obtain rfl : k = 1 := hdrain
    simp only [connectionMain] at h
    split at h
    · next hk =>
      cases h
      obtain ⟨phase, charC, N, totalRead, totalPrintable, localCounter, processed, sent⟩ := c
      cases phase with
      | sendC written =>
        have hlt : written < 4 := hbounded
        unfold Connection.wrote
        dsimp only
        split
        · show 110 + (UINT_LEN - (written + 1)) < 110 + (UINT_LEN - written)
          omega
        · show 10 + (PRINTABLES_LEN - 0) < 110 + (UINT_LEN - written)
          omega
      | _ => simp [Connection.outgoing] at hk
    · cases h
  | proceed =>
    obtain ⟨phase, charC, N, totalRead, totalPrintable, localCounter, processed, sent⟩ := c
    cases phase with
    | merge j =>
      simp only [connectionMain] at h
      split at h
      · next hj =>
        cases h
        by_cases hmore : j + 1 < PRINTABLES_LEN
        · simp only [hmore, if_true]
          show 10 + (PRINTABLES_LEN - (j + 1)) < 10 + (PRINTABLES_LEN - j)
          omega
        · simp only [hmore, if_false]
          show 4 < 10 + (PRINTABLES_LEN - j)
          omega
      · cases h
    | lock =>
      obtain ⟨s₁, -, heq⟩ := Option.map_eq_some_iff.mp h
      cases heq
      exact Nat.lt_succ_self 3
    | readN bytesRead => cases h
    | readStream => cases h
    | sendC written => cases h
    | returned => cases h
    | _ =>
      cases h
      exact Nat.lt_succ_self _

theorem step_work {e : Event} (hs : Sound order s) (hst : step order e s = some s')
    (hdrain : Draining e s) : s'.work < s.work := by
  cases step_moves hst with
  | main hrun h =>
    unfold mainStep at h
    unfold Server.work
    cases hmain : s.main with
    | update | unlock =>
      simp only [hmain] at h
      cases h
      exact Nat.add_lt_add_right (Nat.lt_succ_self _) _
    | create =>
      simp only [hmain] at h
      cases h
      simp only [List.map_append, List.sum_append, List.map_singleton, List.sum_singleton]
      show 0 + (_ + (2 ^ 32 + 200 + (4 - 0))) < 2 ^ 32 + 300 + _
      omega
    | _ =>
      unfold Draining at hdrain
      simp [hmain, MainPhase.locked, MainPhase.creating] at hdrain
  | connection hrun h =>
    simp only [connectionStep, bind, Option.bind_eq_some_iff, pure, Option.some.injEq] at h
    obtain ⟨c, hc, ⟨c', s₁⟩, hact, rfl⟩ := h
    have hlt := connectionMain_work hact (hs.bounded c (List.mem_of_getElem? hc)) hdrain
    have hmain : s₁.main = s.main := (connectionMain_acts hact).follows.1
    obtain ⟨pre, post, -, hsplit, hset⟩ := Family.exists_split hc
    unfold Server.work
    rw [hset, hsplit]
    simp only [hmain, List.map_append, List.map_cons, List.sum_append, List.sum_cons]
    omega
  | _ => cases hdrain

/-- The handler keeps only the thread below it from running. -/
theorem canRun_of_ne {p : CleanupPhase} {t' : Thread} (hp : s.cleanup = some (t, p))
    (hmain : s.main ≠ .returned) (hne : t ≠ t') : s.CanRun t' := by
  refine ⟨hmain, ?_⟩
  intro h hh heq
  have hhandler : s.cleanup = some h := hh
  rw [hp] at hhandler
  cases hhandler
  exact absurd heq hne

theorem not_destroyed {p : CleanupPhase} (hp : s.cleanup = some (t, p)) (hdone : p ≠ .done) :
    ¬ s.Destroyed := by
  rw [Destroyed, hp]
  exact fun heq => hdone (Option.some.inj heq)

/-- A thread that has not returned can go on, unless it has to wait for the lock. -/
theorem connection_drains (order : ByteOrder) {c : Connection} (hc : s.connections[i]? = some c)
    (hrun : s.CanRun (.connection i)) (hbounded : c.phase.Bounded) (hphase : c.phase ≠ .returned)
    (hlock : c.phase = .lock → ∃ s', s.lock (.thread (.connection i)) = some s') :
    ∃ action, Draining (.connection i action) s ∧
      step order (.connection i action) s ≠ none := by
  have hstep : ∀ action, connectionMain order i action c s ≠ none →
      step order (.connection i action) s ≠ none := by
    intro action hne
    obtain ⟨r, hr⟩ := Option.ne_none_iff_exists'.mp hne
    simp [step, hrun, connectionStep, hc, hr]
  obtain ⟨phase, charC, N, totalRead, totalPrintable, localCounter, processed, sent⟩ := c
  cases phase with
  | readN bytesRead =>
    have hlt : bytesRead < UINT_LEN := hbounded
    refine ⟨.read [0], rfl, hstep _ ?_⟩
    simp only [connectionMain, Connection.request, List.length_singleton]
    rw [if_pos (show 1 ≤ UINT_LEN - bytesRead by omega)]
    simp
  | readStream =>
    refine ⟨.read [0], rfl, hstep _ ?_⟩
    simp [connectionMain, Connection.request, BUFF_LEN]
  | sendC written =>
    have hlt : written < UINT_LEN := hbounded
    have hlen : (order.encode totalPrintable).length = UINT_LEN := order.length_encode _
    refine ⟨.write 1, rfl, hstep _ ?_⟩
    simp only [connectionMain, Connection.outgoing, List.length_drop]
    rw [if_pos ⟨le_rfl, by omega⟩]
    simp
  | merge j =>
    have hlt : j < PRINTABLES_LEN := hbounded
    exact ⟨.proceed, trivial, hstep _ (by simp [connectionMain, hlt])⟩
  | lock =>
    obtain ⟨s', hs'⟩ := hlock rfl
    exact ⟨.proceed, trivial, hstep _ (by simp [connectionMain, hs'])⟩
  | returned => exact absurd rfl hphase
  | _ => exact ⟨.proceed, trivial, hstep _ (by simp [connectionMain])⟩

/-! ## The end of the threads -/

/-- Since `s`, the threads other than `t` have moved, and the handler stands where it stood or is
woken up. -/
structure Drains (order : ByteOrder) (t : Thread) (p : CleanupPhase) (s u : Server) : Prop where
  sound : Sound order u
  lives : u.main ≠ .returned
  frozen : Frozen t s u
  handler : u.cleanup = some (t, p) ∨ u.cleanup = some (t, p.wake)

theorem Frozen.refl (t : Thread) (s : Server) : Frozen t s s := by
  cases t with
  | main => rfl
  | connection i => exact fun c hc => hc

theorem Frozen.trans {u : Server} (h : Frozen t s s') (h' : Frozen t s' u) : Frozen t s u := by
  cases t with
  | main => exact Eq.trans h' h
  | connection i => exact fun c hc => h' c (h c hc)

theorem CleanupPhase.wake_ne_done {p : CleanupPhase} (h : p ≠ .done) : p.wake ≠ .done := by
  cases p with
  | done => exact absurd rfl h
  | _ => intro hwake; cases hwake

theorem CleanupPhase.wake_wake (p : CleanupPhase) : p.wake.wake = p.wake := by
  cases p <;> rfl

theorem Drains.next {p : CleanupPhase} {u v : Server} {e : Event} (h : Drains order t p s u)
    (hdone : p ≠ .done) (hdrain : Draining e u) (hst : step order e u = some v) :
    Drains order t p s v := by
  obtain ⟨q, hq, hne, hwake⟩ : ∃ q, u.cleanup = some (t, q) ∧ q ≠ .done ∧ q.wake = p.wake := by
    rcases h.handler with hp | hp
    · exact ⟨p, hp, hdone, rfl⟩
    · exact ⟨p.wake, hp, CleanupPhase.wake_ne_done hdone, p.wake_wake⟩
  obtain ⟨hfrozen, hsignals⟩ := thread_step hq hne hst hdrain.ofThread
  refine ⟨step_sound h.sound hst, ?_, h.frozen.trans hfrozen, ?_⟩
  · cases step_moves hst with
    | main hrun hmain =>
      unfold mainStep at hmain
      cases hphase : u.main with
      | update | unlock | create =>
        simp only [hphase] at hmain
        cases hmain
        intro hreturned
        cases hreturned
      | _ =>
        unfold Draining at hdrain
        simp [hphase, MainPhase.locked, MainPhase.creating] at hdrain
    | connection hrun hconnection =>
      obtain ⟨c, c', s₁, hc, hacts, rfl⟩ := connectionStep_acts hconnection
      show s₁.main ≠ .returned
      rw [hacts.follows.1]
      exact h.lives
    | _ => cases hdrain
  · rcases hsignals with ⟨hsame, -⟩ | ⟨hwoken, -⟩
    · rw [hsame]
      exact h.handler
    · rw [hwoken, hq, broadcast, Option.map_some, hwake]
      exact Or.inr rfl

/-- Where no thread can go on, the lock is free and the threads have returned. -/
theorem Drains.ended {p : CleanupPhase} {u : Server} (h : Drains order t p s u)
    (hlocked : p.locked = false) (hdone : p ≠ .done) (hout : s.Outside t)
    (hstuck : Runs.Stuck (step order) Draining u) :
    u.activeThreadsLock = none ∧ (t ≠ .main → u.main.creating = 0) ∧
      ∀ i c, u.connections[i]? = some c → t ≠ .connection i → c.phase = .returned := by
  obtain ⟨q, hq, hne, hqlocked⟩ : ∃ q, u.cleanup = some (t, q) ∧ q ≠ .done ∧ q.locked = false := by
    rcases h.handler with hp | hp
    · exact ⟨p, hp, hdone, hlocked⟩
    · exact ⟨p.wake, hp, CleanupPhase.wake_ne_done hdone, by rwa [CleanupPhase.wake_locked]⟩
  have hmain : t ≠ .main → u.main.locked = false ∧ u.main.creating = 0 := by
    intro ht
    have hrun := canRun_of_ne hq h.lives ht
    have hnone := hstuck (.main (.replicate 4 0))
    cases hphase : u.main with
    | update | unlock | create =>
      have hst := hnone (by simp [Draining, hphase, MainPhase.locked, MainPhase.creating])
      simp only [step, hrun, if_true, mainStep, hphase] at hst
      cases hst
    | _ => exact ⟨rfl, rfl⟩
  have hthread : ∀ i c, u.connections[i]? = some c → t ≠ .connection i →
      c.phase ≠ .returned → c.phase = .lock ∧ u.activeThreadsLock ≠ none := by
    intro i c hc ht hphase
    by_contra hfree
    have hdestroyed := not_destroyed hq hne
    obtain ⟨action, hdrain, hst⟩ := connection_drains order hc
      (canRun_of_ne hq h.lives ht) (h.sound.bounded c (List.mem_of_getElem? hc)) hphase (by
        intro hlock
        have hnone : u.activeThreadsLock = none := by
          by_contra hsome
          exact hfree ⟨hlock, hsome⟩
        exact ⟨_, if_pos ⟨hnone, hdestroyed⟩⟩)
    exact hst (hstuck _ hdrain)
  have hlock : u.activeThreadsLock = none := by
    cases howner : u.activeThreadsLock with
    | none => rfl
    | some holder =>
      exfalso
      have hinside := h.sound.owned holder howner
      rcases holder with t' | -
      · have houtu : u.Outside t := h.frozen.at hout
        by_cases ht : t = t'
        · subst ht
          exact Outside.not_inside houtu hinside
        · cases t' with
          | main =>
            have hin : u.main.locked = true := hinside
            rw [(hmain ht).1] at hin
            cases hin
          | connection i =>
            obtain ⟨c, hc, hin⟩ := hinside
            have hreturned : c.phase ≠ .returned := by
              intro hphase
              rw [hphase] at hin
              cases hin
            rw [(hthread i c hc ht hreturned).1] at hin
            cases hin
      · obtain ⟨t', q', hq', hin⟩ := hinside
        rw [hq] at hq'
        cases hq'
        rw [hqlocked] at hin
        cases hin
  refine ⟨hlock, fun ht => (hmain ht).2, fun i c hc ht => ?_⟩
  by_contra hphase
  exact (hthread i c hc ht hphase).2 hlock

/-- **All the other threads can be run to their ends**, when the handler is outside and the
thread below it too. -/
theorem exists_drained {p : CleanupPhase} (hs : Sound order s) (hmain : s.main ≠ .returned)
    (hp : s.cleanup = some (t, p)) (hdone : p ≠ .done) :
    ∃ u, Runs.Reaches (step order) Draining s u ∧ Drains order t p s u ∧
      Runs.Stuck (step order) Draining u :=
  Runs.exists_stuck Server.work (fun _ _ _ hv hdrain hst => hv.next hdone hdrain hst)
    (fun _ _ _ hv hdrain hst => step_work hv.sound hst hdrain)
    ⟨hs, hmain, Frozen.refl t s, Or.inl hp⟩

end Steps

end OsHw.Ex5
