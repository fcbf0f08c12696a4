import OsHw.Ex5.Connection
import OsHw.Lib.Runs

/-!
# OsHw — `pcc_server`

The main thread accepts connections, counts each one in `active_threads` and starts a thread for
it. A SIGINT runs `cleanup` on top of the thread it is delivered to: it waits for
`active_threads` to become 0, prints the counters, and takes the server down.

The model is a step function over events. One event is the next action of one thread:

* a thread of a connection makes one `read` or `write` call, with any data from its client, one
  `__sync_fetch_and_add`, or one of the three parts of `updateActiveThreads`;
* the main thread does the same in its loop, where `accept` returns a new connection at any
  time, as long as `listen_fd` is open;
* `cleanup` takes one step between two accesses to shared data, and suspends the thread below
  it until it is done;
* `pthread_cond_wait` returns after a broadcast, or without one (`spurious`).

A run gets at most one SIGINT. No other call than an `accept` on the closed `listen_fd` fails,
and nothing locks `activeThreadsLock` once it is destroyed: `pthread_mutex_lock` would fail then
and `exit` end the process, and a run is followed up to that call only. Where `main` returns, the
process ends with all its threads.

An `accept` that waits already when `cleanup`, on top of another thread, closes `listen_fd` is not
woken by that. Where it goes on waiting, `main` takes no further step; where one more client
connects, `updateActiveThreads` finds the destroyed lock and the process ends, which is
`returned` here, as for an `accept` that is called on the closed `listen_fd`.

`active_threads` counts threads that exist at one time, far fewer than an `int` can count; it is
an integer here. `countersLock` is never locked.
-/

namespace OsHw.Ex5

/-! ## State -/

/-- The main thread, or that of a connection. -/
inductive Thread where
  | main
  | connection (i : Nat)
  deriving DecidableEq, Repr

/-- Who holds `activeThreadsLock`: a thread in `updateActiveThreads`, or the handler. -/
inductive Holder where
  | thread (t : Thread)
  | cleanup
  deriving DecidableEq, Repr

/-- Where the main thread is in its loop. -/
inductive MainPhase where
  | test
  | accept
  /-- `pthread_mutex_lock` in `updateActiveThreads(1)`, its body, `pthread_mutex_unlock`. -/
  | lock
  | update
  | unlock
  /-- `pthread_create`. -/
  | create
  | returned
  deriving DecidableEq, Repr

/-- Where `cleanup` is. -/
inductive CleanupPhase where
  | lock
  /-- `if (active_threads)`. -/
  | test
  /-- In `pthread_cond_wait`; `woken` says that it is about to lock again. -/
  | wait (woken : Bool)
  | unlock
  /-- `printCounters`. -/
  | print
  /-- The locks are destroyed and `listen_fd` is closed; the handler has returned. -/
  | done
  deriving DecidableEq, Repr

/-- The threads and the global variables. `accepted` and `registered` are not in the source:
they count the connections that `accept` returned, and the calls of `updateActiveThreads(1)`. -/
structure Server where
  main : MainPhase
  connections : List Connection
  counters : Counters
  activeThreads : Int
  activeThreadsLock : Option Holder
  sigintHappend : Bool
  cleanup : Option (Thread × CleanupPhase)
  accepted : Nat
  registered : Nat

/-- What a thread of a connection does next: what its `read` delivers, how much its `write`
takes, or a step without a call on the socket. -/
inductive Action where
  | read (data : List UInt8)
  | write (k : Nat)
  | proceed
  deriving Repr

/-- The next action of a thread. `junk` is what a new thread finds in its `charC`. -/
inductive Event where
  | main (junk : Vector UInt8 UINT_LEN)
  | connection (i : Nat) (action : Action)
  | sigint (t : Thread)
  | cleanup
  | spurious

namespace Server

/-- The main thread before its loop. -/
def start : Server where
  main := .test
  connections := []
  counters _ := 0
  activeThreads := 0
  activeThreadsLock := none
  sigintHappend := false
  cleanup := none
  accepted := 0
  registered := 0

/-! ## `updateActiveThreads` -/

/-- `cleanup` has destroyed the locks and closed `listen_fd`. -/
def Destroyed (s : Server) : Prop := s.cleanup.map Prod.snd = some .done

instance (s : Server) : Decidable s.Destroyed := inferInstanceAs (Decidable (_ = _))

/-- `pthread_mutex_lock(&activeThreadsLock)`. -/
def lock (h : Holder) (s : Server) : Option Server :=
  if s.activeThreadsLock = none ∧ ¬ s.Destroyed then
    some { s with activeThreadsLock := some h }
  else none

/-- `pthread_mutex_unlock(&activeThreadsLock)`. -/
def unlock (s : Server) : Server := { s with activeThreadsLock := none }

end Server

/-- What becomes of a `cleanup` at a broadcast. -/
def CleanupPhase.wake : CleanupPhase → CleanupPhase
  | .wait _ => .wait true
  | p => p

/-- `pthread_cond_broadcast(&allDoneCond)`. -/
def broadcast (cleanup : Option (Thread × CleanupPhase)) : Option (Thread × CleanupPhase) :=
  cleanup.map fun h => (h.1, h.2.wake)

namespace Server

/-- The body of `updateActiveThreads`, under the lock. -/
def updateActiveThreads (i : Int) (s : Server) : Server :=
  { s with
    activeThreads := s.activeThreads + i
    cleanup := if s.activeThreads + i = 0 then broadcast s.cleanup else s.cleanup }

/-! ## Threads -/

/-- The process lives, and no handler runs on top of the thread. -/
def CanRun (t : Thread) (s : Server) : Prop :=
  s.main ≠ .returned ∧ ∀ h ∈ s.cleanup, h.1 = t → h.2 = .done

instance (t : Thread) (s : Server) : Decidable (s.CanRun t) :=
  inferInstanceAs (Decidable (_ ∧ ∀ h ∈ s.cleanup, _))

/-- The loop of `main`. -/
def mainStep (junk : Vector UInt8 UINT_LEN) (s : Server) : Option Server :=
  match s.main with
  | .test => some { s with main := if s.sigintHappend then .returned else .accept }
  | .accept =>
    -- on a closed `listen_fd` it fails, and `sigint_happend` is set; if it waits there already,
    -- a last client has the same effect
    if s.Destroyed then some { s with main := .returned }
    else some { s with main := .lock, accepted := s.accepted + 1 }
  | .lock => (s.lock (.thread .main)).map fun s => { s with main := .update }
  | .update =>
    some { s.updateActiveThreads 1 with main := .unlock, registered := s.registered + 1 }
  | .unlock => some { s.unlock with main := .create }
  | .create => some { s with main := .test, connections := s.connections ++ [.start junk] }
  | .returned => none

/-- `parsPrintables(localCounter)` at the index `i`. -/
def merge (c : Connection) (i : Fin PRINTABLES_LEN) (s : Server) : Server :=
  { s with counters := Function.update s.counters i (s.counters i + c.localCounter i) }

/-- An action of the thread `i` with the variables `c`: what becomes of the two. -/
def connectionMain (order : ByteOrder) (i : Nat) (action : Action) (c : Connection)
    (s : Server) : Option (Connection × Server) :=
  match action, c.phase with
  | .read data, _ =>
    match c.request with
    | some want => if data.length ≤ want then some (c.received order data, s) else none
    | none => none
  | .write k, _ =>
    if 1 ≤ k ∧ k ≤ (c.outgoing order).length then some (c.wrote order k, s) else none
  | .proceed, .merge j =>
    if h : j < PRINTABLES_LEN then
      some ({ c with phase := if j + 1 < PRINTABLES_LEN then .merge (j + 1) else .lock },
        s.merge c ⟨j, h⟩)
    else none
  | .proceed, .lock =>
    (s.lock (.thread (.connection i))).map fun s => ({ c with phase := .update }, s)
  | .proceed, .update => some ({ c with phase := .unlock }, s.updateActiveThreads (-1))
  | .proceed, .unlock => some ({ c with phase := .print }, s.unlock)
  | .proceed, .print => some ({ c with phase := .returned }, s)
  | .proceed, _ => none

def connectionStep (order : ByteOrder) (i : Nat) (action : Action) (s : Server) :
    Option Server := do
  let c ← s.connections[i]?
  let (c, s') ← connectionMain order i action c s
  return { s' with connections := s.connections.set i c }

/-- SIGINT can be delivered to the thread. -/
def Alive (t : Thread) (s : Server) : Prop :=
  match t with
  | .main => True
  | .connection i => ∃ c ∈ s.connections[i]?, c.phase ≠ .returned

instance (t : Thread) (s : Server) : Decidable (s.Alive t) := by
  unfold Alive
  split <;> infer_instance

/-- `sigintHandler` up to the call of `cleanup`. -/
def sigintHandler (t : Thread) (s : Server) : Option Server :=
  if s.cleanup = none ∧ s.Alive t then
    some { s with sigintHappend := true, cleanup := some (t, .lock) }
  else none

/-- `cleanup` on top of the thread `t`. -/
def cleanupStep (t : Thread) (p : CleanupPhase) (s : Server) : Option Server :=
  match p with
  | .lock => (s.lock .cleanup).map fun s => { s with cleanup := some (t, .test) }
  | .test =>
    if s.activeThreads ≠ 0 then some { s.unlock with cleanup := some (t, .wait false) }
    else some { s with cleanup := some (t, .unlock) }
  | .wait woken =>
    if woken then (s.lock .cleanup).map fun s => { s with cleanup := some (t, .unlock) } else none
  | .unlock => some { s.unlock with cleanup := some (t, .print) }
  | .print => some { s with cleanup := some (t, .done) }
  | .done => none

/-- `pthread_cond_wait` wakes up without a broadcast. -/
def spuriousStep (s : Server) : Option Server :=
  match s.cleanup with
  | some (_, .wait _) => some { s with cleanup := broadcast s.cleanup }
  | _ => none

def step (order : ByteOrder) (e : Event) (s : Server) : Option Server :=
  match e with
  | .main junk => if s.CanRun .main then s.mainStep junk else none
  | .connection i action =>
    if s.CanRun (.connection i) then s.connectionStep order i action else none
  | .sigint t => if s.main ≠ .returned then s.sigintHandler t else none
  | .cleanup =>
    match s.cleanup with
    | some (t, p) => if s.main ≠ .returned then s.cleanupStep t p else none
    | none => none
  | .spurious => if s.main ≠ .returned then s.spuriousStep else none

/-! ## What an action of a connection can do -/

/-- The actions of the thread `i` with the variables `c`. -/
inductive Acts (order : ByteOrder) (i : Nat) (c : Connection) (s : Server) :
    Connection → Server → Prop where
  | received (data : List UInt8) (hread : c.phase.done = false) :
      Acts order i c s (c.received order data) s
  | wrote (k : Nat) (hwrite : c.phase.done = false) : Acts order i c s (c.wrote order k) s
  | merge (j : Fin PRINTABLES_LEN) (hphase : c.phase = .merge j) :
      Acts order i c s
        { c with phase := if j.val + 1 < PRINTABLES_LEN then .merge (j + 1) else .lock }
        (s.merge c j)
  | lock (hphase : c.phase = .lock) (hfree : s.activeThreadsLock = none) :
      Acts order i c s { c with phase := .update }
        { s with activeThreadsLock := some (.thread (.connection i)) }
  | update (hphase : c.phase = .update) :
      Acts order i c s { c with phase := .unlock } (s.updateActiveThreads (-1))
  | unlock (hphase : c.phase = .unlock) : Acts order i c s { c with phase := .print } s.unlock
  | print (hphase : c.phase = .print) : Acts order i c s { c with phase := .returned } s

variable {order : ByteOrder} {i : Nat} {action : Action} {c c' : Connection} {s s' : Server}

theorem lock_eq_some {h₀ : Holder} (h : s.lock h₀ = some s') :
    s.activeThreadsLock = none ∧ s' = { s with activeThreadsLock := some h₀ } := by
  unfold lock at h
  split at h
  · next hfree => exact ⟨hfree.1, (Option.some.inj h).symm⟩
  · cases h

/-- **Inversion of an action.** -/
theorem connectionMain_acts (h : connectionMain order i action c s = some (c', s')) :
    Acts order i c s c' s' := by
  cases action with
  | read data =>
    simp only [connectionMain] at h
    split at h
    · next want hrequest =>
      split at h
      · cases h
        exact .received data (Connection.open_of_request hrequest)
      · cases h
    · cases h
  | write k =>
    simp only [connectionMain] at h
    split at h
    · next hk =>
      cases h
      exact .wrote k (Connection.open_of_outgoing (hk.1.trans hk.2))
    · cases h
  | proceed =>
    cases hphase : c.phase with
    | merge j =>
      simp only [connectionMain, hphase] at h
      split at h
      · next hj =>
        cases h
        exact .merge ⟨j, hj⟩ hphase
      · cases h
    -- behind `close` the actions are those of `parsPrintables` and `updateActiveThreads`
    | lock =>
      simp only [connectionMain, hphase, Option.map_eq_some_iff] at h
      obtain ⟨s₁, hlock, heq⟩ := h
      obtain ⟨hfree, rfl⟩ := lock_eq_some hlock
      cases heq
      exact .lock hphase hfree
    | update =>
      simp only [connectionMain, hphase] at h
      cases h
      exact .update hphase
    | unlock =>
      simp only [connectionMain, hphase] at h
      cases h
      exact .unlock hphase
    | print =>
      simp only [connectionMain, hphase] at h
      cases h
      exact .print hphase
    | _ => simp [connectionMain, hphase] at h

/-- A step of a connection replaces one thread. -/
theorem connectionStep_acts (h : s.connectionStep order i action = some s') :
    ∃ c c' s₁, s.connections[i]? = some c ∧ Acts order i c s c' s₁ ∧
      s' = { s₁ with connections := s.connections.set i c' } := by
  simp only [connectionStep, bind, Option.bind_eq_some_iff, pure, Option.some.injEq] at h
  obtain ⟨c, hc, ⟨c', s₁⟩, hmain, rfl⟩ := h
  exact ⟨c, c', s₁, hc, connectionMain_acts hmain, rfl⟩

/-- A step, by the thread that takes it. -/
inductive Moves (order : ByteOrder) (s : Server) : Event → Server → Prop where
  | main {junk : Vector UInt8 UINT_LEN} {s' : Server} (hrun : s.CanRun .main)
      (h : s.mainStep junk = some s') : Moves order s (.main junk) s'
  | connection {i : Nat} {action : Action} {s' : Server} (hrun : s.CanRun (.connection i))
      (h : s.connectionStep order i action = some s') : Moves order s (.connection i action) s'
  | sigint {t : Thread} {s' : Server} (hmain : s.main ≠ .returned)
      (h : s.sigintHandler t = some s') : Moves order s (.sigint t) s'
  | cleanup {t : Thread} {p : CleanupPhase} {s' : Server} (hmain : s.main ≠ .returned)
      (hp : s.cleanup = some (t, p)) (h : s.cleanupStep t p = some s') :
      Moves order s .cleanup s'
  | spurious {s' : Server} (hmain : s.main ≠ .returned) (h : s.spuriousStep = some s') :
      Moves order s .spurious s'

theorem step_moves {e : Event} (h : step order e s = some s') : Moves order s e s' := by
  unfold step at h
  cases e with
  | main junk =>
    dsimp only at h
    split at h
    · exact .main ‹_› h
    · cases h
  | connection i action =>
    dsimp only at h
    split at h
    · exact .connection ‹_› h
    · cases h
  | sigint t =>
    dsimp only at h
    split at h
    · exact .sigint ‹_› h
    · cases h
  | cleanup =>
    dsimp only at h
    split at h
    · split at h
      · exact .cleanup ‹_› ‹_› h
      · cases h
    · cases h
  | spurious =>
    dsimp only at h
    split at h
    · exact .spurious ‹_› h
    · cases h

end Server

end OsHw.Ex5
