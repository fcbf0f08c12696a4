import OsHw.Ex5.Exact
import OsHw.Ex5.Sound

/-!
# OsHw — `pcc_server` and its clients

Any number of `pcc_client`s run against one server. Client `i` is the one whose connection
`accept` returns as number `i`; it may write into its socket before that. An event is a call of a
client, a call of a thread of the server on its socket, or a step of the server that is neither.
What a `read` of the server delivers is what its client wrote, and `accept` returns only if a
client is left.

Where `main` returns, the end of the process closes the server's ends of all sockets: a client
reads what was written to it, and behind that the end of the stream. No call fails, also no
`write` into a socket that is closed at the other end.

* **`Network.step`** — the composition of `Exchange.clientStep` and `Server.step`.
* **`Peer.Exchanging`** — a client and the thread at the other end, seen alone, are in a state of
  their exchange.
* **`Peer.Attached`** — so is every client while the process lives; then it goes on alone.
* **`step_joined`** — every step of the network is a step of one exchange, or of none.
-/

namespace OsHw.Ex5

open Server

/-! ## Clients -/

/-- What a client is run with: the length in its arguments, its input, and what it finds in
`charC`. -/
structure Request where
  N : BitVec 32
  input : Nat → UInt8
  junk : Vector UInt8 UINT_LEN

/-- A client and its socket: an exchange without the thread of the server. -/
structure Peer where
  request : Request
  client : Client
  inputPos : Nat
  toServer : List UInt8
  serverPos : Nat
  toClient : List UInt8
  clientPos : Nat

/-- The exchange with a thread at the other end. -/
def Peer.exchange (p : Peer) (c : Connection) : Exchange where
  client := p.client
  server := c
  inputPos := p.inputPos
  toServer := p.toServer
  serverPos := p.serverPos
  toClient := p.toClient
  clientPos := p.clientPos

/-- What is left of an exchange without the thread. -/
def Exchange.peer (r : Request) (s : Exchange) : Peer where
  request := r
  client := s.client
  inputPos := s.inputPos
  toServer := s.toServer
  serverPos := s.serverPos
  toClient := s.toClient
  clientPos := s.clientPos

/-- The client's `main` before `sendUint`. -/
def Request.start (r : Request) : Peer :=
  (Exchange.start r.N r.junk r.junk).peer r

/-- The end of a socket whose process has ended. -/
def Connection.gone : Connection :=
  { Connection.start (.replicate UINT_LEN 0) with phase := .returned }

/-! ## The network -/

structure Network where
  server : Server
  peers : List Peer

inductive NetworkEvent where
  /-- The next call of client `i` moves `k` bytes. -/
  | client (i k : Nat)
  /-- The next call of its thread on the socket. -/
  | socket (i k : Nat)
  /-- Any other step of the server. -/
  | server (e : Event)

namespace Network

/-- No client has called, and the server is before its loop. -/
def start (requests : List Request) : Network where
  server := Server.start
  peers := requests.map Request.start

/-- The connection of client `i`. While it has no thread, the server's end of the socket is
open. -/
def connection (i : Nat) (s : Network) : Connection :=
  s.server.connections[i]?.getD (.start (.replicate UINT_LEN 0))

/-- The other end of the socket of client `i`. -/
def thread (i : Nat) (s : Network) : Connection :=
  if s.server.main = .returned then .gone else s.connection i

def clientStep (order : ByteOrder) (i k : Nat) (s : Network) : Option Network := do
  let p ← s.peers[i]?
  let e ← Exchange.clientStep order p.request.input k (p.exchange (s.thread i))
  return { s with peers := s.peers.set i (e.peer p.request) }

def socketStep (order : ByteOrder) (i k : Nat) (s : Network) : Option Network := do
  let p ← s.peers[i]?
  let c ← s.server.connections[i]?
  match c.request with
  | some want =>
    let data ← socketRead p.toServer p.serverPos want k p.client.phase.done
    let server ← Server.step order (.connection i (.read data)) s.server
    return ⟨server, s.peers.set i { p with serverPos := p.serverPos + data.length }⟩
  | none =>
    let bytes ← socketWrite (c.outgoing order) k
    let server ← Server.step order (.connection i (.write k)) s.server
    return ⟨server, s.peers.set i { p with toClient := p.toClient ++ bytes }⟩

/-- The event is not a call on a socket, and `accept` returns the connection of a client that is
left, or fails. -/
def Local (e : Event) (s : Network) : Prop :=
  match e with
  | .main _ => s.server.main = .accept → s.server.Destroyed ∨ s.server.accepted < s.peers.length
  | .connection _ .proceed => True
  | .connection _ _ => False
  | _ => True

instance (e : Event) (s : Network) : Decidable (s.Local e) := by
  unfold Local
  split <;> infer_instance

def serverStep (order : ByteOrder) (e : Event) (s : Network) : Option Network :=
  if s.Local e then (Server.step order e s.server).map fun server => { s with server } else none

def step (order : ByteOrder) (e : NetworkEvent) (s : Network) : Option Network :=
  match e with
  | .client i k => s.clientStep order i k
  | .socket i k => s.socketStep order i k
  | .server e => s.serverStep order e

end Network

/-! ## What a step of the network is -/

section Steps

variable {order : ByteOrder} {s s' : Network} {i k : Nat}

theorem Network.clientStep_some (h : s.clientStep order i k = some s') :
    ∃ p e, s.peers[i]? = some p ∧
      Exchange.clientStep order p.request.input k (p.exchange (s.thread i)) = some e ∧
      s' = { s with peers := s.peers.set i (e.peer p.request) } := by
  simp only [Network.clientStep, bind, Option.bind_eq_some_iff, pure, Option.some.injEq] at h
  obtain ⟨p, hp, e, he, rfl⟩ := h
  exact ⟨p, e, hp, he, rfl⟩

theorem socketRead_length {sent data : List UInt8} {pos want : Nat} {closed : Bool}
    (h : socketRead sent pos want k closed = some data) : data.length ≤ want := by
  rcases socketRead_some h with ⟨-, -, rfl⟩ | ⟨-, hwant, -, rfl⟩
  · exact Nat.zero_le _
  · exact (List.length_take_le _ _).trans hwant

/-- A step of a connection that the server takes is one of its thread. -/
theorem connectionStep_some {action : Action} {u u' : Server} {c : Connection}
    (hc : u.connections[i]? = some c) (h : Server.step order (.connection i action) u = some u') :
    ∃ c' u₁, connectionMain order i action c u = some (c', u₁) ∧
      u' = { u₁ with connections := u.connections.set i c' } := by
  cases step_moves h with
  | connection hrun h =>
    simp only [connectionStep, bind, Option.bind_eq_some_iff, pure, Option.some.injEq] at h
    obtain ⟨d, hd, ⟨c', u₁⟩, hmain, rfl⟩ := h
    rw [hc] at hd
    cases hd
    exact ⟨c', u₁, hmain, rfl⟩

/-- A call on a socket is a call of the server in the exchange of the thread with its client. -/
theorem Network.socketStep_some (h : s.socketStep order i k = some s') :
    ∃ p c e action, s.peers[i]? = some p ∧ s.server.connections[i]? = some c ∧
      Exchange.serverStep order k (p.exchange c) = some e ∧
      Server.step order (.connection i action) s.server = some s'.server ∧
      s' = ⟨{ s.server with connections := s.server.connections.set i e.server },
        s.peers.set i (e.peer p.request)⟩ := by
  simp only [Network.socketStep, bind, Option.bind_eq_some_iff] at h
  obtain ⟨p, hp, c, hc, h⟩ := h
  refine ⟨p, c, ?_⟩
  unfold Exchange.serverStep
  show ∃ e action, _ ∧ _ ∧ (match c.request with | some want => _ | none => _) = some e ∧ _
  cases hrequest : c.request with
  | some want =>
    simp only [hrequest, Option.bind_eq_some_iff, pure, Option.some.injEq] at h
    obtain ⟨data, hread, server, hst, rfl⟩ := h
    obtain ⟨c', u₁, hmain, rfl⟩ := connectionStep_some hc hst
    simp only [connectionMain, hrequest, if_pos (socketRead_length hread)] at hmain
    cases hmain
    refine ⟨_, .read data, hp, hc, Option.map_eq_some_iff.mpr ⟨data, hread, rfl⟩, hst, rfl⟩
  | none =>
    simp only [hrequest, Option.bind_eq_some_iff, pure, Option.some.injEq] at h
    obtain ⟨bytes, hwrite, server, hst, rfl⟩ := h
    obtain ⟨hk, hle, -⟩ := socketWrite_some hwrite
    obtain ⟨c', u₁, hmain, rfl⟩ := connectionStep_some hc hst
    simp only [connectionMain, if_pos (And.intro hk hle)] at hmain
    cases hmain
    refine ⟨_, .write k, hp, hc, Option.map_eq_some_iff.mpr ⟨bytes, hwrite, rfl⟩, hst, rfl⟩

theorem Network.serverStep_some {e : Event} (h : s.serverStep order e = some s') :
    s.Local e ∧ ∃ server, Server.step order e s.server = some server ∧
      s' = { s with server := server } := by
  unfold Network.serverStep at h
  split at h
  · next hlocal =>
    obtain ⟨server, hst, rfl⟩ := Option.map_eq_some_iff.mp h
    exact ⟨hlocal, server, hst, rfl⟩
  · cases h

/-- Only a process that lives takes a step. -/
theorem step_lives {e : Event} {u u' : Server} (h : Server.step order e u = some u') :
    u.main ≠ .returned := by
  cases step_moves h with
  | main hrun h => exact hrun.1
  | connection hrun h => exact hrun.1
  | sigint hmain h => exact hmain
  | cleanup hmain hp h => exact hmain
  | spurious hmain h => exact hmain

/-- The server takes a step of its own, or none. -/
theorem step_server {e : NetworkEvent} (hst : Network.step order e s = some s') :
    s'.server = s.server ∨ ∃ e', Server.step order e' s.server = some s'.server := by
  cases e with
  | client i k =>
    obtain ⟨p, e, -, -, rfl⟩ := Network.clientStep_some hst
    exact Or.inl rfl
  | socket i k =>
    obtain ⟨p, c, e, action, -, -, -, hserver, -⟩ := Network.socketStep_some hst
    exact Or.inr ⟨_, hserver⟩
  | server e =>
    obtain ⟨-, server, hserver, rfl⟩ := Network.serverStep_some hst
    exact Or.inr ⟨e, hserver⟩

end Steps

/-! ## A client and its thread -/

/-- The thread as its client sees it: behind `close`, wherever it is. -/
def Connection.onSocket (c : Connection) : Connection :=
  if c.phase.done then { c with phase := .merge 0 } else c

/-- A client, with its thread or while there is none, is in a state of their exchange. -/
def Peer.Exchanging (order : ByteOrder) (p : Peer) : Option Connection → Prop
  | none => ∀ junk, Exchange.Reachable order p.request.input p.request.N p.request.junk junk
      (p.exchange (.start junk))
  | some c => ∃ junk, Exchange.Reachable order p.request.input p.request.N p.request.junk junk
      (p.exchange c.onSocket)

/-- The client makes calls of its own, with nobody at the other end of its socket. -/
def Peer.Outlives (order : ByteOrder) (p₀ p : Peer) : Prop :=
  p.request = p₀.request ∧ Runs.Reaches (Exchange.clientStep order p₀.request.input)
    (fun _ _ => True) (p₀.exchange .gone) (p.exchange .gone)

/-- A client is in its exchange while the server's process lives, and behind one when it has
ended. -/
def Peer.Attached (order : ByteOrder) (p : Peer) (i : Nat) (u : Server) : Prop :=
  ∃ p₀ : Peer, p₀.Exchanging order u.connections[i]? ∧ p₀.Outlives order p ∧
    (u.main ≠ .returned → p = p₀)

/-- The clients are those of the start, each one attached to the server, and nobody else is
accepted. -/
structure Joined (order : ByteOrder) (requests : List Request) (s : Network) : Prop where
  requests : s.peers.map Peer.request = requests
  attached : ∀ (i : Nat) (p : Peer), s.peers[i]? = some p → p.Attached order i s.server
  accepted : s.server.accepted ≤ s.peers.length

section Projection

variable {order : ByteOrder} {requests : List Request} {s s' : Network} {i k : Nat}

theorem Peer.Exchanging.attached {p : Peer} {u : Server}
    (h : p.Exchanging order u.connections[i]?) : p.Attached order i u :=
  ⟨p, h, ⟨rfl, .refl⟩, fun _ => rfl⟩

theorem Peer.Attached.exchanging {p : Peer} {u : Server} (h : p.Attached order i u)
    (hlives : u.main ≠ .returned) : p.Exchanging order u.connections[i]? := by
  obtain ⟨p₀, hexchanging, -, hsame⟩ := h
  rwa [hsame hlives]

theorem start_joined : Joined order requests (Network.start requests) where
  requests := by
    show (requests.map Request.start).map Peer.request = requests
    rw [List.map_map]
    exact List.map_id requests
  attached i p hp := by
    obtain ⟨r, -, rfl⟩ := List.mem_map.mp (List.mem_of_getElem? hp)
    apply Peer.Exchanging.attached
    exact fun junk => .refl
  accepted := Nat.zero_le _

theorem Connection.onSocket_of_open {c : Connection} (h : c.phase.done = false) :
    c.onSocket = c := by
  rw [onSocket, h]
  rfl

@[simp] theorem Connection.done_onSocket (c : Connection) :
    c.onSocket.phase.done = c.phase.done := by
  unfold onSocket
  split
  · next hdone => rw [hdone]; rfl
  · rfl

/-- Of the thread, a client sees only whether it has closed its end. -/
theorem Exchange.clientStep_congr {input : Nat → UInt8} {p : Peer} {c d : Connection}
    {e : Exchange} (hdone : c.phase.done = d.phase.done)
    (h : Exchange.clientStep order input k (p.exchange c) = some e) :
    Exchange.clientStep order input k (p.exchange d) = some { e with server := d } := by
  obtain ⟨request, ⟨phase, N, charC⟩, inputPos, toServer, serverPos, toClient, clientPos⟩ := p
  unfold Exchange.clientStep at h ⊢
  cases phase with
  | fill written toRead buff =>
    dsimp only [Peer.exchange] at h ⊢
    generalize (if buff.length = 0 then toRead else BUFF_LEN - buff.length) = want at h ⊢
    split at h
    · next hk =>
      obtain rfl := Option.some.inj h
      exact if_pos hk
    · cases h
  | closed C => cases h
  | readC r =>
    dsimp only [Peer.exchange] at h ⊢
    rw [hdone] at h
    obtain ⟨data, hdata, rfl⟩ := Option.map_eq_some_iff.mp h
    exact Option.map_eq_some_iff.mpr ⟨data, hdata, rfl⟩
  | _ =>
    dsimp only [Peer.exchange] at h ⊢
    obtain ⟨bytes, hbytes, rfl⟩ := Option.map_eq_some_iff.mp h
    exact Option.map_eq_some_iff.mpr ⟨bytes, hbytes, rfl⟩

/-- A call of the client, in the exchange with its thread. -/
theorem Peer.Exchanging.client {p : Peer} {e : Exchange} (h : p.Exchanging order
    s.server.connections[i]?)
    (hst : Exchange.clientStep order p.request.input k (p.exchange (s.connection i)) = some e) :
    (e.peer p.request).Exchanging order s.server.connections[i]? := by
  unfold Network.connection at hst
  cases hc : s.server.connections[i]? with
  | none =>
    rw [hc] at h hst
    intro junk
    have hcall : Exchange.step order p.request.input (.client, k) (p.exchange (.start junk)) =
        some ((e.peer p.request).exchange (.start junk)) := Exchange.clientStep_congr (by rfl) hst
    exact (h junk).tail trivial hcall
  | some c =>
    rw [hc] at h hst
    obtain ⟨junk, hreach⟩ := h
    have hcall : Exchange.step order p.request.input (.client, k) (p.exchange c.onSocket) =
        some ((e.peer p.request).exchange c.onSocket) :=
      Exchange.clientStep_congr c.done_onSocket.symm hst
    exact ⟨junk, hreach.tail trivial hcall⟩

/-- A call of a client, attached to the server. -/
theorem Peer.Attached.client {p : Peer} {e : Exchange} (h : p.Attached order i s.server)
    (hst : Exchange.clientStep order p.request.input k (p.exchange (s.thread i)) = some e) :
    (e.peer p.request).Attached order i s.server := by
  unfold Network.thread at hst
  by_cases hends : s.server.main = .returned
  · obtain ⟨p₀, hexchanging, ⟨hrequest, houtlives⟩, -⟩ := h
    rw [if_pos hends] at hst
    have hcall : Exchange.clientStep order p₀.request.input k (p.exchange .gone) =
        some ((e.peer p.request).exchange .gone) := by
      rw [← hrequest]
      exact Exchange.clientStep_congr (by rfl) hst
    exact ⟨p₀, hexchanging, ⟨hrequest, houtlives.tail trivial hcall⟩, fun hlives =>
      absurd hends hlives⟩
  · rw [if_neg hends] at hst
    exact ((h.exchanging hends).client hst).attached

/-- Behind a `read` the socket is open. -/
theorem Connection.received_open {c : Connection} {want : Nat} (data : List UInt8)
    (h : c.request = some want) : (c.received order data).phase.done = false := by
  obtain ⟨phase, charC, N, totalRead, totalPrintable, localCounter, processed, sent⟩ := c
  cases phase with
  | readN r | readStream =>
    unfold Connection.received
    dsimp only
    split <;> rfl
  | _ => cases h

/-- Behind a `write` it is open, or just closed. -/
theorem Connection.wrote_onSocket {c : Connection} (h : 0 < (c.outgoing order).length) :
    (c.wrote order k).onSocket = c.wrote order k := by
  obtain ⟨phase, charC, N, totalRead, totalPrintable, localCounter, processed, sent⟩ := c
  cases phase with
  | sendC w =>
    unfold Connection.wrote Connection.onSocket
    dsimp only
    split <;> rfl
  | _ => exact absurd h (Nat.lt_irrefl 0)

theorem Exchange.serverStep_onSocket {x e : Exchange}
    (h : Exchange.serverStep order k x = some e) :
    x.server.phase.done = false ∧ e.server.onSocket = e.server := by
  unfold Exchange.serverStep at h
  split at h
  · next want hrequest =>
    obtain ⟨data, -, rfl⟩ := Option.map_eq_some_iff.mp h
    exact ⟨Connection.open_of_request hrequest,
      Connection.onSocket_of_open (Connection.received_open data hrequest)⟩
  · obtain ⟨bytes, hwrite, rfl⟩ := Option.map_eq_some_iff.mp h
    obtain ⟨hk, hle, -⟩ := socketWrite_some hwrite
    exact ⟨Connection.open_of_outgoing (hk.trans hle), Connection.wrote_onSocket (hk.trans hle)⟩

/-- A call of the thread, in the exchange with its client. -/
theorem Peer.Exchanging.socket {p : Peer} {c : Connection} {e : Exchange}
    (h : p.Exchanging order (some c))
    (hst : Exchange.serverStep order k (p.exchange c) = some e) :
    (e.peer p.request).Exchanging order (some e.server) := by
  obtain ⟨junk, hreach⟩ := h
  obtain ⟨hopen, hclosed⟩ := Exchange.serverStep_onSocket hst
  have hopen' : c.phase.done = false := hopen
  rw [Connection.onSocket_of_open hopen'] at hreach
  refine ⟨junk, ?_⟩
  rw [hclosed]
  have hcall : Exchange.step order p.request.input (.server, k) (p.exchange c) = some e := hst
  exact hreach.tail trivial hcall

/-- A step of the thread away from its socket. -/
theorem connectionMain_proceed {c c' : Connection} {u u' : Server}
    (h : connectionMain order i .proceed c u = some (c', u')) :
    c'.onSocket = c.onSocket ∧ u'.accepted = u.accepted := by
  obtain ⟨phase, charC, N, totalRead, totalPrintable, localCounter, processed, sent⟩ := c
  cases phase with
  | merge j =>
    simp only [connectionMain] at h
    split at h
    · cases h
      refine ⟨?_, rfl⟩
      unfold Connection.onSocket
      dsimp only
      split <;> rfl
    · cases h
  | lock =>
    obtain ⟨u₁, hlock, heq⟩ := Option.map_eq_some_iff.mp h
    obtain ⟨-, rfl⟩ := lock_eq_some hlock
    cases heq
    exact ⟨rfl, rfl⟩
  | update | unlock | print =>
    cases h
    exact ⟨rfl, rfl⟩
  | _ => cases h

/-- The main thread accepts a client that is left, and may start a thread. -/
theorem mainStep_connections {junk : Vector UInt8 UINT_LEN} {u u' : Server}
    (h : u.mainStep junk = some u') :
    (u'.connections = u.connections ∨ u'.connections = u.connections ++ [.start junk]) ∧
      (u'.accepted = u.accepted ∨
        u.main = .accept ∧ ¬ u.Destroyed ∧ u'.accepted = u.accepted + 1) := by
  unfold mainStep at h
  cases hmain : u.main with
  | accept =>
    simp only [hmain] at h
    split at h
    · cases h
      exact ⟨Or.inl rfl, Or.inl rfl⟩
    · next hopen =>
      cases h
      exact ⟨Or.inl rfl, Or.inr ⟨rfl, hopen, rfl⟩⟩
  | lock =>
    simp only [hmain, Option.map_eq_some_iff] at h
    obtain ⟨u₁, hlock, rfl⟩ := h
    obtain ⟨-, rfl⟩ := lock_eq_some hlock
    exact ⟨Or.inl rfl, Or.inl rfl⟩
  | create =>
    simp only [hmain] at h
    cases h
    exact ⟨Or.inr rfl, Or.inl rfl⟩
  | returned => simp [hmain] at h
  | _ =>
    simp only [hmain] at h
    cases h
    exact ⟨Or.inl rfl, Or.inl rfl⟩

/-- What a step of the server away from the sockets does to the threads and to the number of
those accepted. -/
theorem serverStep_joined {e : Event} (hs : Joined order requests s) (hlocal : s.Local e)
    {u : Server} (hst : Server.step order e s.server = some u) :
    Joined order requests { s with server := u } := by
  have hlives := step_lives hst
  have hkept : ∀ {u : Server}, u.connections = s.server.connections →
      u.accepted = s.server.accepted → Joined order requests { s with server := u } := by
    intro u hconnections haccepted
    refine ⟨hs.requests, fun i p hp => ?_, haccepted.trans_le hs.accepted⟩
    apply Peer.Exchanging.attached
    show p.Exchanging order u.connections[i]?
    rw [hconnections]
    exact (hs.attached i p hp).exchanging hlives
  cases step_moves hst with
  | @main junk u hrun h =>
    obtain ⟨hconnections, haccepted⟩ := mainStep_connections h
    refine ⟨hs.requests, fun i p hp => ?_, ?_⟩
    · have hexchanging := (hs.attached i p hp).exchanging hlives
      apply Peer.Exchanging.attached
      show p.Exchanging order u.connections[i]?
      rcases hconnections with hsame | hnew
      · rwa [hsame]
      · rw [hnew]
        rcases Nat.lt_trichotomy i s.server.connections.length with hlt | rfl | hgt
        · rwa [List.getElem?_append_left hlt]
        · -- the new thread takes over from the exchange without one
          rw [List.getElem?_eq_none le_rfl] at hexchanging
          rw [List.getElem?_concat_length]
          exact ⟨junk, hexchanging junk⟩
        · rw [List.getElem?_eq_none (by omega)] at hexchanging
          rw [List.getElem?_eq_none (by rw [List.length_append, List.length_singleton]; omega)]
          exact hexchanging
    · show u.accepted ≤ s.peers.length
      rcases haccepted with hsame | ⟨haccept, hopen, hnext⟩
      · rw [hsame]
        exact hs.accepted
      · rw [hnext]
        exact (hlocal haccept).resolve_left hopen
  | @connection i action u hrun h =>
    cases action with
    | proceed =>
      simp only [connectionStep, bind, Option.bind_eq_some_iff, pure, Option.some.injEq] at h
      obtain ⟨c, hc, ⟨c', u₁⟩, hmain, rfl⟩ := h
      obtain ⟨hsocket, haccepted⟩ := connectionMain_proceed hmain
      refine ⟨hs.requests, fun j p hp => ?_, haccepted.trans_le hs.accepted⟩
      apply Peer.Exchanging.attached
      show p.Exchanging order (s.server.connections.set i c')[j]?
      have hexchanging := (hs.attached j p hp).exchanging hlives
      by_cases hij : i = j
      · subst hij
        rw [hc] at hexchanging
        obtain ⟨hlt, -⟩ := List.getElem?_eq_some_iff.mp hc
        rw [List.getElem?_set_self hlt]
        obtain ⟨junk, hreach⟩ := hexchanging
        exact ⟨junk, by rwa [hsocket]⟩
      · rwa [List.getElem?_set_ne hij]
    | _ => cases hlocal
  | sigint hmain h =>
    obtain ⟨lock, sigint, cleanup, rfl⟩ := sigintHandler_untouched h
    exact hkept rfl rfl
  | cleanup hmain hp h =>
    obtain ⟨lock, sigint, cleanup, rfl⟩ := cleanupStep_untouched h
    exact hkept rfl rfl
  | spurious hmain h =>
    obtain ⟨lock, sigint, cleanup, rfl⟩ := spuriousStep_untouched h
    exact hkept rfl rfl

theorem map_request_set {p p' : Peer} (hp : s.peers[i]? = some p)
    (hrequest : p'.request = p.request) :
    (s.peers.set i p').map Peer.request = s.peers.map Peer.request := by
  obtain ⟨pre, post, -, hsplit, hset⟩ := Family.exists_split hp
  rw [hset, hsplit, List.map_append, List.map_append, List.map_cons, List.map_cons, hrequest]

/-- **The network keeps the exchanges apart.** -/
theorem step_joined {e : NetworkEvent} (hs : Joined order requests s)
    (hst : Network.step order e s = some s') : Joined order requests s' := by
  cases e with
  | client i k =>
    obtain ⟨p, e, hp, hcall, rfl⟩ := Network.clientStep_some hst
    obtain ⟨hlt, -⟩ := List.getElem?_eq_some_iff.mp hp
    refine ⟨(map_request_set hp (by rfl)).trans hs.requests, fun j q hq => ?_, ?_⟩
    · show q.Attached order j s.server
      change (s.peers.set i (e.peer p.request))[j]? = some q at hq
      by_cases hij : i = j
      · subst hij
        rw [List.getElem?_set_self hlt] at hq
        obtain rfl := Option.some.inj hq
        exact (hs.attached i p hp).client hcall
      · rw [List.getElem?_set_ne hij] at hq
        exact hs.attached j q hq
    · show s.server.accepted ≤ (s.peers.set i (e.peer p.request)).length
      rw [List.length_set]
      exact hs.accepted
  | socket i k =>
    obtain ⟨p, c, e, action, hp, hc, hcall, hserver, rfl⟩ := Network.socketStep_some hst
    have hlives := step_lives hserver
    obtain ⟨hlt, -⟩ := List.getElem?_eq_some_iff.mp hp
    obtain ⟨hlt', -⟩ := List.getElem?_eq_some_iff.mp hc
    refine ⟨(map_request_set hp (by rfl)).trans hs.requests, fun j q hq => ?_, ?_⟩
    · apply Peer.Exchanging.attached
      show q.Exchanging order (s.server.connections.set i e.server)[j]?
      change (s.peers.set i (e.peer p.request))[j]? = some q at hq
      by_cases hij : i = j
      · subst hij
        rw [List.getElem?_set_self hlt] at hq
        obtain rfl := Option.some.inj hq
        have hexchanging := (hs.attached i p hp).exchanging hlives
        rw [hc] at hexchanging
        rw [List.getElem?_set_self hlt']
        exact hexchanging.socket hcall
      · rw [List.getElem?_set_ne hij] at hq
        rw [List.getElem?_set_ne hij]
        exact (hs.attached j q hq).exchanging hlives
    · show s.server.accepted ≤ (s.peers.set i (e.peer p.request)).length
      rw [List.length_set]
      exact hs.accepted
  | server e =>
    obtain ⟨hlocal, server, hserver, rfl⟩ := Network.serverStep_some hst
    exact serverStep_joined hs hlocal hserver

/-- What every run of the network keeps. -/
theorem reaches_joined {P : NetworkEvent → Network → Prop}
    (h : Runs.Reaches (Network.step order) P (Network.start requests) s) :
    Joined order requests s ∧ Sound order s.server := by
  refine h.invariant (I := fun t => Joined order requests t ∧ Sound order t.server)
    ⟨start_joined, start_sound⟩ ?_
  rintro e t u ⟨hjoined, hsound⟩ - hst
  refine ⟨step_joined hjoined hst, ?_⟩
  rcases step_server hst with hsame | ⟨e', hserver⟩
  · rw [hsame]
    exact hsound
  · exact step_sound hsound hserver

end Projection

end OsHw.Ex5
