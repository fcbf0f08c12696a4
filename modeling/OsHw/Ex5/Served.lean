import OsHw.Ex5.Drains
import OsHw.Ex5.Network
import Mathlib.Algebra.Order.BigOperators.Group.Finset

/-!
# OsHw — `pcc_server` serves all its clients

Clients that announce a positive `int` are each in an exchange that ends; the threads take
themselves off `active_threads` one after the other, and the main thread goes back to `accept`.

* **`Joined.agreed`** — the invariant of the exchange, for every client of the network.
* **`Joined.printed`** — what a client prints, also where the process of the server has ended.
* **`Network.left`**, **`step_left`** — what is left to be done, and that every step is part of it.
* **`Working.served`** — nothing is left undone where nobody can move.
* **`clients_served`** — every run ends with every client served, and at any time at which nobody
  is being served, the counters are those of all the data that was sent.
-/

namespace OsHw.Ex5

open Server

variable {order : ByteOrder} {requests : List Request} {s s' : Network} {i k : Nat}

/-- A client whose exchange ends. -/
def Request.Ordinary (r : Request) : Prop := 1 ≤ r.N.toNat ∧ r.N.toNat < 2 ^ 31

/-- The bytes that a client has the server count. -/
def Request.data (r : Request) : List UInt8 := slice r.input 0 r.N.toNat

/-! ## Every client in its exchange -/

theorem Joined.request (hs : Joined order requests s) {p : Peer} (hp : s.peers[i]? = some p) :
    requests[i]? = some p.request := by
  rw [← hs.requests, List.getElem?_map, hp]
  rfl

/-- Every client is in its exchange, or behind one that the end of the process has broken off. -/
theorem Joined.outlives (hs : Joined order requests s) (hN : ∀ r ∈ requests, r.Ordinary) {p : Peer}
    (hp : s.peers[i]? = some p) : ∃ p₀ : Peer,
      Agreed order p.request.input p.request.N (p₀.exchange (s.connection i).onSocket) ∧
        p₀.Outlives order p ∧ (s.server.main ≠ .returned → p = p₀) := by
  obtain ⟨h₁, h₂⟩ := hN _ (List.mem_of_getElem? (hs.request hp))
  obtain ⟨p₀, hexchanging, houtlives, hlives⟩ := hs.attached i p hp
  refine ⟨p₀, ?_, houtlives, hlives⟩
  rw [houtlives.1] at h₁ h₂ ⊢
  unfold Network.connection
  cases hc : s.server.connections[i]? with
  | none =>
    rw [hc] at hexchanging
    exact (hexchanging (.replicate UINT_LEN 0)).agreed h₁ h₂
  | some c =>
    rw [hc] at hexchanging
    obtain ⟨junk, hreach⟩ := hexchanging
    exact hreach.agreed h₁ h₂

theorem Joined.agreed (hs : Joined order requests s) (hN : ∀ r ∈ requests, r.Ordinary)
    (hlives : s.server.main ≠ .returned) {p : Peer} (hp : s.peers[i]? = some p) :
    Agreed order p.request.input p.request.N (p.exchange (s.connection i).onSocket) := by
  obtain ⟨p₀, hagreed, -, hsame⟩ := hs.outlives hN hp
  rwa [← hsame hlives] at hagreed

/-- A client on its own reads what the server has written, or prints before it has read a whole
answer. -/
theorem Peer.Outlives.readsBack {p₀ p : Peer} (h : p₀.Outlives order p)
    (hanswer : p₀.toClient.length ≤ UINT_LEN)
    (hreads : ReadsBack order p₀.toClient p₀.client.phase p₀.clientPos p₀.client.charC) :
    p.toClient = p₀.toClient ∧
      (ReadsBack order p.toClient p.client.phase p.clientPos p.client.charC ∨
        p.clientPos < UINT_LEN ∧ p.client.phase.done = true) := by
  refine h.2.invariant (I := fun e => e.toClient = p₀.toClient ∧
    (ReadsBack order e.toClient e.client.phase e.clientPos e.client.charC ∨
      e.clientPos < UINT_LEN ∧ e.client.phase.done = true)) ⟨rfl, Or.inl hreads⟩ ?_
  rintro k e e' ⟨hsame, hreads | ⟨hshort, hdone⟩⟩ - hst
  · have hlen : e.toClient.length ≤ UINT_LEN := by rwa [hsame]
    obtain ⟨hkept, hnext⟩ := clientStep_readsBack hlen hreads hst
    exact ⟨hkept.trans hsame, hnext.imp_right fun hends => hends.2.2⟩
  · -- behind its `printf` it makes no call
    unfold Exchange.clientStep at hst
    cases hphase : e.client.phase with
    | closed C => rw [hphase] at hst; cases hst
    | _ => rw [hphase] at hdone; cases hdone

/-- What a client prints is what it should, if it has read a whole answer. -/
theorem Joined.printed (hs : Joined order requests s) (hN : ∀ r ∈ requests, r.Ordinary) {p : Peer}
    (hp : s.peers[i]? = some p) {C : BitVec 32} (hphase : p.client.phase = .closed C) :
    C.toNat = printables p.request.data ∨ s.server.main = .returned ∧ p.clientPos < UINT_LEN := by
  obtain ⟨p₀, hagreed, houtlives, hlives⟩ := hs.outlives hN hp
  obtain ⟨hsame, hreads | ⟨hshort, -⟩⟩ :=
    houtlives.readsBack hagreed.receives.answer.1 hagreed.readsBack
  · rw [hphase] at hreads
    obtain ⟨hlen, rfl⟩ := hreads.of_closed
    rw [hsame] at hlen ⊢
    exact Or.inl (hagreed.answered hlen)
  · by_cases hends : s.server.main = .returned
    · exact Or.inr ⟨hends, hshort⟩
    · exact Or.inl (((hs.agreed hN hends hp).exact.printed C hphase).2)

/-- The counters of a thread behind its `close` are those of the data of its client. -/
theorem Joined.localCounter (hs : Joined order requests s) (hN : ∀ r ∈ requests, r.Ordinary)
    {p : Peer} (hp : s.peers[i]? = some p) {c : Connection}
    (hc : s.server.connections[i]? = some c) (hdone : c.phase.done = true)
    (j : Fin PRINTABLES_LEN) :
    c.localCounter j = BitVec.ofNat 32 (occurrences p.request.data j) := by
  have hthread : s.connection i = c := by rw [Network.connection, hc, Option.getD_some]
  obtain ⟨p₀, hagreed, -, -⟩ := hs.outlives hN hp
  rw [hthread] at hagreed
  have hcounted : (c.onSocket.localCounter j).toNat = occurrences p.request.data j :=
    hagreed.exact.counted (c.done_onSocket.trans hdone) j
  have hsame : c.onSocket.localCounter = c.localCounter := by
    unfold Connection.onSocket
    split <;> rfl
  rw [hsame] at hcounted
  rw [← hcounted, BitVec.ofNat_toNat, BitVec.setWidth_eq]

theorem Phase.done_of_deregistered {p : Phase} (h : p.deregistered = true) : p.done = true := by
  cases p with
  | unlock | print | returned => rfl
  | _ => cases h

/-- When nobody is being served, the cells count the data of all clients so far. -/
theorem Joined.counters (hs : Joined order requests s) (hsound : Sound order s.server)
    (hN : ∀ r ∈ requests, r.Ordinary) (hzero : s.server.activeThreads = 0)
    (j : Fin PRINTABLES_LEN) :
    s.server.counters j = BitVec.ofNat 32
      ((requests.take s.server.registered).map fun r => occurrences r.data j).sum := by
  obtain ⟨hcreating, hfinished⟩ := hsound.counted.all_finished hzero
  have hregistered := hsound.counted.registered
  have haccepted := hsound.counted.accepted
  have hlength : s.peers.length = requests.length := by rw [← hs.requests, List.length_map]
  have hle := hs.accepted
  -- the thread at an index has merged the data of the client at that index
  have hsame : s.server.connections.map (Connection.merged j) =
      (requests.take s.server.registered).map fun r =>
        BitVec.ofNat 32 (occurrences r.data j) := by
    apply List.ext_getElem?
    intro i
    rw [List.getElem?_map, List.getElem?_map]
    cases hc : s.server.connections[i]? with
    | none =>
      have hlt := List.getElem?_eq_none_iff.mp hc
      rw [List.getElem?_eq_none (by rw [List.length_take]; omega)]
      rfl
    | some c =>
      obtain ⟨hlt, -⟩ := List.getElem?_eq_some_iff.mp hc
      have hi : i < s.peers.length := by omega
      have hp : s.peers[i]? = some s.peers[i] := List.getElem?_eq_getElem hi
      have hdone := hfinished c (List.mem_of_getElem? hc)
      rw [List.getElem?_take_of_lt (by omega), hs.request hp, Option.map_some, Option.map_some,
        c.merged_of_finished hdone, hs.localCounter hN hp hc (Phase.done_of_deregistered hdone)]
  rw [hsound.counted.counters j, hsame]
  generalize requests.take s.server.registered = served
  induction served with
  | nil => rfl
  | cons r served ih =>
    rw [List.map_cons, List.sum_cons, ih, List.map_cons, List.sum_cons, BitVec.ofNat_add]

/-! ## What is left to be done -/

/-- The actions of a thread behind its `close`. -/
def Connection.remaining (c : Connection) : Nat :=
  match c.phase with
  | .merge i => PRINTABLES_LEN - i + 4
  | .lock => 4
  | .update => 3
  | .unlock => 2
  | .print => 1
  | .returned => 0
  | _ => PRINTABLES_LEN + 4

/-- The actions of the main thread until it waits in `accept` again. -/
def MainPhase.remaining : MainPhase → Nat
  | .lock => 5
  | .update => 4
  | .unlock => 3
  | .create => 2
  | .test => 1
  | _ => 0

/-- What is left of the exchange of a client, and behind it. -/
def Peer.left (p : Peer) (c : Connection) : Nat :=
  allMoved p.request.N - (p.exchange c).moved + c.remaining

def Network.leftOf (s : Network) (i : Nat) : Nat :=
  match s.peers[i]? with
  | some p => p.left (s.connection i)
  | none => 0

/-- All that is left, with the six actions of the main thread for each client. -/
def Network.left (s : Network) : Nat :=
  ∑ i ∈ Finset.range s.peers.length, s.leftOf i +
    (6 * (s.peers.length - s.server.accepted) + s.server.main.remaining)

theorem Connection.remaining_of_open {c : Connection} (h : c.phase.done = false) :
    c.remaining = PRINTABLES_LEN + 4 := by
  unfold remaining
  cases hphase : c.phase with
  | readN r => rfl
  | readStream => rfl
  | sendC w => rfl
  | _ => rw [hphase] at h; cases h

/-- An action of a thread away from its socket is one less. -/
theorem connectionMain_remaining {c c' : Connection} {u u' : Server} (hbounded : c.phase.Bounded)
    (h : connectionMain order i .proceed c u = some (c', u')) : c'.remaining < c.remaining := by
  obtain ⟨phase, charC, N, totalRead, totalPrintable, localCounter, processed, sent⟩ := c
  cases phase with
  | merge j =>
    have hlt : j < PRINTABLES_LEN := hbounded
    simp only [connectionMain, dif_pos hlt] at h
    cases h
    unfold Connection.remaining
    dsimp only
    by_cases hmore : j + 1 < PRINTABLES_LEN
    · simp only [if_pos hmore]
      omega
    · simp only [if_neg hmore]
      omega
  | lock =>
    obtain ⟨u₁, -, heq⟩ := Option.map_eq_some_iff.mp h
    cases heq
    exact Nat.lt_succ_self 3
  | update | unlock | print =>
    cases h
    exact Nat.lt_succ_self _
  | _ => cases h

/-! ## The network at work -/

/-- Nobody sends a signal. -/
def Undisturbed (e : NetworkEvent) (_ : Network) : Prop :=
  match e with
  | .server (.sigint _) => False
  | _ => True

/-- The state of a network without signals. -/
structure Working (order : ByteOrder) (requests : List Request) (s : Network) : Prop where
  joined : Joined order requests s
  sound : Sound order s.server
  cleanup : s.server.cleanup = none
  sigint : s.server.sigintHappend = false
  lives : s.server.main ≠ .returned

theorem start_working : Working order requests (Network.start requests) where
  joined := start_joined
  sound := start_sound
  cleanup := rfl
  sigint := rfl
  lives := nofun

theorem not_destroyed_of_none {u : Server} (h : u.cleanup = none) : ¬ u.Destroyed := by
  rw [Destroyed, h]
  intro hnone
  cases hnone

theorem canRun_of_none {u : Server} {t : Thread} (h : u.cleanup = none)
    (hlives : u.main ≠ .returned) : u.CanRun t := by
  refine ⟨hlives, fun x hx => ?_⟩
  rw [h] at hx
  cases hx

/-- What a step of the main thread does while nothing disturbs it. -/
theorem mainStep_working {junk : Vector UInt8 UINT_LEN} {u u' : Server}
    (hcleanup : u.cleanup = none) (hsigint : u.sigintHappend = false)
    (h : u.mainStep junk = some u') :
    u'.cleanup = none ∧ u'.sigintHappend = false ∧ u'.main ≠ .returned ∧
      (u.main = .accept ∧ u'.accepted = u.accepted + 1 ∧ u'.main.remaining = 5 ∨
        u'.accepted = u.accepted ∧ u'.main.remaining < u.main.remaining) := by
  have hdestroyed := not_destroyed_of_none hcleanup
  unfold mainStep at h
  cases hmain : u.main with
  | test =>
    simp only [hmain, hsigint] at h
    cases h
    exact ⟨hcleanup, rfl, nofun, Or.inr ⟨rfl, Nat.zero_lt_one⟩⟩
  | accept =>
    simp only [hmain, if_neg hdestroyed] at h
    cases h
    exact ⟨hcleanup, hsigint, nofun, Or.inl ⟨rfl, rfl, rfl⟩⟩
  | lock =>
    simp only [hmain, Option.map_eq_some_iff] at h
    obtain ⟨u₁, hlock, rfl⟩ := h
    obtain ⟨-, rfl⟩ := lock_eq_some hlock
    exact ⟨hcleanup, hsigint, nofun, Or.inr ⟨rfl, Nat.lt_succ_self 4⟩⟩
  | update =>
    simp only [hmain] at h
    cases h
    refine ⟨?_, hsigint, nofun, Or.inr ⟨rfl, Nat.lt_succ_self 3⟩⟩
    show (if u.activeThreads + 1 = 0 then broadcast u.cleanup else u.cleanup) = none
    rw [hcleanup]
    split <;> rfl
  | unlock | create =>
    simp only [hmain] at h
    cases h
    exact ⟨hcleanup, hsigint, nofun, Or.inr ⟨rfl, Nat.lt_succ_self _⟩⟩
  | returned => simp [hmain] at h

/-- What an action of a thread leaves alone. -/
theorem Server.Acts.working {c c' : Connection} {u u' : Server} (h : Acts order i c u c' u')
    (hcleanup : u.cleanup = none) :
    u'.cleanup = none ∧ u'.sigintHappend = u.sigintHappend ∧ u'.main = u.main ∧
      u'.accepted = u.accepted := by
  cases h with
  | update hphase =>
    refine ⟨?_, rfl, rfl, rfl⟩
    show (if u.activeThreads + -1 = 0 then broadcast u.cleanup else u.cleanup) = none
    rw [hcleanup]
    split <;> rfl
  | _ => exact ⟨hcleanup, rfl, rfl, rfl⟩

theorem step_working {e : NetworkEvent} (hs : Working order requests s) (he : Undisturbed e s)
    (hst : Network.step order e s = some s') : Working order requests s' := by
  have hjoined := step_joined hs.joined hst
  have hserver : ∀ {e'} {u : Server}, (∀ t, e' ≠ .sigint t) →
      Server.step order e' s.server = some u →
      u.cleanup = none ∧ u.sigintHappend = false ∧ u.main ≠ .returned := by
    intro e' u hne hu
    cases step_moves hu with
    | main hrun h =>
      obtain ⟨hcleanup, hsigint, hlives, -⟩ := mainStep_working hs.cleanup hs.sigint h
      exact ⟨hcleanup, hsigint, hlives⟩
    | connection hrun h =>
      obtain ⟨c, c', u₁, -, hacts, rfl⟩ := connectionStep_acts h
      obtain ⟨hcleanup, hsigint, hmain, -⟩ := hacts.working hs.cleanup
      exact ⟨hcleanup, hsigint.trans hs.sigint, fun heq => hs.lives (hmain.symm.trans heq)⟩
    | @sigint t _ hmain h => exact absurd rfl (hne t)
    | cleanup hmain hp h =>
      rw [hs.cleanup] at hp
      cases hp
    | spurious hmain h =>
      unfold spuriousStep at h
      rw [hs.cleanup] at h
      cases h
  cases e with
  | client i k =>
    obtain ⟨p, e, -, -, rfl⟩ := Network.clientStep_some hst
    exact ⟨hjoined, hs.sound, hs.cleanup, hs.sigint, hs.lives⟩
  | socket i k =>
    obtain ⟨p, c, e, action, -, -, -, hu, -⟩ := Network.socketStep_some hst
    obtain ⟨hcleanup, hsigint, hlives⟩ := hserver (fun t heq => by cases heq) hu
    exact ⟨hjoined, step_sound hs.sound hu, hcleanup, hsigint, hlives⟩
  | server e =>
    obtain ⟨-, u, hu, rfl⟩ := Network.serverStep_some hst
    have hne : ∀ t, e ≠ .sigint t := by
      rintro t rfl
      exact he
    obtain ⟨hcleanup, hsigint, hlives⟩ := hserver hne hu
    exact ⟨hjoined, step_sound hs.sound hu, hcleanup, hsigint, hlives⟩

/-- One client has less left, and the others what they had. -/
theorem left_lt_of_leftOf (hlength : s'.peers.length = s.peers.length)
    (hothers : ∀ j, i ≠ j → s'.leftOf j = s.leftOf j) (hi : i < s.peers.length)
    (hlt : s'.leftOf i < s.leftOf i) (haccepted : s'.server.accepted = s.server.accepted)
    (hmain : s'.server.main = s.server.main) : s'.left < s.left := by
  unfold Network.left
  rw [hlength, haccepted, hmain]
  apply Nat.add_lt_add_right
  apply Finset.sum_lt_sum
  · intro j _
    by_cases hij : i = j
    · rw [← hij]
      exact hlt.le
    · exact (hothers j hij).le
  · exact ⟨i, Finset.mem_range.mpr hi, hlt⟩

theorem leftOf_set {p : Peer} (p' : Peer) (hp : s.peers[i]? = some p) {u : Server}
    (hu : ∀ j, i ≠ j → u.connections[j]? = s.server.connections[j]?) :
    (∀ j, i ≠ j → (⟨u, s.peers.set i p'⟩ : Network).leftOf j = s.leftOf j) ∧
      (⟨u, s.peers.set i p'⟩ : Network).leftOf i = p'.left ((⟨u, s.peers⟩ : Network).connection i) ∧
      s.leftOf i = p.left (s.connection i) := by
  obtain ⟨hlt, -⟩ := List.getElem?_eq_some_iff.mp hp
  refine ⟨fun j hij => ?_, ?_, ?_⟩
  · unfold Network.leftOf Network.connection
    dsimp only
    rw [List.getElem?_set_ne hij, hu j hij]
  · unfold Network.leftOf
    dsimp only
    rw [List.getElem?_set_self hlt]
    rfl
  · rw [Network.leftOf, hp]

/-- Both a call of the client and one of the thread move something. -/
theorem left_lt_of_moved {p : Peer} {e : Exchange} {c : Connection}
    (hagreed : Agreed order p.request.input p.request.N e) (hmoved : (p.exchange c).moved < e.moved)
    {c' d : Connection} (hremaining : d.remaining ≤ c'.remaining) :
    (e.peer p.request).left d < p.left c' := by
  have hle := hagreed.moved_le
  change (p.exchange c').moved < e.moved at hmoved
  show allMoved p.request.N - e.moved + d.remaining <
    allMoved p.request.N - (p.exchange c').moved + c'.remaining
  omega

theorem clientStep_left (hs : Working order requests s) (hN : ∀ r ∈ requests, r.Ordinary)
    (hst : s.clientStep order i k = some s') : s'.left < s.left := by
  obtain ⟨p, e, hp, hcall, rfl⟩ := Network.clientStep_some hst
  obtain ⟨hlt, -⟩ := List.getElem?_eq_some_iff.mp hp
  obtain ⟨h₁, h₂⟩ := hN _ (List.mem_of_getElem? (hs.joined.request hp))
  obtain ⟨hothers, hnew, hold⟩ := leftOf_set (e.peer p.request) hp (u := s.server)
    fun _ _ => rfl
  refine left_lt_of_leftOf List.length_set hothers hlt ?_ rfl rfl
  have hagreed := hs.joined.agreed hN hs.lives hp
  rw [Network.thread, if_neg hs.lives] at hcall
  have hcall' : Exchange.step order p.request.input (.client, k) (p.exchange
      (s.connection i).onSocket) = some { e with server := (s.connection i).onSocket } :=
    Exchange.clientStep_congr (s.connection i).done_onSocket.symm hcall
  rw [hnew, hold]
  exact left_lt_of_moved (step_agreed h₁ h₂ hagreed hcall') (step_moved hagreed hcall') le_rfl

theorem socketStep_left (hs : Working order requests s) (hN : ∀ r ∈ requests, r.Ordinary)
    (hst : s.socketStep order i k = some s') : s'.left < s.left := by
  obtain ⟨p, c, e, action, hp, hc, hcall, -, rfl⟩ := Network.socketStep_some hst
  obtain ⟨hlt, -⟩ := List.getElem?_eq_some_iff.mp hp
  obtain ⟨hlt', -⟩ := List.getElem?_eq_some_iff.mp hc
  obtain ⟨h₁, h₂⟩ := hN _ (List.mem_of_getElem? (hs.joined.request hp))
  obtain ⟨hothers, hnew, hold⟩ := leftOf_set (e.peer p.request) hp
    (u := { s.server with connections := s.server.connections.set i e.server })
    fun _ hij => List.getElem?_set_ne hij
  refine left_lt_of_leftOf List.length_set hothers hlt ?_ rfl rfl
  have hthread : s.connection i = c := by rw [Network.connection, hc, Option.getD_some]
  have hagreed := hs.joined.agreed hN hs.lives hp
  obtain ⟨hopen, hclosed⟩ := Exchange.serverStep_onSocket hcall
  have hopen' : c.phase.done = false := hopen
  rw [hthread, Connection.onSocket_of_open hopen'] at hagreed
  have hcall' : Exchange.step order p.request.input (.server, k) (p.exchange c) = some e := hcall
  rw [hnew, hold, hthread]
  refine left_lt_of_moved (step_agreed h₁ h₂ hagreed hcall') (step_moved hagreed hcall') ?_
  unfold Network.connection
  dsimp only
  rw [List.getElem?_set_self hlt', Option.getD_some, Connection.remaining_of_open hopen']
  unfold Connection.remaining
  split <;> omega

theorem serverStep_left {e : Event} (hs : Working order requests s) (he : Undisturbed (.server e) s)
    (hst : s.serverStep order e = some s') : s'.left < s.left := by
  obtain ⟨hlocal, u, hu, rfl⟩ := Network.serverStep_some hst
  cases step_moves hu with
  | @main junk u hrun h =>
    have hleftOf : ∀ i, ({ s with server := u } : Network).leftOf i = s.leftOf i := by
      intro i
      unfold Network.leftOf Network.connection
      dsimp only
      cases s.peers[i]? with
      | none => rfl
      | some p =>
        rcases (mainStep_connections h).1 with hsame | hnew
        · rw [hsame]
        · -- a new thread has as much ahead of it as one that is still to come
          rw [hnew]
          rcases Nat.lt_trichotomy i s.server.connections.length with hlt | rfl | hgt
          · rw [List.getElem?_append_left hlt]
          · rw [List.getElem?_concat_length, List.getElem?_eq_none le_rfl]
            rfl
          · rw [List.getElem?_eq_none (by rw [List.length_append, List.length_singleton]; omega),
              List.getElem?_eq_none (by omega)]
    obtain ⟨-, -, -, hmoves⟩ := mainStep_working hs.cleanup hs.sigint h
    unfold Network.left
    rw [Finset.sum_congr rfl fun i _ => hleftOf i]
    apply Nat.add_lt_add_left
    dsimp only
    rcases hmoves with ⟨haccept, haccepted, hfive⟩ | ⟨haccepted, hless⟩
    · have hwaiting := (hlocal haccept).resolve_left (not_destroyed_of_none hs.cleanup)
      rw [haccepted, hfive, haccept]
      show 6 * (s.peers.length - (s.server.accepted + 1)) + 5 <
        6 * (s.peers.length - s.server.accepted) + 0
      omega
    · rw [haccepted]
      omega
  | @connection i action u hrun h =>
    cases action with
    | proceed =>
      simp only [connectionStep, bind, Option.bind_eq_some_iff, pure, Option.some.injEq] at h
      obtain ⟨c, hc, ⟨c', u₁⟩, hmain, rfl⟩ := h
      have hlt := connectionMain_remaining
        (hs.sound.bounded c (List.mem_of_getElem? hc)) hmain
      obtain ⟨-, -, hsame, haccepted⟩ := (connectionMain_acts hmain).working hs.cleanup
      obtain ⟨hlength, -⟩ := List.getElem?_eq_some_iff.mp hc
      have hle : s.server.connections.length ≤ s.peers.length := by
        have hregistered := hs.sound.counted.registered
        have haccepted := hs.sound.counted.accepted
        have hjoined := hs.joined.accepted
        omega
      have hp : s.peers[i]? = some s.peers[i] := List.getElem?_eq_getElem (by omega)
      refine left_lt_of_leftOf (i := i) rfl (fun j hij => ?_) (by omega) ?_ haccepted hsame
      · unfold Network.leftOf Network.connection
        dsimp only
        rw [List.getElem?_set_ne hij]
      · unfold Network.leftOf Network.connection
        dsimp only
        rw [hp, List.getElem?_set_self hlength, hc]
        exact Nat.add_lt_add_left hlt _
    | _ => cases hlocal
  | @sigint t _ hmain h => exact absurd he (by simp [Undisturbed])
  | cleanup hmain hp h =>
    rw [hs.cleanup] at hp
    cases hp
  | spurious hmain h =>
    unfold spuriousStep at h
    rw [hs.cleanup] at h
    cases h

/-- **Every step is part of what is left.** -/
theorem step_left {e : NetworkEvent} (hs : Working order requests s)
    (hN : ∀ r ∈ requests, r.Ordinary) (he : Undisturbed e s)
    (hst : Network.step order e s = some s') : s'.left < s.left := by
  cases e with
  | client i k => exact clientStep_left hs hN hst
  | socket i k => exact socketStep_left hs hN hst
  | server e => exact serverStep_left hs he hst

/-! ## The end of a run -/

/-- All clients have printed an answer, all threads have returned, and the main thread waits for
another client. -/
structure Served (requests : List Request) (s : Network) : Prop where
  closed : ∀ p ∈ s.peers, p.client.phase.done = true
  returned : ∀ c ∈ s.server.connections, c.phase = .returned
  registered : s.server.registered = requests.length
  active : s.server.activeThreads = 0
  main : s.server.main = .accept

section Stuck

/-- Nobody can move. -/
abbrev Network.Idle (order : ByteOrder) (s : Network) : Prop :=
  Runs.Stuck (Network.step order) Undisturbed s

/-- A step of the server away from the sockets would be one of the network. -/
theorem Network.Idle.server (h : s.Idle order) {e : Event} (hlocal : s.Local e)
    (he : Undisturbed (.server e) s) : Server.step order e s.server = none := by
  have hnone : s.serverStep order e = none := h (.server e) he
  unfold Network.serverStep at hnone
  rw [if_pos hlocal] at hnone
  exact Option.map_eq_none_iff.mp hnone

/-- So would be an action of a thread. -/
theorem Network.Idle.proceed (h : s.Idle order) (hs : Working order requests s) {c : Connection}
    (hc : s.server.connections[i]? = some c) :
    connectionMain order i .proceed c s.server = none := by
  have hnone := h.server (e := .connection i .proceed) trivial trivial
  simp only [Server.step, if_pos (canRun_of_none hs.cleanup hs.lives), connectionStep, hc, bind,
    Option.bind_some, pure] at hnone
  cases hmain : connectionMain order i .proceed c s.server with
  | none => rfl
  | some x => simp [hmain] at hnone

theorem Network.Idle.main (h : s.Idle order) (hs : Working order requests s)
    (hlocal : s.Local (.main (.replicate UINT_LEN 0))) :
    s.server.mainStep (.replicate UINT_LEN 0) = none := by
  have hnone := h.server hlocal trivial
  simpa only [Server.step, if_pos (canRun_of_none hs.cleanup hs.lives)] using hnone

/-- The main thread is in `accept`, or waits for the lock. -/
theorem Network.Idle.waits (h : s.Idle order) (hs : Working order requests s) :
    s.server.main = .accept ∨ s.server.main = .lock := by
  by_contra hne
  rw [not_or] at hne
  have hnone := h.main hs fun haccept => absurd haccept hne.1
  unfold mainStep at hnone
  cases hmain : s.server.main with
  | accept => exact hne.1 hmain
  | lock => exact hne.2 hmain
  | returned => exact hs.lives hmain
  | _ => simp [hmain] at hnone

/-- Whoever holds the lock could go on. -/
theorem Network.Idle.free (h : s.Idle order) (hs : Working order requests s) :
    s.server.activeThreadsLock = none := by
  cases howner : s.server.activeThreadsLock with
  | none => rfl
  | some holder =>
    have hinside := hs.sound.owned holder howner
    exfalso
    rcases holder with (- | i) | -
    · have hlocked : s.server.main.locked = true := hinside
      rcases h.waits hs with hmain | hmain
      · rw [hmain] at hlocked
        cases hlocked
      · rw [hmain] at hlocked
        cases hlocked
    · obtain ⟨c, hc, hlocked⟩ := hinside
      have hnone := h.proceed hs hc
      obtain ⟨phase, charC, N, totalRead, totalPrintable, localCounter, processed, sent⟩ := c
      cases phase with
      | update | unlock => cases hnone
      | _ => cases hlocked
    · obtain ⟨t, p, hp, -⟩ := hinside
      rw [hs.cleanup] at hp
      cases hp

/-- The main thread waits for a client, and none is left. -/
theorem Network.Idle.accept (h : s.Idle order) (hs : Working order requests s) :
    s.server.main = .accept ∧ s.server.accepted = s.peers.length := by
  have hdestroyed := not_destroyed_of_none hs.cleanup
  rcases h.waits hs with hmain | hmain
  · refine ⟨hmain, le_antisymm hs.joined.accepted ?_⟩
    by_contra hlt
    have hnone := h.main hs fun _ => Or.inr (not_le.mp hlt)
    simp [mainStep, hmain, hdestroyed] at hnone
  · have hnone := h.main hs fun haccept => by rw [hmain] at haccept; cases haccept
    simp [mainStep, hmain, Server.lock, h.free hs, hdestroyed] at hnone

/-- A thread that has closed its socket has returned. -/
theorem Network.Idle.returned (h : s.Idle order) (hs : Working order requests s) {c : Connection}
    (hc : s.server.connections[i]? = some c) (hdone : c.phase.done = true) :
    c.phase = .returned := by
  have hnone := h.proceed hs hc
  have hbounded := hs.sound.bounded c (List.mem_of_getElem? hc)
  have hfree := h.free hs
  obtain ⟨phase, charC, N, totalRead, totalPrintable, localCounter, processed, sent⟩ := c
  cases phase with
  | merge j =>
    have hlt : j < PRINTABLES_LEN := hbounded
    simp [connectionMain, hlt] at hnone
  | lock =>
    simp [connectionMain, Server.lock, hfree, not_destroyed_of_none hs.cleanup] at hnone
  | update | unlock | print => cases hnone
  | returned => rfl
  | _ => cases hdone

/-- A call that the exchange of a client allows is one of the network. -/
theorem Network.Idle.exchange (h : s.Idle order) (hs : Working order requests s) {p : Peer}
    (hp : s.peers[i]? = some p) {c : Connection} (hc : s.server.connections[i]? = some c)
    (move : Move) : Exchange.step order p.request.input move (p.exchange c.onSocket) = none := by
  have hthread : s.thread i = c := by
    rw [Network.thread, if_neg hs.lives, Network.connection, hc, Option.getD_some]
  obtain ⟨party, k⟩ := move
  rw [Option.eq_none_iff_forall_ne_some]
  intro e he
  cases party with
  | client =>
    have hnone : s.clientStep order i k = none := h (.client i k) trivial
    have hcall := Exchange.clientStep_congr (d := c) c.done_onSocket he
    simp [Network.clientStep, hp, hthread, hcall] at hnone
  | server =>
    have hcall : Exchange.serverStep order k (p.exchange c.onSocket) = some e := he
    obtain ⟨hopen, -⟩ := Exchange.serverStep_onSocket hcall
    have hopen' : c.phase.done = false := c.done_onSocket.symm.trans hopen
    rw [Connection.onSocket_of_open hopen'] at hcall
    have hnone : s.socketStep order i k = none := h (.socket i k) trivial
    have hrun := canRun_of_none (t := .connection i) hs.cleanup hs.lives
    unfold Exchange.serverStep at hcall
    split at hcall
    · next want hrequest =>
      have hrequest' : c.request = some want := hrequest
      obtain ⟨data, hread, -⟩ := Option.map_eq_some_iff.mp hcall
      have hread' : socketRead p.toServer p.serverPos want k p.client.phase.done = some data :=
        hread
      simp [Network.socketStep, hp, hc, hrequest', hread', Server.step, hrun, connectionStep,
        connectionMain, socketRead_length hread] at hnone
    · next hrequest =>
      have hrequest' : c.request = none := hrequest
      obtain ⟨bytes, hwrite, -⟩ := Option.map_eq_some_iff.mp hcall
      have hwrite' : socketWrite (c.outgoing order) k = some bytes := hwrite
      obtain ⟨hk, hle, -⟩ := socketWrite_some hwrite'
      simp [Network.socketStep, hp, hc, hrequest', hwrite', Server.step, hrun, connectionStep,
        connectionMain, hk, hle] at hnone

/-- **Where nobody can move, nothing is left undone.** -/
theorem Working.served (hs : Working order requests s) (hN : ∀ r ∈ requests, r.Ordinary)
    (h : s.Idle order) : Served requests s := by
  obtain ⟨hmain, haccepted⟩ := h.accept hs
  have hregistered := hs.sound.counted.registered
  have hall := hs.sound.counted.accepted
  rw [hmain] at hregistered hall
  change s.server.registered = s.server.connections.length + 0 at hregistered
  change s.server.accepted = s.server.registered + 0 at hall
  have hlength : s.peers.length = requests.length := by
    rw [← hs.joined.requests, List.length_map]
  -- each exchange is at its end
  have hdone : ∀ (i : Nat) (p : Peer) (c : Connection), s.peers[i]? = some p →
      s.server.connections[i]? = some c →
      p.client.phase.done = true ∧ c.phase.done = true := by
    intro i p c hp hc
    have hagreed := hs.joined.agreed hN hs.lives hp
    rw [Network.connection, hc, Option.getD_some] at hagreed
    by_contra hopen
    rw [not_and_or, Bool.not_eq_true, Bool.not_eq_true] at hopen
    have hopen' : (p.exchange c.onSocket).client.phase.done = false ∨
        (p.exchange c.onSocket).server.phase.done = false :=
      hopen.imp_right c.done_onSocket.trans
    obtain ⟨move, hmove⟩ := hagreed.progress hopen'
    rw [h.exchange hs hp hc move] at hmove
    cases hmove
  have hreturned : ∀ c ∈ s.server.connections, c.phase = .returned := by
    intro c hmem
    obtain ⟨i, hi, rfl⟩ := List.mem_iff_getElem.mp hmem
    have hc := List.getElem?_eq_getElem hi
    have hp : s.peers[i]? = some s.peers[i] := List.getElem?_eq_getElem (by omega)
    exact h.returned hs hc (hdone i _ _ hp hc).2
  refine ⟨fun p hmem => ?_, hreturned, by omega, ?_, hmain⟩
  · obtain ⟨i, hi, rfl⟩ := List.mem_iff_getElem.mp hmem
    have hp := List.getElem?_eq_getElem hi
    have hc : s.server.connections[i]? = some s.server.connections[i] :=
      List.getElem?_eq_getElem (by omega)
    exact (hdone i _ _ hp hc).1
  · have hfinished : s.server.connections.countP Connection.finished =
        s.server.connections.length := by
      rw [List.countP_eq_length]
      intro c hmem
      rw [Connection.finished, hreturned c hmem]
      rfl
    have hactive := hs.sound.counted.active
    omega

end Stuck

/-! ## The result -/

/-- All that the clients and the server do for them. -/
def allLeft (requests : List Request) : Nat :=
  (requests.map fun r => allMoved r.N + (PRINTABLES_LEN + 4) + 6).sum + 1

theorem left_start : (Network.start requests).left ≤ allLeft requests := by
  have hleftOf : ∀ i ∈ Finset.range requests.length, (Network.start requests).leftOf i =
      ((requests.map fun r => allMoved r.N + (PRINTABLES_LEN + 4))[i]?).getD 0 := by
    intro i hi
    have hlt := Finset.mem_range.mp hi
    unfold Network.leftOf Network.connection Network.start
    simp only [List.getElem?_map, List.getElem?_eq_getElem hlt, Option.map_some, Option.getD_some]
    rfl
  have hsum : ∀ l : List Nat, ∑ i ∈ Finset.range l.length, l[i]?.getD 0 = l.sum := by
    intro l
    induction l with
    | nil => rfl
    | cons n l ih =>
      rw [List.length_cons, Finset.sum_range_succ', List.sum_cons, ← ih, Nat.add_comm]
      rfl
  have hpeers : (Network.start requests).peers.length = requests.length := List.length_map _
  unfold Network.left
  rw [hpeers, Finset.sum_congr rfl hleftOf]
  have hmap := hsum (requests.map fun r => allMoved r.N + (PRINTABLES_LEN + 4))
  rw [List.length_map] at hmap
  rw [hmap]
  show _ + (6 * (requests.length - 0) + 1) ≤ allLeft requests
  unfold allLeft
  have hsix : ∀ l : List Request, (l.map fun r => allMoved r.N + (PRINTABLES_LEN + 4)).sum +
      6 * l.length = (l.map fun r => allMoved r.N + (PRINTABLES_LEN + 4) + 6).sum := by
    intro l
    induction l with
    | nil => rfl
    | cons r l ih =>
      rw [List.map_cons, List.sum_cons, List.map_cons, List.sum_cons, List.length_cons]
      omega
  have hrequests := hsix requests
  omega

/-- **All clients are served.** For any number of clients that announce a positive `int`, any
inputs, and any interleaving and splitting of the calls: whatever a client prints is the number
of the printable bytes of its data, unless the server's process has ended before the client had
read a whole answer, and whenever `active_threads` is 0, each cell counts the data of all clients
registered so far, also in runs with a signal; without one, every run ends, and with all clients
served. -/
theorem clients_served (order : ByteOrder) (requests : List Request)
    (hN : ∀ r ∈ requests, 1 ≤ r.N.toNat ∧ r.N.toNat < 2 ^ 31) :
    (∀ s, Runs.Reaches (Network.step order) (fun _ _ => True) (Network.start requests) s →
      (∀ p ∈ s.peers, ∀ C, p.client.phase = .closed C →
        C.toNat = printables (slice p.request.input 0 p.request.N.toNat) ∨
          s.server.main = .returned ∧ p.clientPos < UINT_LEN) ∧
      (s.server.activeThreads = 0 → ∀ j, s.server.counters j = BitVec.ofNat 32
        ((requests.take s.server.registered).map fun r =>
          occurrences (slice r.input 0 r.N.toNat) j).sum)) ∧
    (∀ s, Runs.Reaches (Network.step order) Undisturbed (Network.start requests) s →
      s.peers.map Peer.request = requests ∧
        (Runs.Stuck (Network.step order) Undisturbed s → Served requests s)) ∧
    ∀ events s, (∀ e ∈ events, ∀ u, Undisturbed e u) →
      Runs.run (Network.step order) events (Network.start requests) = some s →
      events.length ≤ allLeft requests := by
  refine ⟨fun s hs => ?_, fun s hs => ?_, fun events s hevents hrun => ?_⟩
  · obtain ⟨hjoined, hsound⟩ := reaches_joined hs
    refine ⟨fun p hp C hphase => ?_, fun hzero j => hjoined.counters hsound hN hzero j⟩
    obtain ⟨i, hi, rfl⟩ := List.mem_iff_getElem.mp hp
    exact hjoined.printed hN (List.getElem?_eq_getElem hi) hphase
  · have hworking := hs.invariant start_working fun _ _ _ ht he hst => step_working ht he hst
    exact ⟨hworking.joined.requests, hworking.served hN⟩
  · have hlength := Runs.length_le_of_allowed (I := Working order requests) Network.left
      (fun _ _ _ ht he hst => step_working ht he hst)
      (fun _ _ _ ht he hst => step_left ht hN he hst) hevents start_working hrun
    exact hlength.trans left_start

/-- One client with an `A`, and one with two `B`s. -/
def twoClients : List Request :=
  [⟨1, fun _ => 65, .replicate 4 0⟩, ⟨2, fun _ => 66, .replicate 4 0⟩]

theorem clients_served_two : ∃ s, Runs.Reaches (Network.step .little) Undisturbed
    (Network.start twoClients) s ∧ Served twoClients s ∧
    s.server.counters (cell 65 (by decide)) = 1 ∧ s.server.counters (cell 66 (by decide)) = 2 := by
  have hN : ∀ r ∈ twoClients, 1 ≤ r.N.toNat ∧ r.N.toNat < 2 ^ 31 := by decide
  obtain ⟨s, hreach, -, hstuck⟩ := Runs.exists_stuck Network.left
    (fun _ _ _ ht he hst => step_working ht he hst)
    (fun _ _ _ ht he hst => step_left ht hN he hst)
    (show Working .little twoClients _ from start_working)
  obtain ⟨hall, hends, -⟩ := clients_served .little twoClients hN
  have hserved := (hends s hreach).2 hstuck
  have hcounters := (hall s (hreach.mono fun _ _ _ => trivial)).2 hserved.active
  rw [hserved.registered] at hcounters
  exact ⟨s, hreach, hserved, hcounters _, hcounters _⟩

end OsHw.Ex5
