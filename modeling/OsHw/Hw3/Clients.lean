import OsHw.Hw3.History

/-!
# OsHw — two clients of one message slot (`message_writer.c`, `message_reader.c`)

A client opens the device file, selects its channel with an `ioctl`, and writes or reads. The
channel is selected on the minor, not on the open file, so between a client's `ioctl` and its
write or read another client of the minor may select another channel.

* **`Interleaving`** — an order in which the system calls of two clients can come; each of them
  may end early, as the programs do on an error.
* **`AtEveryRequest`** — the places in an interleaving where a client writes or reads.
* **`clients_keep_apart`** — a write or read uses the channel that its client selected unless
  an `ioctl` of the other client succeeded since.
* **`clients_cross`** — an interleaving in which a client writes into the other's channel.
-/

namespace OsHw.Hw3

open Heap (Ptr load)

/-! ## Clients -/

inductive Side where
  | left
  | right
  deriving DecidableEq

inductive Request where
  | write (buff : Option (Nat → UInt8)) (len : BitVec 64)
  | read (len : BitVec 64)

def Request.call : Request → Call
  | .write buff len => .write buff len
  | .read len => .read len

/-- A client's arguments, and what `kmalloc` answers to its calls. -/
structure Client where
  channel : BitVec 64
  openMemory : Option MinorList
  ioctlMemory : Option Channel
  request : Request

namespace Client

def opens (c : Client) : Call := .open c.openMemory

def selects (c : Client) : Call := .ioctl c.ioctlMemory MSG_SLOT_CHANNEL c.channel

/-- The system calls of a client, in its order. -/
def program (c : Client) : List Call := [c.opens, c.selects, c.request.call]

end Client

variable {clients : Side → Client} {m : BitVec 32} {s s' s₁ s₂ : State} {side : Side}
  {own : Ptr} {r : Request} {out : Outcome} {nodes : List (Nat × MinorList)}

def Interleaving (clients : Side → Client) (calls : List (Side × Call)) : Prop :=
  ∀ side, (calls.filter fun x => x.1 = side).map Prod.snd <+: (clients side).program

/-- Run calls of the clients on minor `m`: the calls with their outcomes, and the state at the
end. -/
def clientRun (m : BitVec 32) :
    List (Side × Call) → State → Option (List ((Side × Call) × Outcome) × State)
  | [], s => some ([], s)
  | x :: calls, s => do
    let (out, s) ← call m x.2 s
    let (trace, s) ← clientRun m calls s
    return ((x, out) :: trace, s)

/-- A write or read in state `s` that uses no channel but `own`: the write changes no other
one, and a read that succeeds delivers the message of `own`. -/
def UsesOnly (m : BitVec 32) (own : Ptr) (r : Request) (s : State) : Prop :=
  ∀ out s', call m r.call s = some (out, s') →
    match r with
    | .write _ _ => ∀ b, own ≠ some b → load s'.channelHeap b = load s.channelHeap b
    | .read _ => 0 ≤ out.ret → ∃ a c, own = some a ∧ load s.channelHeap a = some c ∧
        out.delivered.take c.length.toNat = c.contents

/-- `Q` holds wherever a client writes or reads: for the client, the trace of the calls between
its `ioctl` and its request, and the states after the one and before the other. -/
def AtEveryRequest (Q : Side → List ((Side × Call) × Outcome) → State → State → Prop)
    (m : BitVec 32) (clients : Side → Client) (s : State) (calls : List (Side × Call)) : Prop :=
  ∀ side pre mid post, calls = pre ++ (side, (clients side).selects) ::
      (mid ++ (side, (clients side).request.call) :: post) →
    ∀ t₁ s₁ t₂ s₂, clientRun m (pre ++ [(side, (clients side).selects)]) s = some (t₁, s₁) →
      clientRun m mid s₁ = some (t₂, s₂) → Q side t₂ s₁ s₂

/-- Every write and read uses only the channel that its client selected. -/
def KeepApart (m : BitVec 32) (clients : Side → Client) (s : State)
    (calls : List (Side × Call)) : Prop :=
  AtEveryRequest (fun side _ s₁ s₂ => UsesOnly m (s₁.curr m) (clients side).request s₂)
    m clients s calls

/-- No `ioctl` of the other client succeeded among the calls of a trace. -/
def Undisturbed (clients : Side → Client) (side : Side)
    (trace : List ((Side × Call) × Outcome)) : Prop :=
  ∀ x ∈ trace, x.1.1 ≠ side → x.1.2 = (clients x.1.1).selects → x.2.ret ≠ SUCCESS

/-! ## What a call does to the selection -/

/-- A write leaves every channel as it is but the selected one. -/
theorem write_frame (h : Layout s nodes) {buff : Option (Nat → UInt8)} {len : BitVec 64} {b : Nat}
    (hcall : call m (.write buff len) s = some (out, s')) (hb : s.curr m ≠ some b) :
    load s'.channelHeap b = load s.channelHeap b := by
  cases effect_of_call h hcall with
  | refused => rfl
  | @wrote pre post a d n c buff len hsplit hm hcurr =>
    subst hsplit hm
    have hselected : s.curr n.minor = some d := (h.curr_found rfl).trans hcurr
    apply Heap.load_set_of_ne
    rintro rfl
    exact hb hselected

/-- A write that does not fail and a read use the channel selected when they are made. -/
theorem usesOnly_curr (h : Layout s nodes) (m : BitVec 32) (r : Request) :
    UsesOnly m (s.curr m) r s := by
  intro out s' hcall
  cases r with
  | write buff len => exact fun b hb => write_frame h hcall hb
  | read len =>
    intro hok
    obtain ⟨⟨ret, delivered⟩, hr, heq⟩ := Option.map_eq_some_iff.mp hcall
    obtain ⟨rfl, -⟩ := Prod.mk.inj heq
    rw [deviceRead_eq h, Option.some.injEq] at hr
    obtain ⟨c, hc, hcontents⟩ := Slot.deviceRead_contents (s := s.slot m) (by rw [hr]; exact hok)
    rw [h.selected_eq] at hc
    obtain ⟨channel, hchannel, rfl⟩ := Option.map_eq_some_iff.mp hc
    obtain ⟨a, ha, hload⟩ := Option.bind_eq_some_iff.mp hchannel
    rw [hr] at hcontents
    exact ⟨a, channel, ha, hload, hcontents⟩

theorem UsesOnly.of_none (h : UsesOnly m none r s) : UsesOnly m own r s := by
  intro out s' hcall
  have hnone := h out s' hcall
  cases r with
  | write buff len => exact fun b _ => hnone b nofun
  | read len =>
    intro hok
    obtain ⟨a, c, ha, -⟩ := hnone hok
    cases ha

/-- The selection of a minor after a call on it that is no successful `ioctl`. -/
theorem curr_after (h : Layout s nodes) {c : Call} (hcall : call m c s = some (out, s'))
    (hc : ∀ kmalloc cmd p, c = .ioctl kmalloc cmd p → out.ret ≠ SUCCESS) :
    s'.curr m = s.curr m ∨ s'.curr m = none := by
  have heffect := effect_of_call h hcall
  cases heffect with
  | read => exact Or.inl rfl
  | unopened => exact Or.inl rfl
  | opened kmalloc hopened =>
    right
    obtain ⟨⟨nodes', h'⟩, hslot, -⟩ := hopened.moved h
    rw [h'.curr_eq_none, hslot]
    rfl
  | refused => exact Or.inl rfl
  | wrote => exact Or.inl rfl
  | kept => exact Or.inl rfl
  | selected kmalloc => exact absurd rfl (hc kmalloc _ _ rfl)
  -- a failed allocation is stored like any other, and nothing is selected then
  | dropped => exact Or.inr (h.curr_of_failed_ioctl hcall (by decide))
  | first memory => exact absurd rfl (hc (some memory) _ _ rfl)
  | further memory => exact absurd rfl (hc (some memory) _ _ rfl)

/-! ## Runs of the clients -/

section Runs

variable {calls pre mid post : List (Side × Call)} {trace : List ((Side × Call) × Outcome)}

/-- The first call of a run. -/
theorem clientRun_cons {x : Side × Call} (h : Layout s nodes)
    (hrun : clientRun m (x :: calls) s = some (trace, s')) :
    ∃ out t nodes' rest, call m x.2 s = some (out, t) ∧ Layout t nodes' ∧
      clientRun m calls t = some (rest, s') ∧ trace = (x, out) :: rest := by
  simp only [clientRun, Option.bind_eq_bind, Option.bind_eq_some_iff] at hrun
  obtain ⟨⟨out, t⟩, hcall, ⟨rest, u⟩, hrest, heq⟩ := hrun
  obtain ⟨rfl, rfl⟩ := Prod.mk.inj (Option.some.inj heq)
  obtain ⟨⟨nodes', h'⟩, -⟩ := moved_of_call h hcall
  exact ⟨out, t, nodes', rest, hcall, h', hrest, rfl⟩

theorem layout_of_clientRun (h : Layout s nodes)
    (hrun : clientRun m calls s = some (trace, s')) : ∃ nodes, Layout s' nodes := by
  induction calls generalizing s nodes trace with
  | nil =>
    obtain ⟨-, rfl⟩ := Prod.mk.inj (Option.some.inj hrun)
    exact ⟨nodes, h⟩
  | cons x calls ih =>
    obtain ⟨out, t, nodes', rest, -, h', hrest, -⟩ := clientRun_cons h hrun
    exact ih h' hrest

/-- A trace lists the calls of its run. -/
theorem mem_of_clientRun (h : Layout s nodes) (hrun : clientRun m calls s = some (trace, s'))
    {x : (Side × Call) × Outcome} (hx : x ∈ trace) : x.1 ∈ calls := by
  induction calls generalizing s nodes trace with
  | nil =>
    obtain ⟨rfl, -⟩ := Prod.mk.inj (Option.some.inj hrun)
    cases hx
  | cons y calls ih =>
    obtain ⟨out, t, nodes', rest, -, h', hrest, rfl⟩ := clientRun_cons h hrun
    rcases List.mem_cons.mp hx with rfl | hx
    · exact List.mem_cons_self
    · exact List.mem_cons_of_mem _ (ih h' hrest hx)

/-- The selection after calls none of which is a successful `ioctl`. Induction on the calls. -/
theorem curr_after_run (h : Layout s nodes) (hrun : clientRun m calls s = some (trace, s'))
    (hc : ∀ x ∈ trace, ∀ kmalloc cmd p, x.1.2 = .ioctl kmalloc cmd p → x.2.ret ≠ SUCCESS) :
    s'.curr m = s.curr m ∨ s'.curr m = none := by
  induction calls generalizing s nodes trace with
  | nil =>
    obtain ⟨-, rfl⟩ := Prod.mk.inj (Option.some.inj hrun)
    exact Or.inl rfl
  | cons x calls ih =>
    obtain ⟨out, t, nodes', rest, hcall, h', hrest, rfl⟩ := clientRun_cons h hrun
    have hstep := curr_after h hcall (hc (x, out) (by simp))
    rcases ih h' hrest fun y hy => hc y (by simp [hy]) with hafter | hafter
    · rw [hafter]
      exact hstep
    · exact Or.inr hafter

/-- Between the `ioctl` and the request of a client come only calls of the other client. -/
theorem Interleaving.between
    (hl : Interleaving clients (pre ++ (side, (clients side).selects) ::
      (mid ++ (side, (clients side).request.call) :: post))) {x : Side × Call} (hx : x ∈ mid) :
    x.1 ≠ side ∧ x.2 ∈ (clients x.1).program := by
  constructor
  · have hprefix := hl side
    simp only [List.filter_append, List.filter_cons, decide_true, if_true, List.map_append,
      List.map_cons] at hprefix
    obtain ⟨rest, hprogram⟩ := hprefix
    -- the client opened the file before, so its request is the next call of its own
    have hopened : (pre.filter fun x => x.1 = side).map Prod.snd ≠ [] := by
      intro hnil
      rw [hnil] at hprogram
      exact Call.noConfusion (List.cons.inj hprogram).1
    have hlen := congrArg List.length hprogram
    have hpos := List.length_pos_iff.mpr hopened
    simp only [List.length_append, List.length_cons, List.length_map, Client.program,
      List.length_nil] at hlen hpos
    have hnone : (mid.filter fun x => x.1 = side).length = 0 := by omega
    intro hside
    have hmem : x ∈ mid.filter fun x => x.1 = side := List.mem_filter.mpr ⟨hx, by simpa using hside⟩
    rw [List.eq_nil_of_length_eq_zero hnone] at hmem
    cases hmem
  · apply (hl x.1).subset
    apply List.mem_map.mpr
    refine ⟨x, List.mem_filter.mpr ⟨?_, by simp⟩, rfl⟩
    simp [hx]

/-- **Clients keep to their channels.** In every interleaving of two clients on one minor, from
every reachable state, a client's write changes no channel but the one that this client
selected, and its read, if it succeeds, delivers the message of that channel, as long as no
`ioctl` of the other client succeeds between the client's own `ioctl` and its request. -/
theorem clients_keep_apart (hs : Reachable s) (hl : Interleaving clients calls) :
    AtEveryRequest (fun side trace s₁ s₂ => Undisturbed clients side trace →
      UsesOnly m (s₁.curr m) (clients side).request s₂) m clients s calls := by
  rintro side pre mid post rfl t₁ s₁ t₂ s₂ hbefore hbetween hundisturbed
  obtain ⟨nodes, h⟩ := hs.layout
  obtain ⟨nodes₁, h₁⟩ := layout_of_clientRun h hbefore
  obtain ⟨nodes₂, h₂⟩ := layout_of_clientRun h₁ hbetween
  have hselection : s₂.curr m = s₁.curr m ∨ s₂.curr m = none := by
    apply curr_after_run h₁ hbetween
    intro x hx kmalloc cmd p hcall
    obtain ⟨hside, hprogram⟩ := hl.between (mem_of_clientRun h₁ hbetween hx)
    apply hundisturbed x hx hside
    -- of a client's calls only one is an `ioctl`
    simp only [Client.program, List.mem_cons, List.not_mem_nil, or_false] at hprogram
    rcases hprogram with hopens | hselects | hrequest
    · rw [hopens] at hcall
      cases hcall
    · exact hselects
    · rw [hrequest] at hcall
      cases hreq : (clients x.1.1).request <;> rw [hreq] at hcall <;> cases hcall
  have huses := usesOnly_curr h₂ m (clients side).request
  rcases hselection with hsame | hnone
  · rwa [hsame] at huses
  · rw [hnone] at huses
    exact huses.of_none

/-! ### Two writers -/

/-- Two writers with the channels 1 and 2. -/
def writers : Side → Client
  | .left => ⟨1, some ⟨0, none, none, none, none⟩, some zeroed, .write (some fun _ => 97) 1⟩
  | .right => ⟨2, some ⟨0, none, none, none, none⟩, some zeroed, .write (some fun _ => 98) 1⟩

/-- Between the left writer's `ioctl` and its `write` the right one opens the file, and selects its
channel behind them. -/
theorem writers_keep_apart :
    AtEveryRequest (fun side trace s₁ s₂ => Undisturbed writers side trace →
      UsesOnly 0 (s₁.curr 0) (writers side).request s₂) 0 writers .init
      [(.left, (writers .left).opens), (.left, (writers .left).selects),
        (.right, (writers .right).opens), (.left, (writers .left).request.call),
        (.right, (writers .right).selects), (.right, (writers .right).request.call)] := by
  apply clients_keep_apart ⟨[], [], rfl⟩
  intro side
  cases side <;> exact ⟨[], rfl⟩

/-- The left client selects channel 1, the right one channel 2, and the left one writes: its
message goes to channel 2. -/
theorem clients_cross :
    ¬ ∀ (m : BitVec 32) (clients : Side → Client) (s : State) (calls : List (Side × Call)),
      Reachable s → (clients .left).channel ≠ (clients .right).channel →
      (∀ side, (clients side).channel.toNat < 2 ^ 31) → Interleaving clients calls →
      KeepApart m clients s calls := by
  intro h
  have hcross := h 0 writers .init
    [(.left, (writers .left).opens), (.left, (writers .left).selects),
      (.right, (writers .right).opens), (.right, (writers .right).selects),
      (.left, (writers .left).request.call)]
    ⟨[], [], rfl⟩ (by decide) (by intro side; cases side <;> decide)
    (by intro side; cases side; exacts [⟨[], rfl⟩, ⟨[(writers .right).request.call], rfl⟩])
  have huses := hcross .left [(.left, (writers .left).opens)]
    [(.right, (writers .right).opens), (.right, (writers .right).selects)] [] rfl _ _ _ _ rfl rfl
  have hsame := huses _ _ rfl 1 (by decide)
  have hlength : some (1 : BitVec 32) = some 0 :=
    congrArg (Option.map fun d : Channel => d.length) hsame
  exact absurd hlength (by decide)

end Runs

end OsHw.Hw3
