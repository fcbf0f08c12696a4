import OsHw.Ex5.Agreement

/-!
# OsHw — which exchanges of `pcc` end up waiting

The client decides with a signed comparison, before the first byte, whether there is anything to
send; the server reads once before it compares, and compares unsigned. Where the two disagree,
the client waits for the answer and the server for data.

* **`MutualWait`**, **`MutualWait.stuck`** — both parties are blocked for good.
* **`Agreed.no_mutualWait`** — not from a length that is a positive `int`.
* **`reaches_mutualWait`** — from every other length.
* **`mutualWait_iff`** — the two together.
-/

namespace OsHw.Ex5

variable {order : ByteOrder} {input : Nat → UInt8} {N : BitVec 32} {s : Exchange}

/-- Both parties are in `read`, so that neither has closed its end, with nothing in flight in
either direction. -/
structure MutualWait (s : Exchange) : Prop where
  client : ∃ r, s.client.phase = .readC r
  server : ∃ want, s.server.request = some want
  toServer : s.toServer.length ≤ s.serverPos
  toClient : s.toClient.length ≤ s.clientPos

/-- Nobody has closed its end, and nobody ever moves again. -/
theorem MutualWait.stuck (h : MutualWait s) :
    Runs.Stuck (Exchange.step order input) (fun _ _ => True) s := by
  obtain ⟨r, hclient⟩ := h.client
  obtain ⟨want, hserver⟩ := h.server
  rintro ⟨party, k⟩ -
  cases party with
  | client =>
    show Exchange.clientStep order input k s = none
    unfold Exchange.clientStep
    rw [hclient, Option.map_eq_none_iff]
    show socketRead s.toClient s.clientPos _ k s.server.phase.done = none
    rw [socketRead, if_pos h.toClient, Connection.open_of_request hserver]
    rfl
  | server =>
    show Exchange.serverStep order k s = none
    unfold Exchange.serverStep
    rw [hserver]
    show Option.map _ (socketRead s.toServer s.serverPos want k s.client.phase.done) = none
    rw [socketRead, if_pos h.toServer, hclient]
    rfl

/-- While the client reads, the server has bytes ahead of it. -/
theorem Agreed.no_mutualWait (h : Agreed order input N s) : ¬ MutualWait s := by
  intro hwait
  obtain ⟨r, hclient⟩ := hwait.client
  obtain ⟨want, hserver⟩ := hwait.server
  have hbehind := h.server_behind hserver hclient
  exact absurd hwait.toServer (not_le.mpr hbehind)

/-- The header is on the wire, and the client waits for its answer. -/
def headerSent (order : ByteOrder) (N : BitVec 32) (junk junk' : Vector UInt8 UINT_LEN) :
    Exchange :=
  { Exchange.start N junk junk' with
    toServer := order.encode N
    client := { phase := .readC 0, N := N, charC := junk.toList } }

/-- The server has read the header, and waits for data. -/
def headerRead (order : ByteOrder) (N : BitVec 32) (junk junk' : Vector UInt8 UINT_LEN) :
    Exchange :=
  { headerSent order N junk junk' with
    serverPos := UINT_LEN
    server := (Connection.start junk').received order (order.encode N) }

section Header

variable {junk junk' : Vector UInt8 UINT_LEN}

theorem step_headerSent (hN : N.toInt ≤ 0) :
    Exchange.step order input (.client, 4) (.start N junk junk') =
      some (headerSent order N junk junk') := by
  have henc : (order.encode N).length = 4 := order.length_encode N
  have htaken : socketWrite ((order.encode N).drop 0) 4 = some (order.encode N) := by
    rw [List.drop_zero, socketWrite, if_pos (by omega), List.take_of_length_le henc.le]
  have hnothing : sendData N.toInt 0 = .readC 0 := if_neg (not_lt.mpr hN)
  show Option.map _ (socketWrite ((order.encode N).drop 0) 4) = _
  rw [htaken, Option.map_some]
  simp [Exchange.start, headerSent, UINT_LEN, hnothing]

theorem step_headerRead :
    Exchange.step order input (.server, 4) (headerSent order N junk junk') =
      some (headerRead order N junk junk') := by
  have henc : (order.encode N).length = 4 := order.length_encode N
  have hread : socketRead (order.encode N) 0 UINT_LEN 4 false = some (order.encode N) := by
    rw [socketRead, if_neg (by omega), if_pos ⟨by decide, by decide, by omega⟩, List.drop_zero,
      List.take_of_length_le henc.le]
  show Option.map _ (socketRead (order.encode N) 0 UINT_LEN 4 false) = _
  rw [hread, Option.map_some]
  simp [headerRead, headerSent, Exchange.start, henc, UINT_LEN]

theorem headerRead_waits : MutualWait (headerRead order N junk junk') where
  client := ⟨0, rfl⟩
  server := by
    have henc : (order.encode N).length = 4 := order.length_encode N
    have hphase : (headerRead order N junk junk').server.phase = .readStream := by
      simp [headerRead, Connection.start, Connection.received, henc, UINT_LEN]
    exact ⟨BUFF_LEN, by rw [Connection.request, hphase]⟩
  toServer := (order.length_encode N).le
  toClient := le_refl 0

end Header

/-- If the client sends nothing, the server waits for the data behind the header, and the client
for its answer. -/
theorem reaches_mutualWait (junk junk' : Vector UInt8 UINT_LEN) (hN : N.toInt ≤ 0) :
    ∃ s, Exchange.Reachable order input N junk junk' s ∧ MutualWait s :=
  ⟨headerRead order N junk junk',
    (Runs.Reaches.single trivial (step_headerSent hN)).tail trivial step_headerRead,
    headerRead_waits⟩

/-- **Mutual waits.** The two parties never wait for each other if and only if the length is a
positive `int`. -/
theorem mutualWait_iff (order : ByteOrder) (input : Nat → UInt8) (N : BitVec 32)
    (junk junk' : Vector UInt8 UINT_LEN) :
    (∀ s, Exchange.Reachable order input N junk junk' s → ¬ MutualWait s) ↔
      1 ≤ N.toNat ∧ N.toNat < 2 ^ 31 := by
  constructor
  · intro hnever
    have hpos : ¬ N.toInt ≤ 0 := by
      intro hN
      obtain ⟨s, hs, hwait⟩ := reaches_mutualWait junk junk' hN
      exact hnever s hs hwait
    have hlt := N.isLt
    rw [BitVec.toInt_eq_toNat_cond] at hpos
    split at hpos <;> omega
  · rintro ⟨h₁, h₂⟩ s hs
    exact (hs.agreed h₁ h₂).no_mutualWait

/-- With the length 0. -/
theorem mutualWait_zero :
    ∃ s, Exchange.Reachable .little (fun _ => 65) 0 (.replicate 4 0) (.replicate 4 0) s ∧
      MutualWait s :=
  reaches_mutualWait _ _ (by decide)

end OsHw.Ex5
