import OsHw.Ex5.Agreement

/-!
# OsHw — one exchange of `pcc` is exact

Every call moves at least one byte, and a bounded number of bytes is moved in all; until both
ends are closed, one of the two parties has a call that does not block.

* **`step_moved`**, **`Agreed.moved_le`** — the bytes moved, and their bound.
* **`Agreed.progress`** — no state is stuck in which an end is open.
* **`exchange_exact`** — what holds during an exchange, and what it ends with.
-/

namespace OsHw.Ex5

variable {order : ByteOrder} {input : Nat → UInt8} {N : BitVec 32} {s s' : Exchange}

/-! ## Bytes moved -/

/-- The bytes that all calls so far have moved. -/
def Exchange.moved (s : Exchange) : Nat :=
  s.inputPos + s.toServer.length + s.serverPos + s.toClient.length + s.clientPos

/-- What a `write` takes makes the stream longer. -/
theorem socketWrite_longer {bytes taken stream : List UInt8} {k : Nat}
    (h : socketWrite bytes k = some taken) : stream.length < (stream ++ taken).length := by
  obtain ⟨hk, hle, rfl⟩ := socketWrite_some h
  rw [List.length_append, List.length_take]
  omega

theorem clientStep_moved {k : Nat} (h : Agreed order input N s)
    (hst : Exchange.clientStep order input k s = some s') : s.moved < s'.moved := by
  have hopen := fun r => h.client_open (r := r)
  obtain ⟨⟨phase, N', charC⟩, server, inputPos, toServer, serverPos, toClient, clientPos⟩ := s
  cases phase with
  | sendN w =>
    obtain ⟨bytes, htaken, rfl⟩ := Option.map_eq_some_iff.mp hst
    have hlt : toServer.length < (toServer ++ bytes).length := socketWrite_longer htaken
    show inputPos + toServer.length + serverPos + toClient.length + clientPos <
      inputPos + (toServer ++ bytes).length + serverPos + toClient.length + clientPos
    omega
  | fill written toRead buff =>
    unfold Exchange.clientStep at hst
    dsimp only at hst
    generalize (if buff.length = 0 then toRead else BUFF_LEN - buff.length) = want at hst
    split at hst
    · rename_i hk
      obtain rfl := Option.some.inj hst
      show inputPos + toServer.length + serverPos + toClient.length + clientPos <
        inputPos + k + toServer.length + serverPos + toClient.length + clientPos
      omega
    · cases hst
  | flush written toRead w buff =>
    obtain ⟨bytes, htaken, rfl⟩ := Option.map_eq_some_iff.mp hst
    have hlt : toServer.length < (toServer ++ bytes).length := socketWrite_longer htaken
    show inputPos + toServer.length + serverPos + toClient.length + clientPos <
      inputPos + (toServer ++ bytes).length + serverPos + toClient.length + clientPos
    omega
  | readC r =>
    obtain ⟨data, hread, rfl⟩ := Option.map_eq_some_iff.mp hst
    rcases socketRead_some hread with ⟨hpos, hclosed, -⟩ | ⟨hk, hwant, hpos, rfl⟩
    · exact absurd hpos (not_le.mpr (hopen _ rfl hclosed))
    · change clientPos + k ≤ toClient.length at hpos
      show inputPos + toServer.length + serverPos + toClient.length + clientPos <
        inputPos + toServer.length + serverPos + toClient.length +
          (clientPos + ((toClient.drop clientPos).take k).length)
      rw [List.length_take, List.length_drop]
      omega
  | closed C => cases hst

theorem serverStep_moved {k : Nat} (h : Agreed order input N s)
    (hst : Exchange.serverStep order k s = some s') : s.moved < s'.moved := by
  have hopen : ∀ want, s.server.request = some want → s.client.phase.done = true →
      s.serverPos < s.toServer.length := fun _ => h.server_open
  obtain ⟨client, server, inputPos, toServer, serverPos, toClient, clientPos⟩ := s
  unfold Exchange.serverStep at hst
  split at hst
  · rename_i want hrequest
    obtain ⟨data, hread, rfl⟩ := Option.map_eq_some_iff.mp hst
    rcases socketRead_some hread with ⟨hpos, hclosed, -⟩ | ⟨hk, hwant, hpos, rfl⟩
    · exact absurd hpos (not_le.mpr (hopen _ hrequest hclosed))
    · change serverPos + k ≤ toServer.length at hpos
      show inputPos + toServer.length + serverPos + toClient.length + clientPos <
        inputPos + toServer.length + (serverPos + ((toServer.drop serverPos).take k).length) +
          toClient.length + clientPos
      rw [List.length_take, List.length_drop]
      omega
  · obtain ⟨bytes, htaken, rfl⟩ := Option.map_eq_some_iff.mp hst
    have hlt : toClient.length < (toClient ++ bytes).length := socketWrite_longer htaken
    show inputPos + toServer.length + serverPos + toClient.length + clientPos <
      inputPos + toServer.length + serverPos + (toClient ++ bytes).length + clientPos
    omega

/-- **Every call moves something.** -/
theorem step_moved {move : Move} (h : Agreed order input N s)
    (hst : Exchange.step order input move s = some s') : s.moved < s'.moved := by
  obtain ⟨party, k⟩ := move
  cases party with
  | client => exact clientStep_moved h hst
  | server => exact serverStep_moved h hst

/-- All that an exchange can move: each byte of the two streams is written and read, and of the
input up to a buffer is read too much. -/
def allMoved (N : BitVec 32) : Nat := N.toNat + BUFF_LEN + 2 * (UINT_LEN + N.toNat) + 2 * UINT_LEN

theorem Sends.inputPos_le {phase : ClientPhase} {sent : List UInt8} {pos : Nat}
    (h : Sends order input N phase sent pos) : pos ≤ N.toNat + BUFF_LEN := by
  cases h with
  | sendN => exact Nat.zero_le _
  | fill hlt hread hlen => omega
  | flush hlt hread hw hlen hmax => omega
  | readC hpos => exact hpos
  | closed hpos => exact hpos

theorem Receives.pos_le {charC processed toClient : List UInt8} {N' totalPrintable : BitVec 32}
    {phase : Phase} {pos : Nat}
    (h : Receives order input N charC N' totalPrintable processed phase pos toClient) :
    pos ≤ UINT_LEN + N.toNat := by
  cases h <;> omega

theorem ReadsBack.pos_le {phase : ClientPhase} {charC toClient : List UInt8} {pos : Nat}
    (h : ReadsBack order toClient phase pos charC) : pos ≤ UINT_LEN := by
  cases h <;> omega

theorem ReadsBack.of_readC {charC toClient : List UInt8} {r pos : Nat}
    (h : ReadsBack order toClient (.readC r) pos charC) : pos < UINT_LEN := by
  cases h with
  | readC hlen hr hle htake => exact hr

theorem ReadsBack.of_closed {charC toClient : List UInt8} {C : BitVec 32} {pos : Nat}
    (h : ReadsBack order toClient (.closed C) pos charC) :
    toClient.length = UINT_LEN ∧ C = order.decode toClient := by
  cases h with
  | closed hlen => exact ⟨hlen, rfl⟩

theorem Agreed.moved_le (h : Agreed order input N s) : s.moved ≤ allMoved N := by
  have hinput := h.sends.inputPos_le
  have hsent : s.toServer.length ≤ UINT_LEN + N.toNat := length_wire ▸ h.sends.isPrefix.length_le
  have hpos := h.receives.pos_le
  have hanswer := h.receives.answer.1
  have hread := h.readsBack.pos_le
  unfold Exchange.moved allMoved
  omega

/-! ## Progress -/

theorem socketRead_one {sent : List UInt8} {pos want : Nat} {closed : Bool} (hw : 1 ≤ want)
    (hpos : pos < sent.length) : (socketRead sent pos want 1 closed).isSome = true := by
  rw [socketRead, if_neg (by omega), if_pos (by omega)]
  rfl

theorem socketWrite_one {bytes : List UInt8} (h : bytes ≠ []) :
    (socketWrite bytes 1).isSome = true := by
  have hlen := List.length_pos_iff.mpr h
  rw [socketWrite, if_pos (by omega)]
  rfl

/-- The server waits for nothing but its client's bytes. -/
theorem Agreed.server_progress (h : Agreed order input N s) (hopen : s.server.phase.done = false)
    (hread : s.server.request ≠ none → s.serverPos < s.toServer.length) :
    (Exchange.serverStep order 1 s).isSome = true := by
  have hreceives := h.receives
  obtain ⟨client, ⟨phase, charC, N', totalRead, totalPrintable, localCounter, processed, sent⟩,
    inputPos, toServer, serverPos, toClient, clientPos⟩ := s
  dsimp only at hreceives
  cases hreceives with
  | readN hlen hr htake hnone =>
    exact Option.isSome_map.trans (socketRead_one (by omega) (hread nofun))
  | readStream hN hr hdata =>
    exact Option.isSome_map.trans (socketRead_one (by decide) (hread nofun))
  | @sendC w hN hdata hw =>
    have hne : (order.encode totalPrintable).drop w ≠ [] := by
      rw [Ne, List.drop_eq_nil_iff, order.length_encode]
      exact not_le.mpr hw
    exact Option.isSome_map.trans (socketWrite_one hne)
  | closed => cases hopen

/-- The client waits for nothing but the server's answer. -/
theorem Agreed.client_progress (h : Agreed order input N s) (hopen : s.client.phase.done = false)
    (hread : ∀ r, s.client.phase = .readC r → s.clientPos < s.toClient.length) :
    (Exchange.clientStep order input 1 s).isSome = true := by
  have hreads := h.readsBack
  have hsends := h.sends
  obtain ⟨⟨phase, N', charC⟩, server, inputPos, toServer, serverPos, toClient, clientPos⟩ := s
  dsimp only at hreads hsends
  cases hsends with
  | @sendN w hw =>
    have hne : (order.encode N').drop w ≠ [] := by
      rw [Ne, List.drop_eq_nil_iff, order.length_encode]
      exact not_le.mpr hw
    exact Option.isSome_map.trans (socketWrite_one hne)
  | @fill written toRead len hlt hbuff hlen =>
    -- the buffer is not full before the chunk is
    have hwant : 1 ≤ if len = 0 then toRead else BUFF_LEN - len := by
      split <;> omega
    unfold Exchange.clientStep
    dsimp only
    rw [length_slice, if_pos ⟨le_refl _, hwant⟩]
    rfl
  | @flush written toRead w len hlt hbuff hw hlen hmax =>
    have hne : ((slice input written len).take toRead).drop w ≠ [] := by
      rw [Ne, List.drop_eq_nil_iff, List.length_take, length_slice]
      omega
    exact Option.isSome_map.trans (socketWrite_one hne)
  | @readC r pos hpos =>
    cases hreads with
    | readC hlen hr hle htake =>
      exact Option.isSome_map.trans (socketRead_one (by omega) (hread _ rfl))
  | closed => cases hopen

/-- **Progress.** Until both ends are closed, one of the parties has a call that does not
block. -/
theorem Agreed.progress (h : Agreed order input N s)
    (hopen : s.client.phase.done = false ∨ s.server.phase.done = false) :
    ∃ move, (Exchange.step order input move s).isSome = true := by
  have hanswer := h.receives.answer
  have hreads := h.readsBack
  cases hphase : s.client.phase with
  | readC r =>
    by_cases hpos : s.clientPos < s.toClient.length
    · exact ⟨(.client, 1), h.client_progress (by rw [hphase]; rfl) fun _ _ => hpos⟩
    · -- the client waits for the server, which is not done, and has its bytes ahead of it
      rw [hphase] at hreads
      have hshort := hreads.of_readC
      have hwriting : s.server.phase.done = false := by
        rw [← Bool.not_eq_true, hanswer.2]
        omega
      have hread : s.server.request ≠ none → s.serverPos < s.toServer.length := by
        intro hrequest
        obtain ⟨want, hwant⟩ := Option.ne_none_iff_exists'.mp hrequest
        exact h.server_behind hwant hphase
      exact ⟨(.server, 1), h.server_progress hwriting hread⟩
  | closed C =>
    rw [hphase] at hreads
    rw [hphase, hanswer.2.mpr hreads.of_closed.1] at hopen
    exact absurd hopen (show ¬((true : Bool) = false ∨ true = false) by decide)
  | _ => exact ⟨(.client, 1), h.client_progress (by rw [hphase]; rfl) (by rw [hphase]; nofun)⟩

/-! ## The result -/

/-- What holds in every state of an exchange: what was sent is the start of the wire; once the
header is read, the server has the length and has read no further than the bytes it has
processed; when it is done its counters are those of the data; and the number the client
prints is that of the printable bytes of the data. -/
structure Exact (order : ByteOrder) (input : Nat → UInt8) (N : BitVec 32) (s : Exchange) :
    Prop where
  sent : s.toServer <+: wire order input N
  header : (∀ r, s.server.phase ≠ .readN r) →
    s.server.N = N ∧ s.serverPos = UINT_LEN + s.server.processed.length
  data : s.server.processed <+: slice input 0 N.toNat
  counted : s.server.phase.done = true →
    ∀ i, (s.server.localCounter i).toNat = occurrences (slice input 0 N.toNat) i
  printed : ∀ C, s.client.phase = .closed C →
    s.toServer = wire order input N ∧ C.toNat = printables (slice input 0 N.toNat)

theorem toNat_ofNat_countP {bytes : List UInt8} {p : UInt8 → Bool}
    (h : bytes.length < 2 ^ 32) : (BitVec.ofNat 32 (bytes.countP p)).toNat = bytes.countP p := by
  have hle := bytes.countP_le_length (p := p)
  rw [BitVec.toNat_ofNat, Nat.mod_eq_of_lt (by omega)]

section Receives

variable {charC processed toClient : List UInt8} {N' totalPrintable : BitVec 32} {phase : Phase}
  {pos : Nat}

theorem Receives.header
    (h : Receives order input N charC N' totalPrintable processed phase pos toClient)
    (hphase : ∀ r, phase ≠ .readN r) : N' = N ∧ pos = UINT_LEN + processed.length := by
  cases h with
  | readN => exact absurd rfl (hphase _)
  | readStream hN hr hdata => exact ⟨hN, by rw [hdata, length_slice]⟩
  | sendC hN hdata => exact ⟨hN, by rw [hdata, length_slice]⟩
  | closed hN hdata => exact ⟨hN, by rw [hdata, length_slice]⟩

theorem Receives.data
    (h : Receives order input N charC N' totalPrintable processed phase pos toClient) :
    processed <+: slice input 0 N.toNat := by
  cases h with
  | readN hlen hr htake hnone => exact hnone ▸ List.nil_prefix
  | @readStream r hN hr hdata =>
    have htake : (slice input 0 N.toNat).take r = slice input 0 r := take_slice hr.le
    rw [hdata, ← htake]
    exact List.take_prefix _ _
  | sendC hN hdata => exact hdata ▸ List.prefix_refl _
  | closed hN hdata => exact hdata ▸ List.prefix_refl _

theorem Receives.of_done
    (h : Receives order input N charC N' totalPrintable processed phase pos toClient)
    (hdone : phase.done = true) :
    processed = slice input 0 N.toNat ∧ toClient = order.encode totalPrintable := by
  cases h with
  | closed hN hdata => exact ⟨hdata, rfl⟩
  | _ => cases hdone

end Receives

theorem length_slice_lt : (slice input 0 N.toNat).length < 2 ^ 32 := by
  rw [length_slice]
  exact N.isLt

/-- A whole answer is the number of the printable bytes. -/
theorem Agreed.answered (h : Agreed order input N s) (hlen : s.toClient.length = UINT_LEN) :
    (order.decode s.toClient).toNat = printables (slice input 0 N.toNat) := by
  obtain ⟨hdata, hanswer⟩ := h.receives.of_done (h.receives.answer.2.mpr hlen)
  rw [hanswer, order.decode_encode, h.tallied.totalPrintable, hdata]
  exact toNat_ofNat_countP length_slice_lt

theorem Agreed.exact (h : Agreed order input N s) : Exact order input N s := by
  refine ⟨h.sends.isPrefix, h.receives.header, h.receives.data, ?_, ?_⟩
  · intro hdone i
    rw [h.tallied.localCounter i, (h.receives.of_done hdone).1]
    exact toNat_ofNat_countP length_slice_lt
  · intro C hphase
    have hclosed := h.readsBack
    rw [hphase] at hclosed
    refine ⟨h.sends.of_done (by rw [hphase]; rfl), ?_⟩
    rw [hclosed.of_closed.2]
    exact h.answered hclosed.of_closed.1

/-- **An exchange is exact.** For every length from 1 up to the largest `int`, every input and
every way to split the reads and writes: what has been exchanged is right in every state; every
run ends, and it ends only when both parties are done. -/
theorem exchange_exact (h₁ : 1 ≤ N.toNat) (h₂ : N.toNat < 2 ^ 31)
    (junk junk' : Vector UInt8 UINT_LEN) :
    (∀ s, Exchange.Reachable order input N junk junk' s →
      Exact order input N s ∧
        (Runs.Stuck (Exchange.step order input) (fun _ _ => True) s →
          s.client.phase.done = true ∧ s.server.phase.done = true)) ∧
    ∀ moves s, Runs.run (Exchange.step order input) moves (.start N junk junk') = some s →
      moves.length ≤ allMoved N := by
  constructor
  · intro s hs
    have hagreed := hs.agreed h₁ h₂
    refine ⟨hagreed.exact, fun hstuck => ?_⟩
    -- a party that is not done could take a step
    by_contra hopen
    have hopen' : s.client.phase.done = false ∨ s.server.phase.done = false := by
      rw [← Bool.not_eq_true, ← Bool.not_eq_true]
      exact not_and_or.mp hopen
    obtain ⟨move, hmove⟩ := hagreed.progress hopen'
    rw [hstuck move trivial] at hmove
    cases hmove
  · intro moves s hrun
    have hdec : ∀ e t u, Agreed order input N t → Exchange.step order input e t = some u →
        allMoved N - u.moved < allMoved N - t.moved := by
      intro e t u ht hst
      have hmoved := step_moved ht hst
      have hle := (step_agreed h₁ h₂ ht hst).moved_le
      omega
    have hlen := Runs.length_le_of_measure (fun s => allMoved N - s.moved)
      (fun _ _ _ ht hst => step_agreed h₁ h₂ ht hst) hdec (start_agreed junk junk') hrun
    exact hlen.trans (Nat.sub_le _ _)

/-- An `A` and a line feed. -/
def letterAndBreak (i : Nat) : UInt8 := if i = 0 then 65 else 10

/-- With the length, the data and the answer each in two pieces, the client prints the number 1. -/
theorem exchange_two : ∃ s, Exchange.Reachable .little letterAndBreak 2 (.replicate 4 0)
    (.replicate 4 0) s ∧ s.client.phase = .closed 1 ∧ Exact .little letterAndBreak 2 s := by
  have hrun : (Runs.run (Exchange.step .little letterAndBreak)
      [(.client, 1), (.server, 1), (.client, 3), (.client, 1), (.server, 3), (.client, 1),
        (.client, 1), (.server, 1), (.client, 1), (.server, 1), (.server, 1), (.client, 1),
        (.server, 3), (.client, 3)]
      (.start 2 (.replicate 4 0) (.replicate 4 0))).map (·.client.phase) =
      some (.closed 1) := by decide
  obtain ⟨s, hs, hphase⟩ := Option.map_eq_some_iff.mp hrun
  have hreach := Runs.reaches_of_run (P := fun _ _ => True) (fun _ _ _ => trivial) hs
  exact ⟨s, hreach, hphase, ((exchange_exact (by decide) (by decide) _ _).1 s hreach).1⟩

end OsHw.Ex5
