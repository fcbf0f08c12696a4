import OsHw.Ex5.Exchange

/-!
# OsHw — one exchange of `pcc` is exact

For a length `N` from 1 up to the largest `int`, client and server agree on where the header
ends and where the data ends, whatever the sizes of the single reads and writes.

* **`Sends`**, **`Receives`** — what the client has written, and what the server has made of
  it, in each of their phases.
* **`Agreed`** — the invariant of the exchange.
* **`Agreed.client_open`**, **`Agreed.server_open`** — neither party reads the end of the stream.
* **`step_agreed`** — every call of either party keeps the invariant.
-/

namespace OsHw.Ex5

/-! ## The client's input -/

/-- `n` bytes of the input, from the byte `a` on. -/
def slice (input : Nat → UInt8) (a n : Nat) : List UInt8 :=
  (List.range n).map fun j => input (a + j)

section Slice

variable {input : Nat → UInt8} {a n k : Nat}

@[simp] theorem length_slice : (slice input a n).length = n := by simp [slice]

theorem slice_append : slice input a n ++ slice input (a + n) k = slice input a (n + k) := by
  simp only [slice, List.range_add, List.map_append, List.map_map]
  congr 2
  funext j
  simp [Nat.add_assoc]

theorem take_slice (h : k ≤ n) : (slice input a n).take k = slice input a k := by
  obtain ⟨r, rfl⟩ := Nat.exists_eq_add_of_le h
  rw [← slice_append, List.take_left' length_slice]

theorem drop_slice (h : k ≤ n) : (slice input a n).drop k = slice input (a + k) (n - k) := by
  obtain ⟨r, rfl⟩ := Nat.exists_eq_add_of_le h
  rw [← slice_append, List.drop_left' length_slice, Nat.add_sub_cancel_left]

end Slice

/-! ## The invariant -/

variable {order : ByteOrder} {input : Nat → UInt8} {N : BitVec 32} {s s' : Exchange} {k : Nat}

/-- What the client puts on the wire: the length and so many bytes of its input. -/
def wire (order : ByteOrder) (input : Nat → UInt8) (N : BitVec 32) : List UInt8 :=
  order.encode N ++ slice input 0 N.toNat

/-- What the client has written, and how much of its input it has read. -/
inductive Sends (order : ByteOrder) (input : Nat → UInt8) (N : BitVec 32) :
    ClientPhase → List UInt8 → Nat → Prop where
  | sendN {w : Nat} (hw : w < UINT_LEN) :
      Sends order input N (.sendN w) ((order.encode N).take w) 0
  | fill {written toRead len : Nat} (hlt : written < N.toNat)
      (hread : toRead = min (N.toNat - written) BUFF_LEN) (hlen : len < toRead) :
      Sends order input N (.fill written toRead (slice input written len))
        (order.encode N ++ slice input 0 written) (written + len)
  | flush {written toRead w len : Nat} (hlt : written < N.toNat)
      (hread : toRead = min (N.toNat - written) BUFF_LEN) (hw : w < toRead) (hlen : toRead ≤ len)
      (hmax : len ≤ BUFF_LEN) :
      Sends order input N (.flush written toRead w (slice input written len))
        (order.encode N ++ slice input 0 (written + w)) (written + len)
  | readC {r pos : Nat} (hpos : pos ≤ N.toNat + BUFF_LEN) :
      Sends order input N (.readC r) (wire order input N) pos
  | closed {C : BitVec 32} {pos : Nat} (hpos : pos ≤ N.toNat + BUFF_LEN) :
      Sends order input N (.closed C) (wire order input N) pos

/-- What the client has read of the server's answer. -/
inductive ReadsBack (order : ByteOrder) (toClient : List UInt8) : ClientPhase → Nat →
    List UInt8 → Prop where
  | sendN {w : Nat} {charC : List UInt8} (hlen : charC.length = UINT_LEN) :
      ReadsBack order toClient (.sendN w) 0 charC
  | fill {written toRead : Nat} {buff charC : List UInt8} (hlen : charC.length = UINT_LEN) :
      ReadsBack order toClient (.fill written toRead buff) 0 charC
  | flush {written toRead w : Nat} {buff charC : List UInt8} (hlen : charC.length = UINT_LEN) :
      ReadsBack order toClient (.flush written toRead w buff) 0 charC
  | readC {r : Nat} {charC : List UInt8} (hlen : charC.length = UINT_LEN) (hr : r < UINT_LEN)
      (hle : r ≤ toClient.length) (htake : charC.take r = toClient.take r) :
      ReadsBack order toClient (.readC r) r charC
  | closed {charC : List UInt8} (hlen : toClient.length = UINT_LEN) :
      ReadsBack order toClient (.closed (order.decode toClient)) UINT_LEN charC

/-- What the server has made of the bytes it read, and what it has written. -/
inductive Receives (order : ByteOrder) (input : Nat → UInt8) (N : BitVec 32)
    (charC : List UInt8) (N' total : BitVec 32) (processed : List UInt8) :
    Phase → Nat → List UInt8 → Prop where
  | readN {r : Nat} (hlen : charC.length = UINT_LEN) (hr : r < UINT_LEN)
      (htake : charC.take r = (order.encode N).take r) (hnone : processed = []) :
      Receives order input N charC N' total processed (.readN r) r []
  | readStream {r : Nat} (hN : N' = N) (hr : r < N.toNat) (hdata : processed = slice input 0 r) :
      Receives order input N charC N' total processed .readStream (UINT_LEN + r) []
  | sendC {w : Nat} (hN : N' = N) (hdata : processed = slice input 0 N.toNat)
      (hw : w < UINT_LEN) :
      Receives order input N charC N' total processed (.sendC w) (UINT_LEN + N.toNat)
        ((order.encode total).take w)
  | closed (hN : N' = N) (hdata : processed = slice input 0 N.toNat) :
      Receives order input N charC N' total processed (.merge 0) (UINT_LEN + N.toNat)
        (order.encode total)

/-- The invariant of the exchange. -/
structure Agreed (order : ByteOrder) (input : Nat → UInt8) (N : BitVec 32) (s : Exchange) :
    Prop where
  length : s.client.N = N
  sends : Sends order input N s.client.phase s.toServer s.inputPos
  readsBack : ReadsBack order s.toClient s.client.phase s.clientPos s.client.charC
  receives : Receives order input N s.server.charC s.server.N s.server.totalPrintable
    s.server.processed s.server.phase s.serverPos s.toClient
  tallied : s.server.Tallied

theorem start_agreed (junk junk' : Vector UInt8 UINT_LEN) :
    Agreed order input N (Exchange.start N junk junk') where
  length := rfl
  sends := .sendN (by decide)
  readsBack := .sendN junk.length_toList
  receives := .readN junk'.length_toList (by decide) rfl rfl
  tallied := .start junk'

theorem Sends.isPrefix {phase : ClientPhase} {sent : List UInt8} {pos : Nat}
    (h : Sends order input N phase sent pos) : sent <+: wire order input N := by
  have hdata : ∀ {n}, n ≤ N.toNat →
      order.encode N ++ slice input 0 n <+: wire order input N := by
    intro n hn
    rw [wire, List.prefix_append_right_inj, ← take_slice hn]
    exact List.take_prefix _ _
  cases h with
  | sendN => exact (List.take_prefix _ _).trans (List.prefix_append _ _)
  | fill hlt => exact hdata hlt.le
  | flush hlt hread hw => exact hdata (by omega)
  | readC => exact List.prefix_refl _
  | closed => exact List.prefix_refl _

theorem socketRead_some {sent data : List UInt8} {pos want : Nat} {closed : Bool}
    (h : socketRead sent pos want k closed = some data) :
    (sent.length ≤ pos ∧ closed = true ∧ data = []) ∨
      (1 ≤ k ∧ k ≤ want ∧ pos + k ≤ sent.length ∧ data = (sent.drop pos).take k) := by
  unfold socketRead at h
  split at h
  · rename_i hpos
    cases closed with
    | false => cases h
    | true => exact Or.inl ⟨hpos, rfl, (Option.some.inj h).symm⟩
  · split at h
    · rename_i hk
      exact Or.inr ⟨hk.1, hk.2.1, hk.2.2, (Option.some.inj h).symm⟩
    · cases h

theorem socketWrite_some {bytes taken : List UInt8} (h : socketWrite bytes k = some taken) :
    1 ≤ k ∧ k ≤ bytes.length ∧ taken = bytes.take k := by
  unfold socketWrite at h
  split at h
  · rename_i hk
    exact ⟨hk.1, hk.2, (Option.some.inj h).symm⟩
  · cases h

/-- The server answers with one word, and closes its end behind it. -/
theorem Receives.answer {charC processed toClient : List UInt8} {N' total : BitVec 32}
    {phase : Phase} {pos : Nat}
    (h : Receives order input N charC N' total processed phase pos toClient) :
    toClient.length ≤ UINT_LEN ∧ (phase.done = true ↔ toClient.length = UINT_LEN) := by
  have hlen := order.length_encode total
  have hU : UINT_LEN = 4 := rfl
  cases h with
  | readN => exact ⟨Nat.zero_le _, nofun, nofun⟩
  | readStream => exact ⟨Nat.zero_le _, nofun, nofun⟩
  | @sendC w hN hdata hw =>
    have htaken : ((order.encode total).take w).length = w := by
      rw [List.length_take]
      omega
    rw [htaken]
    exact ⟨hw.le, nofun, by omega⟩
  | closed => exact ⟨hlen.le, fun _ => hlen, fun _ => rfl⟩

/-! ## The ends of the streams -/

theorem length_wire : (wire order input N).length = UINT_LEN + N.toNat := by
  rw [wire, List.length_append, order.length_encode, length_slice]
  rfl

theorem Sends.of_done {phase : ClientPhase} {sent : List UInt8} {pos : Nat}
    (h : Sends order input N phase sent pos) (hdone : phase.done = true) :
    sent = wire order input N := by
  cases h with
  | sendN => cases hdone
  | fill => cases hdone
  | flush => cases hdone
  | readC => rfl
  | closed => rfl

theorem Sends.of_readC {sent : List UInt8} {r pos : Nat}
    (h : Sends order input N (.readC r) sent pos) : sent = wire order input N := by
  cases h
  rfl

/-- The server closes behind its whole answer, so the client never reads the end of the
stream. -/
theorem Agreed.client_open {r : Nat} (h : Agreed order input N s)
    (hphase : s.client.phase = .readC r) (hdone : s.server.phase.done = true) :
    s.clientPos < s.toClient.length := by
  have hlong := h.receives.answer.2.mp hdone
  have hreads := h.readsBack
  rw [hphase] at hreads
  cases hreads with
  | readC hlen hr hle htake => omega

/-- The server reads only while there is more to come. -/
theorem Agreed.serverPos_lt {want : Nat} (h : Agreed order input N s)
    (hrequest : s.server.request = some want) : s.serverPos < UINT_LEN + N.toNat := by
  have hreceives := h.receives
  obtain ⟨client, ⟨phase, charC, N', totalRead, totalPrintable, localCounter, processed, sent⟩,
    inputPos, toServer, serverPos, toClient, clientPos⟩ := s
  dsimp only at hreceives
  cases hreceives with
  | readN hlen hr htake hnone =>
    show serverPos < UINT_LEN + N.toNat
    omega
  | @readStream r hN hr hdata =>
    show UINT_LEN + r < UINT_LEN + N.toNat
    omega
  | sendC => cases hrequest
  | closed => cases hrequest

/-- The client closes behind all it has to send, so the server never reads the end of the
stream. -/
theorem Agreed.server_open {want : Nat} (h : Agreed order input N s)
    (hrequest : s.server.request = some want) (hdone : s.client.phase.done = true) :
    s.serverPos < s.toServer.length := by
  rw [h.sends.of_done hdone, length_wire]
  exact h.serverPos_lt hrequest

/-- The client has written everything when it reads the answer. -/
theorem Agreed.server_behind {want r : Nat} (h : Agreed order input N s)
    (hrequest : s.server.request = some want) (hphase : s.client.phase = .readC r) :
    s.serverPos < s.toServer.length := by
  have hsends := h.sends
  rw [hphase] at hsends
  rw [hsends.of_readC, length_wire]
  exact h.serverPos_lt hrequest

/-! ## The client's calls -/

/-- The loop of `sendData` at its test. -/
theorem sends_sendData (hN : N.toNat < 2 ^ 31) {written pos : Nat} (hle : written ≤ N.toNat)
    (hpos : written < N.toNat → pos = written) (hmax : pos ≤ N.toNat + BUFF_LEN) :
    Sends order input N (sendData N.toInt written)
      (order.encode N ++ slice input 0 written) pos := by
  have hB : BUFF_LEN = 16384 := rfl
  have hint : N.toInt = N.toNat := BitVec.toInt_eq_toNat_of_lt (by omega)
  rw [sendData, hint]
  by_cases hlt : written < N.toNat
  · obtain rfl := hpos hlt
    rw [if_pos (by omega)]
    have hread : (if (N.toNat : Int) - pos < BUFF_LEN then ((N.toNat : Int) - pos).toNat
        else BUFF_LEN) = min (N.toNat - pos) BUFF_LEN := by
      split <;> omega
    rw [hread]
    have hnone : slice input pos 0 = [] := rfl
    rw [← hnone]
    exact .fill hlt rfl (by omega)
  · obtain rfl : written = N.toNat := by omega
    rw [if_neg (by omega)]
    exact .readC hmax

/-- Where `sendData` starts, nothing of the answer was read. -/
theorem readsBack_sendData {toClient charC : List UInt8} (hlen : charC.length = UINT_LEN)
    (n : Int) (written : Nat) : ReadsBack order toClient (sendData n written) 0 charC := by
  rw [sendData]
  split
  · exact .fill hlen
  · exact .readC hlen (by decide) (Nat.zero_le _) rfl

/-- A part of the header was written. -/
theorem sends_header (hN : N.toNat < 2 ^ 31) {w : Nat} (hle : w + k ≤ UINT_LEN) :
    Sends order input N (if w + k < UINT_LEN then .sendN (w + k) else sendData N.toInt 0)
      ((order.encode N).take (w + k)) 0 := by
  have henc : (order.encode N).length = UINT_LEN := order.length_encode N
  split
  · exact .sendN ‹_›
  · have hstart : Sends order input N (sendData N.toInt 0) (order.encode N ++ slice input 0 0) 0 :=
      sends_sendData hN (Nat.zero_le _) (fun _ => rfl) (Nat.zero_le _)
    have hnone : slice input 0 0 = [] := rfl
    rw [List.take_of_length_le (by omega)]
    rwa [hnone, List.append_nil] at hstart

section Chunk

variable {written toRead len w : Nat}

/-- A part of a chunk was read. -/
theorem sends_fill (hlt : written < N.toNat) (hread : toRead = min (N.toNat - written) BUFF_LEN)
    (hmax : len + k ≤ BUFF_LEN) :
    Sends order input N
      (if len + k < toRead then .fill written toRead (slice input written (len + k))
        else .flush written toRead 0 (slice input written (len + k)))
      (order.encode N ++ slice input 0 written) (written + (len + k)) := by
  have hB : BUFF_LEN = 16384 := rfl
  split
  · exact .fill hlt hread ‹_›
  · exact .flush hlt hread (by omega) (by omega) hmax

/-- A part of a chunk was written. -/
theorem sends_chunk (hN : N.toNat < 2 ^ 31) (hlt : written < N.toNat)
    (hread : toRead = min (N.toNat - written) BUFF_LEN) (hlen : toRead ≤ len)
    (hmax : len ≤ BUFF_LEN) (hk : w + k ≤ toRead) :
    Sends order input N
      (if w + k < toRead then .flush written toRead (w + k) (slice input written len)
        else sendData N.toInt (written + toRead))
      (order.encode N ++ slice input 0 (written + (w + k))) (written + len) := by
  split
  · exact .flush hlt hread ‹_› hlen hmax
  · have hdone : w + k = toRead := by omega
    rw [hdone]
    -- a chunk that is not the last one fills the buffer, so nothing was read too much
    have hpos : written + toRead < N.toNat → written + len = written + toRead := by omega
    exact sends_sendData hN (by omega) hpos (by omega)

end Chunk

/-- A part of a word was read: the bytes of the word that the buffer holds are one window more. -/
theorem store_window {charC word data : List UInt8} {r : Nat} (hlen : charC.length = UINT_LEN)
    (htake : charC.take r = word.take r) (hdata : data = (word.drop r).take k)
    (hword : r + k ≤ word.length) (hle : r + k ≤ UINT_LEN) :
    data.length = k ∧ (store charC r data).length = UINT_LEN ∧
      (store charC r data).take (r + k) = word.take (r + k) := by
  have hk : data.length = k := by
    rw [hdata, List.length_take, List.length_drop]
    omega
  have hstored : (store charC r data).take (r + data.length) = charC.take r ++ data :=
    take_store (by omega)
  refine ⟨hk, by rw [length_store (by omega), hlen], ?_⟩
  rw [← hk, hstored, htake, hk, List.take_add, ← hdata]

/-- A part of the answer was read. -/
theorem readsBack_answer {charC toClient data : List UInt8} {r : Nat}
    (hlen : charC.length = UINT_LEN) (htake : charC.take r = toClient.take r)
    (hdata : data = (toClient.drop r).take k) (hk : 1 ≤ k) (hpos : r + k ≤ toClient.length)
    (hanswer : toClient.length ≤ UINT_LEN) :
    ReadsBack order toClient
      (if r + data.length < UINT_LEN ∧ 0 < data.length then .readC (r + data.length)
        else .closed (order.decode (store charC r data)))
      (r + data.length) (store charC r data) := by
  obtain ⟨hk', hlen', hstored⟩ := store_window hlen htake hdata hpos (by omega)
  rw [hk']
  split
  · exact .readC hlen' (by omega) hpos hstored
  · have hall : r + k = UINT_LEN := by omega
    rw [hall, List.take_of_length_le hlen'.le, List.take_of_length_le hanswer] at hstored
    rw [hstored, hall]
    exact .closed (by omega)

/-- At a call of its own, what the client has read of the answer stays right, unless it finds the
end of an answer that is too short. -/
theorem clientStep_readsBack (hanswer : s.toClient.length ≤ UINT_LEN)
    (h : ReadsBack order s.toClient s.client.phase s.clientPos s.client.charC)
    (hst : Exchange.clientStep order input k s = some s') :
    s'.toClient = s.toClient ∧
      (ReadsBack order s'.toClient s'.client.phase s'.clientPos s'.client.charC ∨
        s.server.phase.done = true ∧ s.toClient.length ≤ s'.clientPos ∧
          s'.clientPos < UINT_LEN ∧ s'.client.phase.done = true) := by
  obtain ⟨⟨phase, N, charC⟩, server, inputPos, toServer, serverPos, toClient, clientPos⟩ := s
  dsimp only at hanswer h
  cases h with
  | @sendN w _ hlen =>
    obtain ⟨bytes, -, rfl⟩ := Option.map_eq_some_iff.mp hst
    refine ⟨rfl, Or.inl ?_⟩
    show ReadsBack order toClient
      (if w + k < UINT_LEN then .sendN (w + k) else sendData N.toInt 0) 0 charC
    split
    · exact .sendN hlen
    · exact readsBack_sendData hlen _ _
  | @fill written toRead buff _ hlen =>
    unfold Exchange.clientStep at hst
    dsimp only at hst
    generalize (if buff.length = 0 then toRead else BUFF_LEN - buff.length) = want at hst
    split at hst
    · obtain rfl := Option.some.inj hst
      refine ⟨rfl, Or.inl ?_⟩
      dsimp only
      split
      · exact .fill hlen
      · exact .flush hlen
    · cases hst
  | @flush written toRead w buff _ hlen =>
    obtain ⟨bytes, -, rfl⟩ := Option.map_eq_some_iff.mp hst
    refine ⟨rfl, Or.inl ?_⟩
    show ReadsBack order toClient (if w + k < toRead then _ else _) 0 charC
    split
    · exact .flush hlen
    · exact readsBack_sendData hlen _ _
  | readC hlen hr hle htake =>
    obtain ⟨data, hread, rfl⟩ := Option.map_eq_some_iff.mp hst
    refine ⟨rfl, ?_⟩
    rcases socketRead_some hread with ⟨hpos, hclosed, rfl⟩ | ⟨hk, hwant, hpos, hdata⟩
    · refine Or.inr ⟨hclosed, hpos, hr, ?_⟩
      show (if clientPos + 0 < UINT_LEN ∧ 0 < 0 then ClientPhase.readC (clientPos + 0)
        else .closed (order.decode (store charC clientPos []))).done = true
      rw [if_neg fun hmore => Nat.lt_irrefl 0 hmore.2]
      rfl
    · exact Or.inl (readsBack_answer hlen htake hdata hk hpos hanswer)
  | closed => cases hst

/-- The answer of a thread that has closed its end is whole. -/
theorem Agreed.readsBack_client (h : Agreed order input N s)
    (hst : Exchange.clientStep order input k s = some s') :
    ReadsBack order s'.toClient s'.client.phase s'.clientPos s'.client.charC := by
  obtain ⟨hanswer, hwhole⟩ := h.receives.answer
  rcases (clientStep_readsBack hanswer h.readsBack hst).2 with hreads | ⟨hclosed, hlong, hshort, -⟩
  · exact hreads
  · have hlen := hwhole.mp hclosed
    omega

theorem clientStep_agreed (hN : N.toNat < 2 ^ 31) (h : Agreed order input N s)
    (hst : Exchange.clientStep order input k s = some s') : Agreed order input N s' := by
  have hU : UINT_LEN = 4 := rfl
  have henc := order.length_encode N
  have hreads := h.readsBack_client hst
  obtain ⟨⟨phase, N', charC⟩, server, inputPos, toServer, serverPos, toClient, clientPos⟩ := s
  obtain ⟨hlength, hsends, -, hreceives, htallied⟩ := h
  obtain rfl : N' = N := hlength
  dsimp only at hsends hreceives htallied
  cases hsends with
  | @sendN w hw =>
    obtain ⟨bytes, htaken, rfl⟩ := Option.map_eq_some_iff.mp hst
    obtain ⟨hk, hle, rfl⟩ := socketWrite_some htaken
    rw [List.length_drop, henc] at hle
    refine ⟨rfl, ?_, hreads, hreceives, htallied⟩
    show Sends order input N' (if w + k < UINT_LEN then .sendN (w + k) else sendData N'.toInt 0)
      ((order.encode N').take w ++ ((order.encode N').drop w).take k) 0
    rw [← List.take_add]
    exact sends_header hN (by omega)
  | @fill written toRead len hlt hread hlen =>
    have hbuff : slice input written len ++ (List.range k).map
        (fun j => input (written + len + j)) = slice input written (len + k) := slice_append
    -- however much is asked for, it fits into the buffer
    have hwant : (if len = 0 then toRead else BUFF_LEN - len) ≤ BUFF_LEN - len := by
      split <;> omega
    simp only [Exchange.clientStep, length_slice, hbuff] at hst
    generalize (if len = 0 then toRead else BUFF_LEN - len) = want at hst hwant
    split at hst
    · rename_i hk
      have hmax : len + k ≤ BUFF_LEN := by omega
      obtain rfl := Option.some.inj hst
      refine ⟨rfl, ?_, hreads, hreceives, htallied⟩
      show Sends order input N' (if len + k < toRead then _ else _) _ (written + len + k)
      rw [Nat.add_assoc]
      exact sends_fill hlt hread hmax
    · cases hst
  | @flush written toRead w len hlt hread hw hlen hmax =>
    obtain ⟨bytes, htaken, rfl⟩ := Option.map_eq_some_iff.mp hst
    obtain ⟨hk, hle, rfl⟩ := socketWrite_some htaken
    have hchunk : ((slice input written len).take toRead).drop w =
        slice input (written + w) (toRead - w) := by
      rw [take_slice hlen, drop_slice hw.le]
    -- what was read too much is not written
    rw [hchunk, length_slice] at hle
    rw [hchunk, take_slice hle] at hreads ⊢
    refine ⟨rfl, ?_, hreads, hreceives, htallied⟩
    show Sends order input N' (if w + k < toRead then _ else _)
      (order.encode N' ++ slice input 0 (written + w) ++ slice input (written + w) k) _
    have hsent : slice input 0 (written + w) ++ slice input (written + w) k =
        slice input 0 (written + (w + k)) := by
      have happ : slice input 0 (written + w) ++ slice input (0 + (written + w)) k =
          slice input 0 (written + w + k) := slice_append
      rwa [Nat.zero_add, Nat.add_assoc written w k] at happ
    rw [List.append_assoc, hsent]
    exact sends_chunk hN hlt hread hlen hmax (by omega)
  | readC hinput =>
    obtain ⟨data, -, rfl⟩ := Option.map_eq_some_iff.mp hst
    refine ⟨rfl, ?_, hreads, hreceives, htallied⟩
    dsimp only
    split
    · exact .readC hinput
    · exact .closed hinput
  | closed => cases hst

/-! ## The server's calls -/

/-- The bytes in a window of a stream do not depend on what comes behind it. -/
theorem window_eq {l l' : List UInt8} {pos : Nat} (h : l <+: l') (hk : pos + k ≤ l.length) :
    (l.drop pos).take k = (l'.drop pos).take k := by
  obtain ⟨rest, rfl⟩ := h
  rw [List.drop_append_of_le_length (by omega), List.take_append_of_le_length]
  rw [List.length_drop]
  omega

theorem wire_header {r : Nat} (hk : r + k ≤ UINT_LEN) :
    ((wire order input N).drop r).take k = ((order.encode N).drop r).take k := by
  have henc := order.length_encode N
  have hU : UINT_LEN = 4 := rfl
  exact (window_eq (List.prefix_append _ _) (by omega)).symm

theorem wire_data {r : Nat} (hk : r + k ≤ N.toNat) :
    ((wire order input N).drop (UINT_LEN + r)).take k = slice input r k := by
  have henc : (order.encode N).length = UINT_LEN := order.length_encode N
  rw [wire, ← List.drop_drop, List.drop_left' henc, drop_slice (by omega), take_slice (by omega),
    Nat.zero_add]

/-- What the client has read of the answer stays, while the server is writing it. -/
theorem ReadsBack.extend {toClient charC : List UInt8} {phase : ClientPhase} {pos : Nat}
    (h : ReadsBack order toClient phase pos charC) (hlt : toClient.length < UINT_LEN)
    (bytes : List UInt8) : ReadsBack order (toClient ++ bytes) phase pos charC := by
  cases h with
  | sendN hlen => exact .sendN hlen
  | fill hlen => exact .fill hlen
  | flush hlen => exact .flush hlen
  | readC hlen hr hle htake =>
    refine .readC hlen hr ?_ ?_
    · rw [List.length_append]
      omega
    · rw [List.take_append_of_le_length hle, htake]
  | closed hlen => exact absurd hlen hlt.ne

section Received

variable {charC processed sent data : List UInt8} {N' totalRead totalPrintable : BitVec 32}
  {localCounter : Counters} {r : Nat}

/-- A part of the header was read. -/
theorem receives_header (hlen : charC.length = UINT_LEN)
    (htake : charC.take r = (order.encode N).take r) (hnone : processed = [])
    (hdata : data = ((order.encode N).drop r).take k) (hk : 1 ≤ k) (hle : r + k ≤ UINT_LEN)
    (h₁ : 1 ≤ N.toNat) :
    let c := Connection.received order data
      ⟨.readN r, charC, N', totalRead, totalPrintable, localCounter, processed, sent⟩
    Receives order input N c.charC c.N c.totalPrintable c.processed c.phase
      (r + data.length) [] := by
  have henc : (order.encode N).length = UINT_LEN := order.length_encode N
  obtain ⟨hk', hlen', hstored⟩ := store_window hlen htake hdata (by omega) hle
  dsimp only [Connection.received]
  rw [hk']
  split
  · exact .readN hlen' (by omega) hstored hnone
  · have hall : r + k = UINT_LEN := by omega
    rw [hall, List.take_of_length_le hlen'.le, List.take_of_length_le henc.le] at hstored
    rw [hstored, order.decode_encode, hall]
    exact .readStream rfl h₁ hnone

/-- A part of the data was read. -/
theorem receives_stream (hN : N' = N) (hdata : processed = slice input 0 r)
    (hwindow : data = slice input r k) (hk : 1 ≤ k) (hle : r + k ≤ N.toNat)
    (htotal : totalRead = BitVec.ofNat 32 processed.length) (h₂ : N.toNat < 2 ^ 31) :
    let c := Connection.received order data
      ⟨.readStream, charC, N', totalRead, totalPrintable, localCounter, processed, sent⟩
    Receives order input N c.charC c.N c.totalPrintable c.processed c.phase
      (UINT_LEN + r + data.length) [] := by
  have hk' : data.length = k := by rw [hwindow, length_slice]
  have hprocessed : processed ++ data = slice input 0 (r + k) := by
    have happ : slice input 0 r ++ slice input (0 + r) k = slice input 0 (r + k) := slice_append
    rwa [Nat.zero_add, ← hwindow, ← hdata] at happ
  -- below `2 ^ 31` the total is the number of bytes, so the test is the one of the numbers
  have htest : (totalRead + BitVec.ofNat 32 data.length).ult N' ↔ r + k < N.toNat := by
    rw [htotal, ← BitVec.ofNat_add, hdata, length_slice, hk', hN]
    simp only [BitVec.ult, BitVec.toNat_ofNat, decide_eq_true_eq]
    rw [Nat.mod_eq_of_lt (by omega)]
  rw [Nat.add_assoc]
  dsimp only [Connection.received]
  simp only [htest]
  rw [hk']
  split
  · exact .readStream hN (by omega) hprocessed
  · have hall : r + k = N.toNat := by omega
    rw [hall] at hprocessed ⊢
    exact .sendC hN hprocessed (by decide)

end Received

theorem serverStep_agreed (h₁ : 1 ≤ N.toNat) (h₂ : N.toNat < 2 ^ 31)
    (h : Agreed order input N s) (hst : Exchange.serverStep order k s = some s') :
    Agreed order input N s' := by
  have hU : UINT_LEN = 4 := rfl
  have hsent := h.sends.isPrefix
  have hsentLen := hsent.length_le
  rw [length_wire] at hsentLen
  have hopen : ∀ want, s.server.request = some want → s.client.phase.done = true →
      s.serverPos < s.toServer.length := fun _ => h.server_open
  have htallied' := fun data => h.tallied.received order data
  obtain ⟨client, ⟨phase, charC, N', totalRead, totalPrintable, localCounter, processed, sent⟩,
    inputPos, toServer, serverPos, toClient, clientPos⟩ := s
  obtain ⟨hlength, hsends, hreads, hreceives, htallied⟩ := h
  dsimp only at hsends hreads hreceives hsent hsentLen
  cases hreceives with
  | readN hlen hr htake hnone =>
    obtain ⟨data, hread, rfl⟩ := Option.map_eq_some_iff.mp hst
    rcases socketRead_some hread with ⟨hpos, hclosed, -⟩ | ⟨hk, hwant, hpos, hdata⟩
    · exact absurd hpos (not_le.mpr (hopen _ rfl hclosed))
    · refine ⟨hlength, hsends, hreads, ?_, htallied' data⟩
      change serverPos + k ≤ toServer.length at hpos
      change data = (toServer.drop serverPos).take k at hdata
      rw [window_eq hsent hpos, wire_header (by omega)] at hdata
      exact receives_header hlen htake hnone hdata hk (by omega) h₁
  | @readStream r hN hr hdata =>
    obtain ⟨data, hread, rfl⟩ := Option.map_eq_some_iff.mp hst
    rcases socketRead_some hread with ⟨hpos, hclosed, -⟩ | ⟨hk, hwant, hpos, hwindow⟩
    · exact absurd hpos (not_le.mpr (hopen _ rfl hclosed))
    · refine ⟨hlength, hsends, hreads, ?_, htallied' data⟩
      -- what is in flight is part of the wire, so nothing beyond `N` bytes is read
      change UINT_LEN + r + k ≤ toServer.length at hpos
      change data = (toServer.drop (UINT_LEN + r)).take k at hwindow
      rw [window_eq hsent hpos, wire_data (by omega)] at hwindow
      exact receives_stream hN hdata hwindow hk (by omega) htallied.totalRead h₂
  | @sendC w hN hdata hw =>
    obtain ⟨bytes, htaken, rfl⟩ := Option.map_eq_some_iff.mp hst
    obtain ⟨hk, hle, rfl⟩ := socketWrite_some htaken
    have henc := order.length_encode totalPrintable
    have hlong : k ≤ UINT_LEN - w := by
      have hle' : k ≤ ((order.encode totalPrintable).drop w).length := hle
      rw [List.length_drop] at hle'
      omega
    have hshort : ((order.encode totalPrintable).take w).length < UINT_LEN := by
      rw [List.length_take]
      omega
    refine ⟨hlength, hsends, hreads.extend hshort _, ?_, htallied.wrote order k⟩
    show Receives order input N charC N' totalPrintable processed
      (if w + k < UINT_LEN then .sendC (w + k) else .merge 0) (UINT_LEN + N.toNat)
      ((order.encode totalPrintable).take w ++ ((order.encode totalPrintable).drop w).take k)
    rw [← List.take_add]
    split
    · exact .sendC hN hdata ‹_›
    · rw [List.take_of_length_le (by omega)]
      exact .closed hN hdata
  | closed =>
    obtain ⟨bytes, htaken, -⟩ := Option.map_eq_some_iff.mp hst
    obtain ⟨hk, hle, -⟩ := socketWrite_some htaken
    simp only [Connection.outgoing, List.length_nil] at hle
    omega

/-! ## Runs -/

theorem step_agreed {move : Move} (h₁ : 1 ≤ N.toNat) (h₂ : N.toNat < 2 ^ 31)
    (h : Agreed order input N s) (hst : Exchange.step order input move s = some s') :
    Agreed order input N s' := by
  obtain ⟨party, k⟩ := move
  cases party with
  | client => exact clientStep_agreed h₂ h hst
  | server => exact serverStep_agreed h₁ h₂ h hst

theorem Exchange.Reachable.agreed {junk junk' : Vector UInt8 UINT_LEN} (h₁ : 1 ≤ N.toNat)
    (h₂ : N.toNat < 2 ^ 31) (h : Exchange.Reachable order input N junk junk' s) :
    Agreed order input N s :=
  Runs.Reaches.invariant h (start_agreed junk junk') fun _ _ _ hI _ hst => step_agreed h₁ h₂ hI hst

end OsHw.Ex5
