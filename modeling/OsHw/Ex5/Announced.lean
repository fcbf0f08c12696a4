import OsHw.Ex5.Header
import Mathlib.Data.BitVec

/-!
# OsHw — the announced length (`connectionMain` of `pcc_server`)

The loop of `connectionMain` always asks for `BUFF_LEN` bytes and looks at the length that the
peer has announced only behind a call. A peer that sends more than it has announced is counted
as far as the last call happens to reach.

* **`Header`** — the four bytes of a length, as they may arrive.
* **`AnnouncedOnly`** — the total and the counters are those of the first `N` bytes of the stream.
* **`CutOff`** — the calls that are made find no printable byte behind the first `N`.
* **`announcedOnly_iff`** — the two are equivalent, for every stream and every fragmentation of it.
-/

namespace OsHw.Ex5

/-! ## Runs of a connection -/

/-- The parts in which a length is received. -/
structure Header (order : ByteOrder) (N : BitVec 32) where
  fragments : List (List UInt8)
  ne_nil : ∀ data ∈ fragments, data ≠ []
  flatten : fragments.flatten = order.encode N

namespace Connection

/-- Behind `read` calls with these results, as far as the thread makes them. -/
def receivedAll (order : ByteOrder) (results : List (List UInt8)) (c : Connection) : Connection :=
  results.foldl (fun c data => c.received order data) c

/-- Behind `write` calls that took so many bytes each. -/
def wroteAll (order : ByteOrder) (taken : List Nat) (c : Connection) : Connection :=
  taken.foldl (fun c k => c.wrote order k) c

/-- A connection that received a header, then the stream in these parts, and has sent its
answer as far as this. -/
def run {order : ByteOrder} {N : BitVec 32} (junk : Vector UInt8 UINT_LEN)
    (header : Header order N) (stream : List (List UInt8)) (taken : List Nat) : Connection :=
  (((start junk).receivedAll order header.fragments).receivedAll order stream).wroteAll order taken

variable {order : ByteOrder} {c : Connection}

theorem receivedAll_cons (data : List UInt8) (results : List (List UInt8)) :
    c.receivedAll order (data :: results) = (c.received order data).receivedAll order results :=
  rfl

theorem receivedAll_invariant {Inv : Connection → Prop}
    (hstep : ∀ c data, Inv c → Inv (c.received order data)) (results : List (List UInt8))
    (h : Inv c) : Inv (c.receivedAll order results) := by
  induction results generalizing c with
  | nil => exact h
  | cons data results ih => exact ih (hstep c data h)

theorem wroteAll_invariant {Inv : Connection → Prop}
    (hstep : ∀ c k, Inv c → Inv (c.wrote order k)) (taken : List Nat) (h : Inv c) :
    Inv (c.wroteAll order taken) := by
  induction taken generalizing c with
  | nil => exact h
  | cons k taken ih => exact ih (hstep c k h)

/-- A thread that is done with reading makes no more `read` calls. -/
theorem receivedAll_sendC {written : Nat} (hphase : c.phase = .sendC written)
    (results : List (List UInt8)) : c.receivedAll order results = c := by
  induction results with
  | nil => rfl
  | cons data results ih =>
    have hstep : c.received order data = c := by
      unfold received
      rw [hphase]
    rw [receivedAll_cons, hstep, ih]

/-- Writing counts nothing. -/
theorem wroteAll_frame (taken : List Nat) :
    (c.wroteAll order taken).processed = c.processed ∧
      (c.wroteAll order taken).totalPrintable = c.totalPrintable ∧
      (c.wroteAll order taken).localCounter = c.localCounter := by
  induction taken generalizing c with
  | nil => exact ⟨rfl, rfl, rfl⟩
  | cons k taken ih =>
    have hstep : (c.wrote order k).processed = c.processed ∧
        (c.wrote order k).totalPrintable = c.totalPrintable ∧
        (c.wrote order k).localCounter = c.localCounter := by
      unfold wrote
      cases c.phase with
      | sendC written => exact ⟨rfl, rfl, rfl⟩
      | _ => exact ⟨rfl, rfl, rfl⟩
    rw [← hstep.1, ← hstep.2.1, ← hstep.2.2]
    exact ih

/-- A header that arrives behind its bytes `front`. Induction on its parts. -/
theorem receivedAll_header (fragments : List (List UInt8)) {front : List UInt8}
    (hne : ∀ data ∈ fragments, data ≠ []) (hphase : c.phase = .readN front.length)
    (htake : c.charC.take front.length = front) (hlen : c.charC.length = UINT_LEN)
    (hshort : front.length < UINT_LEN) (hfull : (front ++ fragments.flatten).length = UINT_LEN) :
    c.receivedAll order fragments = { c with
      charC := front ++ fragments.flatten
      N := order.decode (front ++ fragments.flatten)
      phase := .readStream } := by
  induction fragments generalizing c front with
  | nil =>
    rw [List.flatten_nil, List.append_nil] at hfull
    exact absurd hfull (Nat.ne_of_lt hshort)
  | cons data fragments ih =>
    have hpos := List.length_pos_of_ne_nil (hne data (List.mem_cons_self ..))
    have hsum : front.length + data.length + fragments.flatten.length = UINT_LEN := by
      rw [← hfull, List.flatten_cons, List.length_append, List.length_append]
      omega
    have hstore : (store c.charC front.length data).take (front ++ data).length =
        front ++ data := by
      rw [List.length_append, take_store (by omega), htake]
    have hstored : (store c.charC front.length data).length = UINT_LEN := by
      rw [length_store (by omega), hlen]
    rw [receivedAll_cons]
    by_cases hgo : front.length + data.length < UINT_LEN
    · rw [received_more order hphase ⟨hgo, hpos⟩, ih
        (fun d hd => hne d (List.mem_cons_of_mem _ hd)) (by rw [List.length_append]) hstore hstored
        (by rwa [List.length_append])
        (by rwa [List.append_assoc, ← List.flatten_cons]),
        List.append_assoc, ← List.flatten_cons]
    · -- this part is the last one
      have hrest : fragments = [] := by
        cases fragments with
        | nil => rfl
        | cons more fragments =>
          have hmore := List.length_pos_of_ne_nil (hne more (by simp))
          rw [List.flatten_cons, List.length_append] at hsum
          omega
      have hall : store c.charC front.length data = front ++ data := by
        rw [← hstore, List.take_of_length_le]
        rw [hstored, List.length_append]
        omega
      rw [received_last order hphase (fun h => hgo h.1), hrest, hall, List.flatten_cons, List.flatten_nil,
        List.append_nil]
      rfl

/-- The connection behind the header. -/
def listening (order : ByteOrder) (N : BitVec 32) (junk : Vector UInt8 UINT_LEN) : Connection :=
  { start junk with charC := order.encode N, N := N, phase := .readStream }

theorem receivedAll_start {N : BitVec 32} (junk : Vector UInt8 UINT_LEN) (header : Header order N) :
    (start junk).receivedAll order header.fragments = listening order N junk := by
  have hfull : ([] ++ header.fragments.flatten).length = UINT_LEN := by
    rw [List.nil_append, header.flatten]
    exact order.length_encode N
  rw [receivedAll_header header.fragments header.ne_nil rfl rfl junk.length_toList (by decide)
    hfull, List.nil_append, header.flatten, order.decode_encode]
  rfl

end Connection

/-! ## Counting within the announced length -/

/-- What was counted is among the first `N` bytes of the stream. The total, which is sent, and the
counters, which are merged, are theirs. -/
structure AnnouncedOnly (order : ByteOrder) (N : BitVec 32) (c : Connection) : Prop where
  within : ∀ b ∈ c.processed.drop N.toNat, ¬ Printable b
  localCounter : ∀ i,
    c.localCounter i = BitVec.ofNat 32 (occurrences (c.processed.take N.toNat) i)
  totalPrintable : c.totalPrintable = BitVec.ofNat 32 (printables (c.processed.take N.toNat))
  bound : c.totalPrintable.toNat ≤ N.toNat
  sent : c.phase.done → ∃ C, c.sent = order.encode C ∧ C.toNat ≤ N.toNat

/-- From the offset `pos` of the stream on, no call that is made delivers a printable byte behind
the first `N`. Calls are made until the stream ends or, as a 32-bit word, the number of bytes
received is at least `N`. -/
def CutOff (N : Nat) : Nat → List (List UInt8) → Prop
  | _, [] => True
  | pos, data :: stream =>
    (∀ b ∈ data.drop (N - pos), ¬ Printable b) ∧
      (data ≠ [] → (pos + data.length) % 2 ^ 32 < N → CutOff N (pos + data.length) stream)

/-- A peer that sends no more than it has announced meets the condition. -/
theorem cutOff_of_length_le {N pos : Nat} (stream : List (List UInt8))
    (h : pos + stream.flatten.length ≤ N) : CutOff N pos stream := by
  induction stream generalizing pos with
  | nil => trivial
  | cons data stream ih =>
    rw [List.flatten_cons, List.length_append] at h
    refine ⟨fun b hb => ?_, fun _ _ => ih (by omega)⟩
    rw [List.drop_of_length_le (by omega)] at hb
    cases hb

namespace Connection

variable {order : ByteOrder} {c : Connection}

/-- A call in the loop of `connectionMain`. -/
theorem received_stream (order : ByteOrder) (hphase : c.phase = .readStream) (htallied : c.Tallied)
    (data : List UInt8) :
    (c.received order data).processed = c.processed ++ data ∧ (c.received order data).N = c.N ∧
      (c.received order data).phase =
        if (c.processed.length + data.length) % 2 ^ 32 < c.N.toNat ∧ data ≠ []
        then .readStream else .sendC 0 := by
  have hgo : ((c.totalRead + BitVec.ofNat 32 data.length).ult c.N ∧ 0 < data.length) ↔
      ((c.processed.length + data.length) % 2 ^ 32 < c.N.toNat ∧ data ≠ []) := by
    rw [htallied.totalRead, ← BitVec.ofNat_add, BitVec.ult_iff_lt, BitVec.lt_def,
      BitVec.toNat_ofNat, List.length_pos_iff]
  unfold received
  rw [hphase]
  exact ⟨rfl, rfl, if_congr hgo rfl rfl⟩

/-- What is counted from a reading thread on. Induction on the parts of the stream. -/
theorem within_receivedAll (stream : List (List UInt8)) (hphase : c.phase = .readStream)
    (htallied : c.Tallied) :
    (∀ b ∈ (c.receivedAll order stream).processed.drop c.N.toNat, ¬ Printable b) ↔
      (∀ b ∈ c.processed.drop c.N.toNat, ¬ Printable b) ∧
        CutOff c.N.toNat c.processed.length stream := by
  induction stream generalizing c with
  | nil => exact (and_iff_left trivial).symm
  | cons data stream ih =>
    obtain ⟨hprocessed, hN, hnext⟩ := received_stream order hphase htallied data
    have hsplit : (∀ b ∈ (c.processed ++ data).drop c.N.toNat, ¬ Printable b) ↔
        (∀ b ∈ c.processed.drop c.N.toNat, ¬ Printable b) ∧
          ∀ b ∈ data.drop (c.N.toNat - c.processed.length), ¬ Printable b := by
      rw [List.drop_append, List.forall_mem_append]
    rw [receivedAll_cons, CutOff]
    by_cases hgo : (c.processed.length + data.length) % 2 ^ 32 < c.N.toNat ∧ data ≠ []
    · rw [if_pos hgo] at hnext
      have hrest := ih hnext (htallied.received order data)
      rw [hN, hprocessed, List.length_append] at hrest
      rw [hrest, hsplit, and_assoc]
      exact and_congr_right fun _ => and_congr_right fun _ =>
        ⟨fun h _ _ => h, fun h => h hgo.2 hgo.1⟩
    · rw [if_neg hgo] at hnext
      rw [receivedAll_sendC hnext, hprocessed, hsplit]
      exact and_congr_right fun _ =>
        (and_iff_left fun hne hlt => absurd ⟨hlt, hne⟩ hgo).symm

/-- What was counted is a first part of the stream. -/
theorem processed_receivedAll (stream : List (List UInt8)) (hphase : c.phase = .readStream)
    (htallied : c.Tallied) :
    ∃ m, (c.receivedAll order stream).processed = c.processed ++ stream.flatten.take m := by
  induction stream generalizing c with
  | nil => exact ⟨0, (List.append_nil _).symm⟩
  | cons data stream ih =>
    obtain ⟨hprocessed, -, hnext⟩ := received_stream order hphase htallied data
    rw [receivedAll_cons]
    split at hnext
    · obtain ⟨m, hm⟩ := ih hnext (htallied.received order data)
      refine ⟨data.length + m, ?_⟩
      rw [hm, hprocessed, List.flatten_cons, List.take_length_add_append, List.append_assoc]
    · refine ⟨data.length, ?_⟩
      rw [receivedAll_sendC hnext, hprocessed, List.flatten_cons, List.take_left]

/-! ## Runs -/

variable {N : BitVec 32} {junk : Vector UInt8 UINT_LEN} {header : Header order N}

theorem Tallied.run (stream : List (List UInt8)) (taken : List Nat) :
    (run junk header stream taken).Tallied :=
  wroteAll_invariant (fun _ k h => h.wrote order k) taken
    (receivedAll_invariant (fun _ data h => h.received order data) stream
      (receivedAll_invariant (fun _ data h => h.received order data) header.fragments
        (.start junk)))

theorem Answered.run (stream : List (List UInt8)) (taken : List Nat) :
    (run junk header stream taken).Answered order :=
  wroteAll_invariant (fun _ k h => h.wrote k) taken
    (receivedAll_invariant (fun _ data h => h.received data) stream
      (receivedAll_invariant (fun _ data h => h.received data) header.fragments (.start junk)))

theorem Tallied.listening (junk : Vector UInt8 UINT_LEN) : (listening order N junk).Tallied where
  localCounter _ := rfl
  totalPrintable := rfl
  totalRead := rfl

/-- The bytes given to `parsBuff` are a first part of the stream behind the header. -/
theorem processed_run (stream : List (List UInt8)) (taken : List Nat) :
    ∃ m, (run junk header stream taken).processed = stream.flatten.take m := by
  rw [Connection.run, (wroteAll_frame taken).1, receivedAll_start]
  exact processed_receivedAll stream rfl (.listening junk)

/-- What a run counts lies within the first `N` bytes if no call reads printable bytes behind
them. -/
theorem within_run (stream : List (List UInt8)) (taken : List Nat) :
    (∀ b ∈ (run junk header stream taken).processed.drop N.toNat, ¬ Printable b) ↔
      CutOff N.toNat 0 stream := by
  have hstart : ∀ b ∈ (listening order N junk).processed.drop N.toNat, ¬ Printable b := by
    intro b hb
    exact absurd (List.mem_of_mem_drop hb) (List.not_mem_nil)
  rw [Connection.run, (wroteAll_frame taken).1, receivedAll_start]
  exact (within_receivedAll stream (c := listening order N junk) rfl (.listening junk)).trans
    (and_iff_right hstart)

end Connection

/-- Bytes behind the first `n` do not count where none of them meets the condition. -/
theorem countP_take {p : UInt8 → Bool} {bytes : List UInt8} {n : Nat}
    (h : ∀ b ∈ bytes.drop n, ¬ p b) : bytes.countP p = (bytes.take n).countP p := by
  have hrest : (bytes.drop n).countP p = 0 := List.countP_eq_zero.mpr h
  calc bytes.countP p = (bytes.take n ++ bytes.drop n).countP p := by rw [List.take_append_drop]
    _ = (bytes.take n).countP p + 0 := by rw [List.countP_append, hrest]

/-- A connection that counts nothing behind the first `N` bytes counts the first `N` bytes. -/
theorem announcedOnly_of_within {order : ByteOrder} {N : BitVec 32} {c : Connection}
    (htallied : c.Tallied) (hanswered : c.Answered order)
    (h : ∀ b ∈ c.processed.drop N.toNat, ¬ Printable b) : AnnouncedOnly order N c := by
  have htotal : c.totalPrintable = BitVec.ofNat 32 (printables (c.processed.take N.toNat)) := by
    rw [htallied.totalPrintable, printables, countP_take fun b hb => by simpa using h b hb]
    rfl
  have hbound : c.totalPrintable.toNat ≤ N.toNat := by
    have hle : printables (c.processed.take N.toNat) ≤ N.toNat :=
      List.countP_le_length.trans (List.length_take_le _ _)
    rw [htotal, BitVec.toNat_ofNat, Nat.mod_eq_of_lt (hle.trans_lt N.isLt)]
    exact hle
  refine ⟨h, fun i => ?_, htotal, hbound, fun hdone => ⟨c.totalPrintable, ?_, hbound⟩⟩
  · rw [htallied.localCounter, occurrences, countP_take]
    · rfl
    · intro b hb hi
      exact h b hb (printable_of_eq (of_decide_eq_true hi))
  · have hwritten : c.phase.written = UINT_LEN := by
      cases hphase : c.phase with
      | readN bytesRead => rw [hphase] at hdone; cases hdone
      | readStream => rw [hphase] at hdone; cases hdone
      | sendC written => rw [hphase] at hdone; cases hdone
      | _ => rfl
    have hsent : c.sent = (order.encode c.totalPrintable).take c.phase.written := hanswered
    rw [hsent, hwritten]
    exact List.take_of_length_le (order.length_encode _).le

/-- **The server counts within the announced length exactly when no call that it makes reads a
printable byte behind it**, for every stream, in whatever parts it arrives. -/
theorem announcedOnly_iff (order : ByteOrder) (N : BitVec 32) (junk : Vector UInt8 UINT_LEN)
    (header : Header order N) (stream : List (List UInt8)) (taken : List Nat) :
    (AnnouncedOnly order N (Connection.run junk header stream taken) ∧
      ∃ m, (Connection.run junk header stream taken).processed = stream.flatten.take m) ↔
      CutOff N.toNat 0 stream := by
  constructor
  · rintro ⟨honly, -⟩
    exact (Connection.within_run stream taken).mp honly.within
  · intro hcut
    have hwithin : ∀ b ∈ (Connection.run junk header stream taken).processed.drop N.toNat,
        ¬ Printable b := (Connection.within_run stream taken).mpr hcut
    exact ⟨announcedOnly_of_within (.run stream taken) (.run stream taken) hwithin,
      Connection.processed_run stream taken⟩

/-- One byte is announced and two arrive with one call. -/
def twoForOne : Header .little 1 where
  fragments := [[1, 0, 0, 0]]
  ne_nil := by decide
  flatten := by decide

/-- The second one is counted, and the client is told so. -/
theorem counts_second_byte :
    (Connection.run (Vector.replicate UINT_LEN 0) twoForOne [[65, 66]] [4]).sent = [2, 0, 0, 0] ∧
      ¬ AnnouncedOnly .little 1
        (Connection.run (Vector.replicate UINT_LEN 0) twoForOne [[65, 66]] [4]) := by
  refine ⟨by decide, fun h => ?_⟩
  exact absurd h.bound (by decide)

end OsHw.Ex5
