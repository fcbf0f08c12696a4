import OsHw.Ex5.Connection
import OsHw.Lib.Transfer

/-!
# OsHw — the header of a connection (`readUint` of `pcc_server`)

`readUint` calls `read` until four bytes are there, the stream ends or a call fails. The
results of its calls are given from outside: a call stores some of the bytes it asks for, none
at the end of the stream, or fails.

* **`Reads`** — the results of all calls, none above what the call asks for.
* **`readUint_complete`**, **`readUint_fails`**, **`readUint_endsEarly`** — the three ways in
  which the loop ends, and what is returned.
* **`readUint_exact_iff`** — a header is accepted exactly when it is complete, unless the stream
  ends inside it.
* **`received_readUint`** — the phase `readN` of a connection makes these calls, with this
  result.
-/

namespace OsHw.Ex5

/-! ## The function -/

/-- What a `read` call does: it stores bytes, or fails with -1. -/
abbrev ReadResult := Option (List UInt8)

/-- The `int` that the call returns. -/
def returned : ReadResult → Int
  | some data => data.length
  | none => -1

/-- The buffer behind the call, which was given the address of its byte `pos`. -/
def stored (buff : List UInt8) (pos : Nat) : ReadResult → List UInt8
  | some data => store buff pos data
  | none => buff

/-- The `while` of `readUint` behind `call` calls. The first argument is fuel. -/
def readUintLoop (results : Nat → ReadResult) :
    Nat → Nat → List UInt8 → Int → Int → Option (Int × List UInt8)
  | 0, _, _, _, _ => none
  | fuel + 1, call, charC, bytesRead, ret =>
    if bytesRead < UINT_LEN ∧ 0 < ret then
      let result := results call
      -- a failed call is counted as well: `bytesRead+=ret`
      readUintLoop results fuel (call + 1) (stored charC bytesRead.toNat result)
        (bytesRead + returned result) (returned result)
    else some (ret, charC)

/-- What is returned, and `*C` if it is assigned; `junk` is in `charC` at first. -/
def readUint (order : ByteOrder) (junk : Vector UInt8 UINT_LEN) (results : Nat → ReadResult) :
    Option (Int × Option (BitVec 32)) := do
  let result := results 0
  let (ret, charC) ← readUintLoop results (UINT_LEN + 1) 1 (stored junk.toList 0 result)
    (returned result) (returned result)
  if ret < 0 then some (-1, none) else some (0, some (order.decode charC))

/-- The bytes that `sendUint` writes, when no call fails and the `i`-th one takes `short i`. -/
def sendUint (order : ByteOrder) (short : Nat → Nat) (N : BitVec 32) : Option (List UInt8) :=
  (Transfer.transfer short UINT_LEN (order.encode N)).map Prod.fst

theorem sendUint_eq (order : ByteOrder) (short : Nat → Nat) (N : BitVec 32) :
    sendUint order short N = some (order.encode N) := by
  have hlen : (order.encode N).length = UINT_LEN := order.length_encode N
  rw [sendUint, Transfer.transfer_eq, ← hlen, List.take_length]
  rfl

/-! ## Its calls -/

/-- The first `k` calls store `bytes`, each of them some, and are made because fewer than
`UINT_LEN` are there. -/
inductive Got (results : Nat → ReadResult) : Nat → List UInt8 → Prop
  | zero : Got results 0 []
  | succ {k : Nat} {bytes data : List UInt8} (h : Got results k bytes)
      (hlen : bytes.length < UINT_LEN) (hdata : results k = some data) (hne : data ≠ []) :
      Got results (k + 1) (bytes ++ data)

/-- The results of the calls; none stores more than the call asks for. -/
structure Reads where
  result : Nat → ReadResult
  fits : ∀ {k bytes data}, Got result k bytes → bytes.length < UINT_LEN → result k = some data →
    bytes.length + data.length ≤ UINT_LEN

namespace Reads

/-- Four bytes were received. -/
def Complete (reads : Reads) (bytes : List UInt8) : Prop :=
  ∃ k, Got reads.result k bytes ∧ bytes.length = UINT_LEN

/-- The peer closes after zero to three bytes: a call that is made finds the end of the stream. -/
def EndsEarly (reads : Reads) : Prop :=
  ∃ k bytes, Got reads.result k bytes ∧ bytes.length < UINT_LEN ∧ reads.result k = some []

/-- A call that is made fails. -/
def Fails (reads : Reads) : Prop :=
  ∃ k bytes, Got reads.result k bytes ∧ bytes.length < UINT_LEN ∧ reads.result k = none

end Reads

namespace Got

variable {results : Nat → ReadResult} {k m : Nat} {bytes more : List UInt8}

/-- Each of the calls was made with fewer than four bytes, and stored some. -/
theorem before (h : Got results k bytes) (hm : m < k) :
    ∃ front data, Got results m front ∧ front.length < UINT_LEN ∧ results m = some data ∧
      data ≠ [] := by
  induction h with
  | zero => omega
  | @succ k front data h hlen hdata hne ih =>
    rcases Nat.lt_succ_iff_lt_or_eq.mp hm with hlt | rfl
    · exact ih hlt
    · exact ⟨front, data, h, hlen, hdata, hne⟩

theorem unique (h : Got results k bytes) (h' : Got results k more) : bytes = more := by
  induction h generalizing more with
  | zero => cases h' with | zero => rfl
  | succ h hlen hdata hne ih =>
    cases h' with
    | succ g glen gdata gne => rw [ih g, Option.some.inj (hdata.symm.trans gdata)]

/-- The calls stop at the first one that stores nothing. -/
theorem le_of_stop (h : Got results k bytes)
    (hstop : ∀ data, results m = some data → data = []) : k ≤ m := by
  by_contra hlt
  obtain ⟨front, data, -, -, hdata, hne⟩ := h.before (Nat.lt_of_not_le hlt)
  exact hne (hstop data hdata)

/-- And once four bytes are there. -/
theorem le_of_full (h : Got results k bytes) (h' : Got results m more)
    (hfull : more.length = UINT_LEN) : k ≤ m := by
  by_contra hlt
  obtain ⟨front, data, hfront, hlen, -, -⟩ := h.before (Nat.lt_of_not_le hlt)
  rw [hfront.unique h', hfull] at hlen
  exact Nat.lt_irrefl _ hlen

end Got

namespace Reads

variable {reads : Reads} {order : ByteOrder} {junk : Vector UInt8 UINT_LEN} {k : Nat}
  {bytes : List UInt8}

/-- The calls never store more than four bytes in all. -/
theorem length_le (h : Got reads.result k bytes) : bytes.length ≤ UINT_LEN := by
  cases h with
  | zero => exact Nat.zero_le _
  | succ h hlen hdata hne =>
    rw [List.length_append]
    exact reads.fits h hlen hdata

/-- A call that stores nothing before four bytes are there is the last one. -/
theorem not_complete_of_stop {m : Nat} {front : List UInt8} (h : Got reads.result m front)
    (hlen : front.length < UINT_LEN) (hstop : ∀ data, reads.result m = some data → data = []) :
    ¬ reads.Complete bytes := by
  rintro ⟨k, hbytes, hfull⟩
  have hkm : k = m := Nat.le_antisymm (hbytes.le_of_stop hstop) (h.le_of_full hbytes hfull)
  rw [hkm] at hbytes
  rw [h.unique hbytes, hfull] at hlen
  exact Nat.lt_irrefl _ hlen

theorem EndsEarly.not_complete (h : reads.EndsEarly) : ¬ reads.Complete bytes := by
  obtain ⟨m, front, hfront, hlen, hend⟩ := h
  apply not_complete_of_stop hfront hlen
  intro data hdata
  exact (Option.some.inj (hend.symm.trans hdata)).symm

theorem Fails.not_complete (h : reads.Fails) : ¬ reads.Complete bytes := by
  obtain ⟨m, front, hfront, hlen, hfail⟩ := h
  apply not_complete_of_stop hfront hlen
  intro data hdata
  cases hfail.symm.trans hdata

theorem EndsEarly.not_fails (h : reads.EndsEarly) : ¬ reads.Fails := by
  obtain ⟨m, front, hfront, -, hend⟩ := h
  rintro ⟨k, bytes, hbytes, -, hfail⟩
  have hmk : m ≤ k := hfront.le_of_stop fun data hdata => by cases hfail.symm.trans hdata
  have hkm : k ≤ m := hbytes.le_of_stop fun data hdata =>
    (Option.some.inj (hend.symm.trans hdata)).symm
  rw [Nat.le_antisymm hkm hmk, hend] at hfail
  cases hfail

/-- A stream cannot be complete in two ways. -/
theorem Complete.unique {more : List UInt8} (h : reads.Complete bytes)
    (h' : reads.Complete more) : bytes = more := by
  obtain ⟨k, hbytes, hfull⟩ := h
  obtain ⟨m, hmore, hfull'⟩ := h'
  have hkm : k = m := Nat.le_antisymm (hbytes.le_of_full hmore hfull')
    (hmore.le_of_full hbytes hfull)
  rw [hkm] at hbytes
  exact hbytes.unique hmore

end Reads

/-! ## The three ends of the loop -/

/-- How the loop can end: the result of its last call and what is in `charC` then. -/
inductive Ending (reads : Reads) : Int → List UInt8 → Prop
  | complete {ret : Int} {bytes : List UInt8} (hret : 0 ≤ ret) (h : reads.Complete bytes) :
      Ending reads ret bytes
  | fails {charC : List UInt8} (h : reads.Fails) : Ending reads (-1) charC
  | endsEarly {charC : List UInt8} (h : reads.EndsEarly) : Ending reads 0 charC

variable {reads : Reads} {order : ByteOrder} {junk : Vector UInt8 UINT_LEN}

/-- The loop behind `k` calls with a positive result, the bytes stored so far at the front of
`charC`. Induction on the fuel: each round stores a byte, or is the last. -/
theorem readUintLoop_ends (fuel : Nat) {k : Nat} {bytes charC : List UInt8} {ret : Int}
    (h : Got reads.result k bytes) (hfuel : UINT_LEN - bytes.length + 1 < fuel) (hret : 0 < ret)
    (hlen : charC.length = UINT_LEN) (htake : charC.take bytes.length = bytes) :
    ∃ ret' charC', readUintLoop reads.result fuel k charC bytes.length ret = some (ret', charC') ∧
      Ending reads ret' charC' := by
  induction fuel generalizing k bytes charC ret with
  | zero => omega
  | succ fuel ih =>
    rw [readUintLoop]
    by_cases hfull : bytes.length < UINT_LEN
    · rw [if_pos ⟨by exact_mod_cast hfull, hret⟩]
      cases hdata : reads.result k with
      | none =>
        -- the loop is left in the next round
        refine ⟨-1, charC, ?_, .fails ⟨k, bytes, h, hfull, hdata⟩⟩
        obtain ⟨fuel, rfl⟩ : ∃ n, fuel = n + 1 := ⟨fuel - 1, by omega⟩
        rw [readUintLoop, if_neg (fun hgo => absurd hgo.2 (by decide))]
        rfl
      | some data =>
        cases data with
        | nil =>
          refine ⟨0, store charC bytes.length [], ?_, .endsEarly ⟨k, bytes, h, hfull, hdata⟩⟩
          obtain ⟨fuel, rfl⟩ : ∃ n, fuel = n + 1 := ⟨fuel - 1, by omega⟩
          rw [readUintLoop, if_neg (fun hgo => absurd hgo.2 (by decide))]
          rfl
        | cons b data =>
          have hfits := reads.fits h hfull hdata
          have hnext : Got reads.result (k + 1) (bytes ++ b :: data) :=
            .succ h hfull hdata (List.cons_ne_nil b data)
          have hsum : ((bytes.length : Int) + returned (some (b :: data))) =
              (bytes ++ b :: data).length := by
            rw [List.length_append, Int.natCast_add]
            rfl
          dsimp only
          rw [hsum]
          apply ih hnext
          · rw [List.length_append, List.length_cons]
            rw [List.length_cons] at hfits
            omega
          · show (0 : Int) < ((b :: data).length : Nat)
            rw [List.length_cons]
            omega
          · show (store charC bytes.length (b :: data)).length = UINT_LEN
            rw [length_store (by rw [hlen]; exact hfits), hlen]
          · show (store charC bytes.length (b :: data)).take (bytes ++ b :: data).length = _
            rw [List.length_append, take_store (by omega), htake]
    · rw [if_neg (fun hgo => hfull (by exact_mod_cast hgo.1))]
      have hle := Reads.length_le h
      have hall : charC = bytes := by
        rw [← htake, List.take_of_length_le (by omega)]
      exact ⟨ret, charC, rfl, .complete hret.le (hall ▸ ⟨k, h, by omega⟩)⟩

/-- The first call is one more round of the loop. -/
theorem readUint_eq (order : ByteOrder) (junk : Vector UInt8 UINT_LEN)
    (results : Nat → ReadResult) :
    readUint order junk results =
      (readUintLoop results (UINT_LEN + 2) 0 junk.toList 0 1).bind fun r =>
        if r.1 < 0 then some (-1, none) else some (0, some (order.decode r.2)) := by
  rw [readUintLoop, if_pos (by decide)]
  dsimp only
  rw [Int.zero_add]
  rfl

theorem readUint_ends (order : ByteOrder) (junk : Vector UInt8 UINT_LEN) (reads : Reads) :
    ∃ ret charC, Ending reads ret charC ∧ readUint order junk reads.result =
      if ret < 0 then some (-1, none) else some (0, some (order.decode charC)) := by
  have hstart : Got reads.result 0 [] := .zero
  obtain ⟨ret, charC, hloop, hend⟩ := readUintLoop_ends (UINT_LEN + 2) hstart (by decide)
    Int.one_pos junk.length_toList rfl
  refine ⟨ret, charC, hend, ?_⟩
  rw [readUint_eq]
  exact congrArg (Option.bind · _) hloop

/-- A complete header is accepted. -/
theorem readUint_complete {bytes : List UInt8} (h : reads.Complete bytes) :
    readUint order junk reads.result = some (0, some (order.decode bytes)) := by
  obtain ⟨ret, charC, hend, heq⟩ := readUint_ends order junk reads
  cases hend with
  | complete hret h' => rw [heq, if_neg (Int.not_lt.mpr hret), h'.unique h]
  | fails h' => exact absurd h h'.not_complete
  | endsEarly h' => exact absurd h h'.not_complete

/-- One cut off by an error is refused. -/
theorem readUint_fails (h : reads.Fails) :
    readUint order junk reads.result = some (-1, none) := by
  obtain ⟨ret, charC, hend, heq⟩ := readUint_ends order junk reads
  cases hend with
  | complete hret h' => exact absurd h' h.not_complete
  | fails h' => rw [heq, if_pos (by decide)]
  | endsEarly h' => exact absurd h h'.not_fails

/-- One cut off by the end of the stream is accepted; its value is made of what is in `charC`
then. -/
theorem readUint_endsEarly (order : ByteOrder) (junk : Vector UInt8 UINT_LEN)
    (h : reads.EndsEarly) : ∃ N, readUint order junk reads.result = some (0, some N) := by
  obtain ⟨ret, charC, hend, heq⟩ := readUint_ends order junk reads
  cases hend with
  | complete hret h' => exact absurd h' h.not_complete
  | fails h' => exact absurd h' h.not_fails
  | endsEarly h' => exact ⟨order.decode charC, heq⟩

/-- There are no other ends. -/
theorem Reads.ends (reads : Reads) :
    (∃ bytes, reads.Complete bytes) ∨ reads.Fails ∨ reads.EndsEarly := by
  obtain ⟨ret, charC, hend, -⟩ :=
    readUint_ends .little (Vector.replicate UINT_LEN 0) reads
  cases hend with
  | complete hret h => exact .inl ⟨_, h⟩
  | fails h => exact .inr (.inl h)
  | endsEarly h => exact .inr (.inr h)

/-! ## When headers are accepted -/

/-- `readUint` returns, and with 0 exactly when four bytes were received; then `*C` is the number
for which `sendUint` writes these bytes. -/
def ReturnsExactly (order : ByteOrder) (junk : Vector UInt8 UINT_LEN) (reads : Reads) : Prop :=
  ∃ ret C, readUint order junk reads.result = some (ret, C) ∧
    (ret = 0 ↔ ∃ bytes, reads.Complete bytes) ∧
    ∀ bytes, reads.Complete bytes →
      ∃ N, C = some N ∧ ∀ short, sendUint order short N = some bytes

/-- **A header is accepted exactly when it is complete, unless the stream ends inside it.** -/
theorem readUint_exact_iff (order : ByteOrder) (junk : Vector UInt8 UINT_LEN) (reads : Reads) :
    ReturnsExactly order junk reads ↔ ¬ reads.EndsEarly := by
  constructor
  · rintro ⟨ret, C, hread, hiff, -⟩ hearly
    obtain ⟨N, heq⟩ := readUint_endsEarly order junk hearly
    have hret : ret = 0 := (Prod.mk.inj (Option.some.inj (hread.symm.trans heq))).1
    obtain ⟨bytes, hcomplete⟩ := hiff.mp hret
    exact hearly.not_complete hcomplete
  · intro hnot
    rcases reads.ends with ⟨bytes, hcomplete⟩ | hfails | hearly
    · refine ⟨0, some (order.decode bytes), readUint_complete hcomplete,
        ⟨fun _ => ⟨bytes, hcomplete⟩, fun _ => rfl⟩, ?_⟩
      intro more hmore
      obtain ⟨k, hgot, hlen⟩ := hmore
      refine ⟨order.decode bytes, rfl, fun short => ?_⟩
      rw [sendUint_eq, hcomplete.unique ⟨k, hgot, hlen⟩, order.encode_decode more hlen]
    · refine ⟨-1, none, readUint_fails hfails, ⟨fun h => absurd h (by decide), ?_⟩, ?_⟩
      · rintro ⟨bytes, hcomplete⟩
        exact absurd hcomplete hfails.not_complete
      · intro bytes hcomplete
        exact absurd hcomplete hfails.not_complete
    · exact absurd hearly hnot

/-- A peer that closes the connection at once. -/
def hangup : Reads where
  result _ := some []
  fits {k bytes data} _ hlen hdata := by
    rw [← Option.some.inj hdata]
    exact Nat.le_of_lt hlen

theorem readUint_accepts_nothing :
    readUint .little (Vector.replicate UINT_LEN 7) hangup.result = some (0, some 0x07070707) ∧
      ¬ ReturnsExactly .little (Vector.replicate UINT_LEN 7) hangup := by
  refine ⟨by decide, ?_⟩
  rintro ⟨ret, C, hread, hiff, -⟩
  have hret : ret = 0 := (Prod.mk.inj (Option.some.inj
    (hread.symm.trans (show _ = some (0, some 0x07070707) by decide)))).1
  obtain ⟨bytes, k, hgot, hlen⟩ := hiff.mp hret
  cases hgot with
  | zero => cases hlen
  | succ h hshort hdata hne => exact hne (Option.some.inj hdata).symm

/-! ## The thread's calls -/

namespace Connection

/-- The thread behind `n` calls from the `k`-th on, as long as none of them fails. -/
def afterReads (order : ByteOrder) (results : Nat → ReadResult) :
    Nat → Nat → Connection → Connection
  | _, 0, c => c
  | k, n + 1, c => afterReads order results (k + 1) n (c.received order ((results k).getD []))

variable {order : ByteOrder} {c : Connection} {bytesRead : Nat} {data : List UInt8}

/-- A call that leaves the loop of `readUint` running. -/
theorem received_more (order : ByteOrder) (hphase : c.phase = .readN bytesRead)
    (hgo : bytesRead + data.length < UINT_LEN ∧ 0 < data.length) :
    c.received order data = { c with
      charC := store c.charC bytesRead data, phase := .readN (bytesRead + data.length) } := by
  unfold received
  rw [hphase]
  exact if_pos hgo

/-- The last one. -/
theorem received_last (order : ByteOrder) (hphase : c.phase = .readN bytesRead)
    (hgo : ¬ (bytesRead + data.length < UINT_LEN ∧ 0 < data.length)) :
    c.received order data = { c with
      charC := store c.charC bytesRead data
      N := order.decode (store c.charC bytesRead data)
      phase := .readStream } := by
  unfold received
  rw [hphase]
  exact if_neg hgo

end Connection

/-- The rounds of the loop are the calls of the thread. Induction on the fuel. -/
theorem received_readUintLoop {order : ByteOrder} {results : Nat → ReadResult} (fuel : Nat)
    {k bytesRead : Nat} {c : Connection} {ret ret' : Int} {charC : List UInt8}
    (hphase : c.phase = .readN bytesRead) (hshort : bytesRead < UINT_LEN) (hret : 0 < ret)
    (hloop : readUintLoop results fuel k c.charC bytesRead ret = some (ret', charC))
    (hret' : 0 ≤ ret') :
    ∃ n, (c.afterReads order results k n).phase = .readStream ∧
      (c.afterReads order results k n).N = order.decode charC := by
  induction fuel generalizing k bytesRead c ret with
  | zero => cases hloop
  | succ fuel ih =>
    rw [readUintLoop, if_pos ⟨by exact_mod_cast hshort, hret⟩] at hloop
    dsimp only at hloop
    cases hdata : results k with
    | none =>
      -- `readUint` would return -1
      rw [hdata] at hloop
      cases fuel with
      | zero => cases hloop
      | succ fuel =>
        rw [readUintLoop, if_neg (fun hgo => absurd hgo.2 (by decide))] at hloop
        cases hloop
        exact absurd hret' (by decide)
    | some data =>
      rw [hdata] at hloop
      have hgetD : (results k).getD [] = data := by rw [hdata]; rfl
      have hsum : (bytesRead : Int) + returned (some data) = (bytesRead + data.length : Nat) :=
        (Int.natCast_add _ _).symm
      rw [hsum] at hloop
      by_cases hgo : bytesRead + data.length < UINT_LEN ∧ 0 < data.length
      · have hstep := Connection.received_more order hphase hgo
        obtain ⟨n, hn⟩ := ih (k := k + 1) (c := c.received order data)
          (by rw [hstep]) hgo.1 (show 0 < (data.length : Int) by exact_mod_cast hgo.2)
          (by rw [hstep]; exact hloop)
        refine ⟨n + 1, ?_⟩
        rw [Connection.afterReads, hgetD]
        exact hn
      · have hstep := Connection.received_last order hphase hgo
        refine ⟨1, ?_⟩
        rw [Connection.afterReads, Connection.afterReads, hgetD, hstep]
        cases fuel with
        | zero => cases hloop
        | succ fuel =>
          have hstop : ¬ (((bytesRead + data.length : Nat) : Int) < (UINT_LEN : Nat) ∧
              0 < returned (some data)) := fun h =>
            hgo ⟨by exact_mod_cast h.1, Int.natCast_pos.mp h.2⟩
          rw [readUintLoop, if_neg hstop] at hloop
          cases hloop
          exact ⟨rfl, rfl⟩

/-- **A header that `readUint` accepts is the length that steers the connection**, also one that
the peer has cut off. -/
theorem received_readUint {order : ByteOrder} {junk : Vector UInt8 UINT_LEN}
    {results : Nat → ReadResult} {N : BitVec 32}
    (h : readUint order junk results = some (0, some N)) :
    ∃ n, ((Connection.start junk).afterReads order results 0 n).phase = .readStream ∧
      ((Connection.start junk).afterReads order results 0 n).N = N := by
  rw [readUint_eq] at h
  obtain ⟨⟨ret, charC⟩, hloop, hfin⟩ := Option.bind_eq_some_iff.mp h
  have hret : ¬ ret < 0 := by
    intro hneg
    rw [if_pos hneg] at hfin
    cases hfin
  rw [if_neg hret] at hfin
  cases hfin
  exact received_readUintLoop (c := .start junk) _ rfl (by decide) Int.one_pos hloop
    (Int.not_lt.mp hret)

end OsHw.Ex5
