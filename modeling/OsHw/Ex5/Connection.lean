import OsHw.Lib.ByteOrder
import Mathlib.Algebra.BigOperators.Group.Finset.Basic
import Mathlib.Data.BitVec
import Mathlib.Data.Fintype.BigOperators

/-!
# OsHw — one connection of `pcc_server` (`connectionMain`)

The server reads the length `N` of a stream, reads the stream and counts its printable bytes,
sends their number back, closes the connection, and adds its counters to the global ones.

A connection is a thread of the server. Its actions on the socket are one `read` or `write`
call each; what a `read` delivers (`[]` at the end of the stream) and how many bytes a `write`
takes are given from outside, by a peer (`Ex5/Exchange.lean`) or by anybody
(`Ex5/Server.lean`).

* **`parsBuff`** and **`parsBuff_eq`** — the counting loop.
* **`Connection.received`**, **`Connection.wrote`** — what `connectionMain` does behind a `read`
  or `write` call, up to the next one. `readUint` and `sendUint` are the phases `readN` and
  `sendC`.
* **`Connection.Tallied`** — the counters are those of the bytes processed so far.
* **`Connection.Answered`** — the answer is the total.

`int` and `unsigned int` are `BitVec 32`. The total of the bytes read is a signed `int` in the
source; adding to it beyond its range is modelled as wrapping, and the comparison with `N`
converts it to unsigned.
-/

namespace OsHw.Ex5

def UINT_LEN : Nat := 4
def PRINTABLES_LEN : Nat := 95
def PRINTABLES_MIN : Nat := 32
def PRINTABLES_MAX : Nat := 126
def BUFF_LEN : Nat := 16384

/-- An array of `PRINTABLES_LEN` unsigned ints. -/
abbrev Counters := Fin PRINTABLES_LEN → BitVec 32

/-! ## Counting -/

/-- `buff[i] >= PRINTABLES_MIN && buff[i] <= PRINTABLES_MAX`. A byte from 128 on is negative as
a signed `char` and too large as an unsigned one. -/
def Printable (b : UInt8) : Prop := PRINTABLES_MIN ≤ b.toNat ∧ b.toNat ≤ PRINTABLES_MAX

instance : DecidablePred Printable := fun b => by
  unfold Printable
  infer_instance

/-- The counter of a printable byte. -/
def cell (b : UInt8) (h : Printable b) : Fin PRINTABLES_LEN :=
  ⟨b.toNat - PRINTABLES_MIN, by
    have h₁ : 32 ≤ b.toNat := h.1
    have h₂ : b.toNat ≤ 126 := h.2
    show b.toNat - 32 < 95
    omega⟩

/-- The body of the loop of `parsBuff`, on `localCounters` and `ret`. -/
def parsByte (r : Counters × BitVec 32) (b : UInt8) : Counters × BitVec 32 :=
  if h : Printable b then
    (Function.update r.1 (cell b h) (r.1 (cell b h) + 1), r.2 + 1)
  else r

def parsBuff (localCounters : Counters) (buff : List UInt8) : Counters × BitVec 32 :=
  buff.foldl parsByte (localCounters, 0)

/-- How often the byte of a counter occurs. -/
def occurrences (bytes : List UInt8) (i : Fin PRINTABLES_LEN) : Nat :=
  bytes.countP fun b => b.toNat = i.val + PRINTABLES_MIN

/-- How many bytes are printable. -/
def printables (bytes : List UInt8) : Nat := bytes.countP fun b => Printable b

theorem cell_eq_iff (b : UInt8) (h : Printable b) (i : Fin PRINTABLES_LEN) :
    cell b h = i ↔ b.toNat = i.val + PRINTABLES_MIN := by
  have h₁ : 32 ≤ b.toNat := h.1
  rw [cell, Fin.ext_iff]
  show b.toNat - 32 = i.val ↔ b.toNat = i.val + 32
  omega

theorem printable_of_eq {b : UInt8} {i : Fin PRINTABLES_LEN}
    (hb : b.toNat = i.val + PRINTABLES_MIN) : Printable b := by
  have hi : i.val < 95 := i.isLt
  rw [Printable, hb]
  show 32 ≤ i.val + 32 ∧ i.val + 32 ≤ 126
  omega

theorem foldl_parsByte (buff : List UInt8) (l : Counters) (n : BitVec 32) :
    buff.foldl parsByte (l, n) =
      (fun i => l i + BitVec.ofNat 32 (occurrences buff i),
        n + BitVec.ofNat 32 (printables buff)) := by
  induction buff generalizing l n with
  | nil => simp [occurrences, printables]
  | cons b buff ih =>
    rw [List.foldl_cons, parsByte]
    by_cases h : Printable b
    · rw [dif_pos h, ih]
      congr 1
      · funext i
        by_cases hi : b.toNat = i.val + PRINTABLES_MIN
        · rw [(cell_eq_iff b h i).mpr hi, Function.update_self]
          simp [occurrences, hi, BitVec.ofNat_add, BitVec.add_assoc, BitVec.add_comm]
        · rw [Function.update_of_ne (fun heq => hi ((cell_eq_iff b h i).mp heq.symm))]
          simp [occurrences, hi]
      · simp [printables, h, BitVec.ofNat_add, BitVec.add_assoc, BitVec.add_comm]
    · rw [dif_neg h, ih]
      congr 1
      · funext i
        have hi : b.toNat ≠ i.val + PRINTABLES_MIN := fun hi => h (printable_of_eq hi)
        simp [occurrences, hi]
      · simp [printables, h]

/-- **The counting loop.** -/
theorem parsBuff_eq (l : Counters) (buff : List UInt8) :
    parsBuff l buff =
      (fun i => l i + BitVec.ofNat 32 (occurrences buff i), BitVec.ofNat 32 (printables buff)) := by
  rw [parsBuff, foldl_parsByte]
  simp

/-- A printable byte has exactly one counter. -/
theorem sum_cell (b : UInt8) :
    (∑ i : Fin PRINTABLES_LEN, if b.toNat = i.val + PRINTABLES_MIN then 1 else 0) =
      if Printable b then 1 else 0 := by
  by_cases h : Printable b
  · have hcell : ∀ i, (if b.toNat = i.val + PRINTABLES_MIN then 1 else 0) =
        if cell b h = i then 1 else 0 := fun i =>
      if_congr (cell_eq_iff b h i).symm rfl rfl
    rw [if_pos h, Finset.sum_congr rfl fun i _ => hcell i, Finset.sum_ite_eq,
      if_pos (Finset.mem_univ _)]
  · rw [if_neg h]
    apply Finset.sum_eq_zero
    intro i _
    exact if_neg fun hi => h (printable_of_eq hi)

theorem sum_occurrences (bytes : List UInt8) :
    ∑ i, occurrences bytes i = printables bytes := by
  induction bytes with
  | nil => exact Finset.sum_eq_zero fun i _ => rfl
  | cons b bytes ih =>
    have hcount : ∀ i, occurrences (b :: bytes) i =
        occurrences bytes i + if b.toNat = i.val + PRINTABLES_MIN then 1 else 0 := by
      intro i
      simp [occurrences, List.countP_cons]
    rw [Finset.sum_congr rfl fun i _ => hcount i, Finset.sum_add_distrib, ih, sum_cell]
    simp [printables, List.countP_cons]

/-! ## Buffers -/

/-- A call that stores `data` into a buffer from index `pos` on. -/
def store (buff : List UInt8) (pos : Nat) (data : List UInt8) : List UInt8 :=
  buff.take pos ++ data ++ buff.drop (pos + data.length)

theorem length_store {buff data : List UInt8} {pos : Nat}
    (h : pos + data.length ≤ buff.length) : (store buff pos data).length = buff.length := by
  simp only [store, List.length_append, List.length_take, List.length_drop]
  omega

theorem take_store {buff data : List UInt8} {pos : Nat} (h : pos ≤ buff.length) :
    (store buff pos data).take (pos + data.length) = buff.take pos ++ data := by
  have hlen : (buff.take pos ++ data).length = pos + data.length := by
    rw [List.length_append, List.length_take, min_eq_left h]
  rw [store, ← hlen, List.take_left]

/-! ## The thread -/

/-- Where a connection thread is; each phase stands before a system call or an access to shared
data. -/
inductive Phase where
  /-- `read` in `readUint`. -/
  | readN (bytesRead : Nat)
  /-- `read` in the loop of `connectionMain`. -/
  | readStream
  /-- `write` in `sendUint`. -/
  | sendC (written : Nat)
  /-- The socket is closed; the next `__sync_fetch_and_add` of `parsPrintables`, for `i` below
  `PRINTABLES_LEN`. -/
  | merge (i : Nat)
  /-- `pthread_mutex_lock` in `updateActiveThreads(-1)`, its body, `pthread_mutex_unlock`. -/
  | lock
  | update
  | unlock
  /-- The last `printf`. -/
  | print
  | returned
  deriving DecidableEq, Repr

/-- The connection's socket is closed. -/
def Phase.done : Phase → Bool
  | .readN _ | .readStream | .sendC _ => false
  | _ => true

/-- The variables of `connectionMain` and its `readUint`. `processed` and `sent` are not in the
source: they record the bytes given to `parsBuff`, and those written to the client. -/
structure Connection where
  phase : Phase
  charC : List UInt8
  N : BitVec 32
  totalRead : BitVec 32
  totalPrintable : BitVec 32
  localCounter : Counters
  processed : List UInt8
  sent : List UInt8

namespace Connection

/-- A new thread; `charC` is not initialised. -/
def start (junk : Vector UInt8 UINT_LEN) : Connection where
  phase := .readN 0
  charC := junk.toList
  N := 0
  totalRead := 0
  totalPrintable := 0
  localCounter _ := 0
  processed := []
  sent := []

/-- How many bytes the next call asks for, if it is a `read`. -/
def request (c : Connection) : Option Nat :=
  match c.phase with
  | .readN bytesRead => some (UINT_LEN - bytesRead)
  | .readStream => some BUFF_LEN
  | _ => none

/-- Behind a `read` call that delivered `data`. -/
def received (order : ByteOrder) (data : List UInt8) (c : Connection) : Connection :=
  match c.phase with
  | .readN bytesRead =>
    let charC := store c.charC bytesRead data
    -- at the end of the stream, `N` is made of what is in `charC` then
    if bytesRead + data.length < UINT_LEN ∧ 0 < data.length then
      { c with charC := charC, phase := .readN (bytesRead + data.length) }
    else { c with charC := charC, N := order.decode charC, phase := .readStream }
  | .readStream =>
    let totalRead := c.totalRead + BitVec.ofNat 32 data.length
    let (localCounter, temp) := parsBuff c.localCounter data
    { c with
      totalRead := totalRead
      localCounter := localCounter
      totalPrintable := c.totalPrintable + temp
      processed := c.processed ++ data
      -- tested behind the first `read`, and as unsigned
      phase := if totalRead.ult c.N ∧ 0 < data.length then .readStream else .sendC 0 }
  | _ => c

/-- The bytes that the next call asks to write. -/
def outgoing (order : ByteOrder) (c : Connection) : List UInt8 :=
  match c.phase with
  | .sendC written => (order.encode c.totalPrintable).drop written
  | _ => []

/-- Behind a `write` call that took `k` bytes; after the last one the socket is closed. -/
def wrote (order : ByteOrder) (k : Nat) (c : Connection) : Connection :=
  match c.phase with
  | .sendC written =>
    { c with
      sent := c.sent ++ (c.outgoing order).take k
      -- `close(connection_fd)` on the way to `parsPrintables`
      phase := if written + k < UINT_LEN then .sendC (written + k) else .merge 0 }
  | _ => c

/-- Only a thread with an open socket reads. -/
theorem open_of_request {c : Connection} {want : Nat} (h : c.request = some want) :
    c.phase.done = false := by
  unfold request at h
  cases hphase : c.phase with
  | readN bytesRead => rfl
  | readStream => rfl
  | _ => simp [hphase] at h

/-- Only a thread with an open socket writes. -/
theorem open_of_outgoing {c : Connection} {order : ByteOrder}
    (h : 0 < (c.outgoing order).length) : c.phase.done = false := by
  unfold outgoing at h
  cases hphase : c.phase with
  | readN bytesRead => rfl
  | readStream => rfl
  | sendC written => rfl
  | _ => simp [hphase] at h

/-- The counters are those of the bytes processed so far. -/
structure Tallied (c : Connection) : Prop where
  localCounter : ∀ i, c.localCounter i = BitVec.ofNat 32 (occurrences c.processed i)
  totalPrintable : c.totalPrintable = BitVec.ofNat 32 (printables c.processed)
  totalRead : c.totalRead = BitVec.ofNat 32 c.processed.length

theorem Tallied.start (junk : Vector UInt8 UINT_LEN) : (start junk).Tallied where
  localCounter _ := rfl
  totalPrintable := rfl
  totalRead := rfl

variable {c : Connection}

theorem Tallied.received (h : c.Tallied) (order : ByteOrder) (data : List UInt8) :
    (c.received order data).Tallied := by
  obtain ⟨phase, charC, N, totalRead, totalPrintable, localCounter, processed, sent⟩ := c
  cases phase with
  | readN bytesRead =>
    unfold Connection.received
    dsimp only
    split <;> exact ⟨h.localCounter, h.totalPrintable, h.totalRead⟩
  | readStream =>
    constructor
    · intro i
      show (parsBuff localCounter data).1 i = BitVec.ofNat 32 (occurrences (processed ++ data) i)
      have hold : localCounter i = BitVec.ofNat 32 (occurrences processed i) := h.localCounter i
      rw [parsBuff_eq]
      show localCounter i + BitVec.ofNat 32 (occurrences data i) = _
      rw [hold, occurrences, occurrences, occurrences, List.countP_append, BitVec.ofNat_add]
    · show totalPrintable + (parsBuff localCounter data).2 =
        BitVec.ofNat 32 (printables (processed ++ data))
      have hold : totalPrintable = BitVec.ofNat 32 (printables processed) := h.totalPrintable
      rw [parsBuff_eq, hold, printables, printables, printables, List.countP_append,
        BitVec.ofNat_add]
    · show totalRead + BitVec.ofNat 32 data.length = BitVec.ofNat 32 (processed ++ data).length
      have hold : totalRead = BitVec.ofNat 32 processed.length := h.totalRead
      rw [hold, List.length_append, BitVec.ofNat_add]
  | _ => exact h

theorem Tallied.wrote (h : c.Tallied) (order : ByteOrder) (k : Nat) :
    (c.wrote order k).Tallied := by
  obtain ⟨phase, charC, N, totalRead, totalPrintable, localCounter, processed, sent⟩ := c
  cases phase <;> exact ⟨h.localCounter, h.totalPrintable, h.totalRead⟩

end Connection

/-- How much of its answer the thread has written. -/
def Phase.written : Phase → Nat
  | .readN _ | .readStream => 0
  | .sendC written => written
  | _ => UINT_LEN

namespace Connection

/-- What was sent is the total, as far as it was written. -/
def Answered (order : ByteOrder) (c : Connection) : Prop :=
  c.sent = (order.encode c.totalPrintable).take c.phase.written

variable {c : Connection} {order : ByteOrder}

theorem Answered.start (junk : Vector UInt8 UINT_LEN) : (start junk).Answered order := rfl

theorem Answered.received (h : c.Answered order) (data : List UInt8) :
    (c.received order data).Answered order := by
  obtain ⟨phase, charC, N, totalRead, totalPrintable, localCounter, processed, sent⟩ := c
  cases phase with
  | readN bytesRead =>
    unfold Connection.received
    dsimp only
    split <;> exact h
  | readStream =>
    have hsent : sent = [] := h
    unfold Connection.received Answered
    dsimp only
    rw [hsent]
    split <;> rfl
  | _ => exact h

theorem Answered.wrote (h : c.Answered order) (k : Nat) : (c.wrote order k).Answered order := by
  obtain ⟨phase, charC, N, totalRead, totalPrintable, localCounter, processed, sent⟩ := c
  cases phase with
  | sendC written =>
    have hsent : sent = (order.encode totalPrintable).take written := h
    unfold Connection.wrote Answered
    show sent ++ ((order.encode totalPrintable).drop written).take k =
      (order.encode totalPrintable).take
        (if written + k < UINT_LEN then Phase.sendC (written + k) else .merge 0).written
    rw [hsent, ← List.take_add]
    split
    · rfl
    · have hlen : (order.encode totalPrintable).length = UINT_LEN := order.length_encode _
      show _ = (order.encode totalPrintable).take UINT_LEN
      rw [List.take_of_length_le (by omega), List.take_of_length_le hlen.le]
  | _ => exact h

end Connection

end OsHw.Ex5
