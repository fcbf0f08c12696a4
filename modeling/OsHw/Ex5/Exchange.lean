import OsHw.Ex5.Connection
import OsHw.Lib.Runs

/-!
# OsHw — `pcc_client` and the exchange with one connection of `pcc_server`

The client sends the length `N`, then `N` bytes of its input, and prints the number that the
server sends back. It runs against `connectionMain` over a socket: two streams of bytes, one
in each direction.

An event is one `read` or `write` call of one of the two parties, with the number of bytes it
moves: any positive number up to what was asked for, and for a `read` on the socket up to what
is in flight. A `read` with nothing in flight blocks, unless the other end is closed, when it
delivers the end of the stream. No call fails.

`sendData` takes `N` as an `int`. Its inner reading loop asks for the whole rest of `buff`, so
that it may read beyond the bytes it is going to send; what is read too much is dropped.
-/

namespace OsHw.Ex5

/-! ## The client -/

/-- Where the client is; each phase stands before a `read` or `write` call. -/
inductive ClientPhase where
  /-- `write` in `sendUint`. -/
  | sendN (written : Nat)
  /-- `read` in `sendData`; the `bytesRead` bytes read so far are in `buff`. -/
  | fill (written toRead : Nat) (buff : List UInt8)
  /-- `write` in `sendData`. -/
  | flush (written toRead bytesWritten : Nat) (buff : List UInt8)
  /-- `read` in `readUint`. -/
  | readC (bytesRead : Nat)
  /-- `C` was printed and the socket closed. -/
  | closed (C : BitVec 32)
  deriving DecidableEq, Repr

/-- The client's socket is closed. -/
def ClientPhase.done : ClientPhase → Bool
  | .closed _ => true
  | _ => false

structure Client where
  phase : ClientPhase
  N : BitVec 32
  charC : List UInt8

/-- The test of the loop in `sendData`, and the start of its body. -/
def sendData (N : Int) (written : Nat) : ClientPhase :=
  if (written : Int) < N then
    .fill written (if N - written < BUFF_LEN then (N - written).toNat else BUFF_LEN) []
  else .readC 0

/-! ## The exchange -/

/-- The two parties and what they wrote into the socket, with how much of it the other end has
read. `inputPos` is how much of its input the client has read. -/
structure Exchange where
  client : Client
  server : Connection
  inputPos : Nat
  toServer : List UInt8
  serverPos : Nat
  toClient : List UInt8
  clientPos : Nat

inductive Party where
  | client
  | server
  deriving DecidableEq, Repr

/-- The next call of a party moves this many bytes. -/
abbrev Move := Party × Nat

/-- What a `read` on the socket delivers, of the bytes `sent` by the other end; `none` if it
blocks, or cannot deliver `k` bytes. -/
def socketRead (sent : List UInt8) (pos want k : Nat) (closed : Bool) : Option (List UInt8) :=
  if sent.length ≤ pos then
    if closed then some [] else none
  else if 1 ≤ k ∧ k ≤ want ∧ pos + k ≤ sent.length then some ((sent.drop pos).take k)
  else none

/-- What a `write` takes of the bytes it is given, if it takes `k`. -/
def socketWrite (bytes : List UInt8) (k : Nat) : Option (List UInt8) :=
  if 1 ≤ k ∧ k ≤ bytes.length then some (bytes.take k) else none

namespace Exchange

variable (order : ByteOrder) (input : Nat → UInt8)

/-- The client's next call. -/
def clientStep (k : Nat) (s : Exchange) : Option Exchange :=
  let N := s.client.N
  match s.client.phase with
  | .sendN written =>
    (socketWrite ((order.encode N).drop written) k).map fun bytes =>
      { s with
        toServer := s.toServer ++ bytes
        client.phase :=
          if written + k < UINT_LEN then .sendN (written + k) else sendData N.toInt 0 }
  | .fill written toRead buff =>
    -- the first `read` of a chunk asks for `toRead`, the next ones for the rest of `buff`
    let want := if buff.length = 0 then toRead else BUFF_LEN - buff.length
    if 1 ≤ k ∧ k ≤ want then
      let buff := buff ++ (List.range k).map fun j => input (s.inputPos + j)
      some { s with
        inputPos := s.inputPos + k
        client.phase :=
          if buff.length < toRead then .fill written toRead buff
          else .flush written toRead 0 buff }
    else none
  | .flush written toRead bytesWritten buff =>
    (socketWrite ((buff.take toRead).drop bytesWritten) k).map fun bytes =>
      { s with
        toServer := s.toServer ++ bytes
        client.phase :=
          -- `written` advances by whole chunks only
          if bytesWritten + k < toRead then .flush written toRead (bytesWritten + k) buff
          else sendData N.toInt (written + toRead) }
  | .readC bytesRead =>
    (socketRead s.toClient s.clientPos (UINT_LEN - bytesRead) k s.server.phase.done).map fun data =>
      let charC := store s.client.charC bytesRead data
      { s with
        clientPos := s.clientPos + data.length
        client.charC := charC
        client.phase :=
          -- at the end of the stream it prints what is in `charC` then
          if bytesRead + data.length < UINT_LEN ∧ 0 < data.length then
            .readC (bytesRead + data.length)
          else .closed (order.decode charC) }
  | .closed _ => none

/-- The server's next call on the socket. -/
def serverStep (k : Nat) (s : Exchange) : Option Exchange :=
  match s.server.request with
  | some want =>
    (socketRead s.toServer s.serverPos want k s.client.phase.done).map fun data =>
      { s with
        serverPos := s.serverPos + data.length
        server := s.server.received order data }
  | none =>
    (socketWrite (s.server.outgoing order) k).map fun bytes =>
      { s with toClient := s.toClient ++ bytes, server := s.server.wrote order k }

def step (move : Move) (s : Exchange) : Option Exchange :=
  match move.1 with
  | .client => clientStep order input move.2 s
  | .server => serverStep order move.2 s

/-- The client's `main` before `sendUint`, and a new connection. -/
def start (N : BitVec 32) (junk junk' : Vector UInt8 UINT_LEN) : Exchange where
  client := { phase := .sendN 0, N := N, charC := junk.toList }
  server := .start junk'
  inputPos := 0
  toServer := []
  serverPos := 0
  toClient := []
  clientPos := 0

def Reachable (N : BitVec 32) (junk junk' : Vector UInt8 UINT_LEN) (s : Exchange) : Prop :=
  Runs.Reaches (step order input) (fun _ _ => True) (start N junk junk') s

end Exchange

end OsHw.Ex5
