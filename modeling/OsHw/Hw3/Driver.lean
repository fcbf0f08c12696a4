import OsHw.Lib.Heap
import Mathlib.Data.BitVec

/-!
# OsHw — the message slot driver of `hw3` (`message_slot.c`, `message_slot.h`)

The driver keeps a linked list of `MinorList` nodes, one for each minor that was opened, and
in each node the list of its `Channel`s and the channel selected by the last `ioctl`.

* `MinorList` and `Channel` nodes live in two heaps (`Lib/Heap.lean`); a pointer is an address
  or `NULL`. Following a dangling pointer, or storing outside `message`, has no result, and so
  does a loop that does not end.
* Machine integers have the widths of a 64-bit kernel: `int` and `unsigned` are `BitVec 32`,
  `size_t`, `ssize_t` and `unsigned long` are `BitVec 64`. Every conversion the C compiler
  inserts (`signExtend`, `setWidth`) and the signedness of every comparison (`ult`, `slt`) is
  written out. Return values are read as signed integers.
* Each system call is one atomic step. A call allocates at most once; what `kmalloc` answers
  is an argument of the call: `none` for `NULL`, else the bytes the fresh node happens to hold.
* The driver ignores the results of `get_user` and `put_user`. From a bad address `get_user`
  stores 0, so `buff` is a byte for every index; what `put_user` is called with counts as
  delivered.
-/

namespace OsHw.Hw3

open Heap (Ptr)

def BUFFER_LENGTH : Nat := 129
def DEVICE_MAJOR : BitVec 32 := 285

/-- `_IOW(DEVICE_MAJOR, 0, unsigned int)`: direction, size, type and number. -/
def MSG_SLOT_CHANNEL : BitVec 32 := 1 <<< 30 ||| 4 <<< 16 ||| DEVICE_MAJOR <<< 8 ||| 0

def SUCCESS : Int := 0
def ENOENT : Int := 2
def EWOULDBLOCK : Int := 11
def ENOMEM : Int := 12
def EINVAL : Int := 22
def ENOSPC : Int := 28

/-! ## Data -/

/-- The fields of a `Channel` that are not links. -/
structure ChannelData where
  id : BitVec 32
  message : Vector UInt8 BUFFER_LENGTH
  length : BitVec 32
  deriving DecidableEq

structure Channel extends ChannelData where
  prev : Ptr
  next : Ptr
  deriving DecidableEq

structure MinorList where
  minor : BitVec 32
  channels : Ptr
  curr : Ptr
  prev : Ptr
  next : Ptr
  deriving DecidableEq

/-- The global `minors` and the two heaps. -/
structure State where
  minors : Ptr
  minorHeap : List (Option MinorList)
  channelHeap : List (Option Channel)
  deriving DecidableEq

/-- The driver after `deviceInit`. -/
def State.init : State := ⟨none, [], []⟩

/-- `id == ioctl_param`: the `int` is converted to `unsigned long`. -/
def ChannelData.hasId (c : ChannelData) (ioctl_param : BitVec 64) : Bool :=
  c.id.signExtend 64 == ioctl_param

/-- The loop over `minors` that every call starts with, as `prev` and `curr`; the minor was
found if `curr` is not `NULL`. -/
def findMinor (s : State) (minor : BitVec 32) : Option (Ptr × Ptr) :=
  Heap.search (·.minor == minor) MinorList.next s.minorHeap s.minors

/-! ## The calls -/

/-- The end of `deviceOpen`: initialise the node that was allocated. -/
def initMinor (minor : BitVec 32) (prev : Ptr) (curr : Nat) (s : State) :
    Option (Int × State) := do
  let minorHeap ← Heap.modify s.minorHeap curr fun _ =>
    { next := none, prev := prev, minor := minor, channels := none, curr := none }
  return (SUCCESS, { s with minorHeap })

def deviceOpen (kmalloc : Option MinorList) (minor : BitVec 32) (s : State) :
    Option (Int × State) :=
  match s.minors with
  | some _ => do
    let (prev, curr) ← findMinor s minor
    match curr with
    | some _ => return (SUCCESS, s)
    | none =>
      let (new, minorHeap) := Heap.kmalloc s.minorHeap kmalloc
      let last ← prev
      let minorHeap ← Heap.modify minorHeap last fun m => { m with next := new }
      match new with
      | none => return (-ENOMEM, { s with minorHeap })
      | some curr => initMinor minor prev curr { s with minorHeap }
  | none =>
    let (new, minorHeap) := Heap.kmalloc s.minorHeap kmalloc
    match new with
    | none => some (-ENOMEM, { s with minors := new, minorHeap })
    | some curr => initMinor minor none curr { s with minors := new, minorHeap }

/-- The copy loop of `deviceWrite`, from index `i` on. -/
def getLoop (buff : Nat → UInt8) (len : BitVec 64) :
    Nat → BitVec 64 → Vector UInt8 BUFFER_LENGTH →
      Option (BitVec 64 × Vector UInt8 BUFFER_LENGTH)
  | 0, _, _ => none
  | fuel + 1, i, message =>
    if i.ult len ∧ i.slt (BitVec.ofNat 64 (BUFFER_LENGTH - 1)) then
      if h : i.toNat < BUFFER_LENGTH then
        getLoop buff len fuel (i + 1) (message.set i.toNat (buff i.toNat) h)
      else none
    else some (i, message)

def deviceWrite (minor : BitVec 32) (buff : Option (Nat → UInt8)) (len : BitVec 64) (s : State) :
    Option (Int × State) :=
  if (128 : BitVec 64).ult len ∨ len.ule 0 then some (-EINVAL, s)
  else
    match buff with
    | none => some (-EINVAL, s)
    | some buff => do
      let (_, currMinor) ← findMinor s minor
      match currMinor with
      | none => return (-EINVAL, s)
      | some currMinor =>
        let node ← Heap.load s.minorHeap currMinor
        match node.curr with
        | none => return (-EINVAL, s)
        | some curr =>
          let channel ← Heap.load s.channelHeap curr
          let (i, message) ← getLoop buff len (BUFFER_LENGTH + 1) 0 channel.message
          let channelHeap ← Heap.modify s.channelHeap curr fun c =>
            { c with message := message, length := i.setWidth 32 }
          return (i.toInt, { s with channelHeap })

/-- The copy loop of `deviceRead`, from index `i` on; `delivered` is what `put_user` has
stored into the caller's buffer. -/
def putLoop (message : Vector UInt8 BUFFER_LENGTH) (len : BitVec 64) :
    Nat → BitVec 64 → List UInt8 → Option (BitVec 64 × List UInt8)
  | 0, _, _ => none
  | fuel + 1, i, delivered =>
    if i.ult len ∧ i.slt (BitVec.ofNat 64 BUFFER_LENGTH) then
      if h : i.toNat < BUFFER_LENGTH then
        putLoop message len fuel (i + 1) (delivered ++ [message[i.toNat]])
      else none
    else some (i, delivered)

/-- The return value and the bytes stored into the caller's buffer. -/
def deviceRead (minor : BitVec 32) (len : BitVec 64) (s : State) : Option (Int × List UInt8) := do
  let (_, currMinor) ← findMinor s minor
  match currMinor with
  | none => return (-EINVAL, [])
  | some currMinor =>
    let node ← Heap.load s.minorHeap currMinor
    match node.curr with
    | none => return (-EINVAL, [])
    | some curr =>
      let channel ← Heap.load s.channelHeap curr
      if channel.length = 0 then return (-EWOULDBLOCK, [])
      else if len.ult (channel.length.signExtend 64) then return (-ENOSPC, [])
      else
        let (i, delivered) ← putLoop channel.message len (BUFFER_LENGTH + 1) 0 []
        return (i.toInt, delivered)

/-- `curr->curr != NULL && curr->curr->id == ioctl_param`. -/
def isSelected (s : State) (node : MinorList) (ioctl_param : BitVec 64) : Option Bool :=
  match node.curr with
  | none => some false
  | some curr => (Heap.load s.channelHeap curr).map fun c => c.hasId ioctl_param

/-- The end of `deviceIoctl`: initialise the node that was allocated and stored in `curr`. Only
an empty list gets the new node as its head. -/
def initChannel (ioctl_param : BitVec 64) (currMinor : Nat) (channels : Ptr) (new : Nat)
    (s : State) : Option (Int × State) := do
  let channelHeap ← Heap.modify s.channelHeap new fun c => { c with next := channels }
  let (channelHeap, minorHeap) ←
    match channels with
    | some first => do
      let channelHeap ← Heap.modify channelHeap first fun c => { c with prev := some new }
      pure (channelHeap, s.minorHeap)
    | none => do
      let minorHeap ← Heap.modify s.minorHeap currMinor fun m => { m with channels := some new }
      pure (channelHeap, minorHeap)
  let channelHeap ← Heap.modify channelHeap new fun c =>
    { c with prev := none, id := ioctl_param.setWidth 32, length := 0 }
  return (SUCCESS, { s with minorHeap, channelHeap })

/-- The part of `deviceIoctl` behind its check of the selected channel: search for the channel
and create one if needed. -/
def selectChannel (kmalloc : Option Channel) (ioctl_param : BitVec 64) (curr : Nat)
    (node : MinorList) (s : State) : Option (Int × State) := do
  let (_, wanted) ← Heap.search (·.hasId ioctl_param) Channel.next s.channelHeap node.channels
  match wanted with
  | some wanted =>
    let minorHeap ← Heap.modify s.minorHeap curr fun m => { m with curr := some wanted }
    return (SUCCESS, { s with minorHeap })
  | none =>
    let (new, channelHeap) := Heap.kmalloc s.channelHeap kmalloc
    let minorHeap ← Heap.modify s.minorHeap curr fun m => { m with curr := new }
    match new with
    | none => return (-ENOMEM, { s with minorHeap, channelHeap })
    | some new => initChannel ioctl_param curr node.channels new { s with minorHeap, channelHeap }

def deviceIoctl (kmalloc : Option Channel) (minor : BitVec 32) (ioctl_command_id : BitVec 32)
    (ioctl_param : BitVec 64) (s : State) : Option (Int × State) :=
  if MSG_SLOT_CHANNEL ≠ ioctl_command_id then some (-EINVAL, s)
  else do
    let (_, curr) ← findMinor s minor
    match curr with
    | none => return (-ENOENT, s)
    | some curr =>
      let node ← Heap.load s.minorHeap curr
      if ← isSelected s node ioctl_param then return (SUCCESS, s)
      else selectChannel kmalloc ioctl_param curr node s

/-! ## Runs -/

/-- A system call on a device file, with what `kmalloc` answers if it is asked. `buff` is the
byte found at each index of the caller's buffer, `none` for a `NULL` buffer. -/
inductive Call where
  | open (kmalloc : Option MinorList)
  | ioctl (kmalloc : Option Channel) (ioctl_command_id : BitVec 32) (ioctl_param : BitVec 64)
  | write (buff : Option (Nat → UInt8)) (len : BitVec 64)
  | read (len : BitVec 64)

/-- What the caller gets: the return value and the bytes delivered to its buffer. -/
structure Outcome where
  ret : Int
  delivered : List UInt8
  deriving DecidableEq, Repr

/-- One system call on the device file with the given minor. -/
def call (minor : BitVec 32) (c : Call) (s : State) : Option (Outcome × State) :=
  match c with
  | .open kmalloc => (deviceOpen kmalloc minor s).map fun r => (⟨r.1, []⟩, r.2)
  | .ioctl kmalloc cmd param =>
    (deviceIoctl kmalloc minor cmd param s).map fun r => (⟨r.1, []⟩, r.2)
  | .write buff len => (deviceWrite minor buff len s).map fun r => (⟨r.1, []⟩, r.2)
  | .read len => (deviceRead minor len s).map fun r => (⟨r.1, r.2⟩, s)

/-- A call of a run, with the minor it is made on. -/
abbrev MinorCall := BitVec 32 × Call

/-- Run a list of calls: the calls with their outcomes, and the state at the end. -/
def run : List MinorCall → State → Option (List (MinorCall × Outcome) × State)
  | [], s => some ([], s)
  | (minor, c) :: calls, s => do
    let (out, s) ← call minor c s
    let (trace, s) ← run calls s
    return (((minor, c), out) :: trace, s)

/-- The driver states that some run of calls leads to, whatever `kmalloc` answers. -/
def Reachable (s : State) : Prop :=
  ∃ calls trace, run calls .init = some (trace, s)

end OsHw.Hw3
