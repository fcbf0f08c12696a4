import OsHw.Lib.Conversions
import OsHw.Lib.Logged
import OsHw.Hw3.Refinement

/-!
# OsHw — the copy loops of the message slot driver

`deviceWrite` and `deviceRead` index two buffers with an `ssize_t`, under bounds that are an `int`
and a `size_t`. Here they are written once more, each comparison between the types that it has in
`message_slot.c`, and with a log.

* **`Access`** — a comparison, or an index into `message` or into the caller's buffer.
* **`deviceWriteLogged`**, **`deviceReadLogged`** — without the log they are `deviceWrite` and
  `deviceRead`.
* **`Sized`** — the lengths of all channels are those of a message; `create` and the write loop
  establish it.
* **`copies_in_bounds`** — in every reachable state no access is out of bounds, and every
  comparison has the mathematical result.
-/

namespace OsHw.Hw3

open Heap (Ptr load)
open Conversions (IntType Rel Comparison)

/-! ## The calls with a log -/

abbrev int : IntType := ⟨32, true⟩
abbrev size_t : IntType := ⟨64, false⟩
abbrev ssize_t : IntType := ⟨64, true⟩

/-- What the calls do with integers: they compare them, or index a buffer with them. -/
inductive Access where
  | compare (c : Comparison)
  | message (index : Int)
  | buffer (index : Int)

/-- A condition of the source. -/
def condition (rel : Rel) (left : IntType) (x : BitVec left.width) (right : IntType)
    (y : BitVec right.width) : Logged Access Bool :=
  .emit (.compare ⟨rel, left, x, right, y⟩) (⟨rel, left, x, right, y⟩ : Comparison).result

/-- `i < len && i < n`, the condition of both copy loops. -/
def inRange (i len : BitVec 64) (n : BitVec 32) : Logged Access Bool :=
  condition .lt ssize_t i size_t len <&&> condition .lt ssize_t i int n

/-- The search with which both calls begin: it goes on with the channel selected on the minor, and
with its address. -/
def withSelected {β : Type} (minor : BitVec 32) (s : State) (einval : β)
    (use : Nat → Channel → Logged Access β) : Logged Access β := do
  let (_, currMinor) ← .ofOption (findMinor s minor)
  match currMinor with
  | none => return einval
  | some currMinor =>
    let node ← .ofOption (load s.minorHeap currMinor)
    match node.curr with
    | none => return einval
    | some curr =>
      let channel ← .ofOption (load s.channelHeap curr)
      use curr channel

/-- Both copy loops, from index `i` on. A round `copy`s the byte at the index from one buffer to the
other one. -/
def copyLoopLogged {β : Type} (len : BitVec 64) (bound : Nat)
    (copy : (i : Nat) → i < BUFFER_LENGTH → β → β) :
    Nat → BitVec 64 → β → Logged Access (BitVec 64 × β)
  | 0, _, _ => .ofOption none
  | fuel + 1, i, copied => do
    if ← inRange i len (BitVec.ofNat 32 bound) then
      Logged.emit (.message i.toInt) ()
      Logged.emit (.buffer i.toInt) ()
      if h : i.toNat < BUFFER_LENGTH then
        copyLoopLogged len bound copy fuel (i + 1) (copy i.toNat h copied)
      else .ofOption none
    else return (i, copied)

/-- The copy loop of `deviceWrite`. -/
def getLoopLogged (buff : Nat → UInt8) (len : BitVec 64) :
    Nat → BitVec 64 → Vector UInt8 BUFFER_LENGTH →
      Logged Access (BitVec 64 × Vector UInt8 BUFFER_LENGTH) :=
  copyLoopLogged len (BUFFER_LENGTH - 1) fun i h message => message.set i (buff i) h

/-- The copy loop of `deviceRead`. -/
def putLoopLogged (message : Vector UInt8 BUFFER_LENGTH) (len : BitVec 64) :
    Nat → BitVec 64 → List UInt8 → Logged Access (BitVec 64 × List UInt8) :=
  copyLoopLogged len BUFFER_LENGTH fun i _ delivered => delivered ++ [message[i]]

def deviceWriteLogged (minor : BitVec 32) (buff : Option (Nat → UInt8)) (len : BitVec 64)
    (s : State) : Logged Access (Int × State) := do
  if ← condition .gt size_t len int 128 <||> condition .le size_t len int 0 then
    return (-EINVAL, s)
  else
    match buff with
    | none => return (-EINVAL, s)
    | some buff => withSelected minor s (-EINVAL, s) fun curr channel => do
      let (i, message) ← getLoopLogged buff len (BUFFER_LENGTH + 1) 0 channel.message
      let channelHeap ← .ofOption (Heap.modify s.channelHeap curr fun c =>
        { c with message := message, length := i.setWidth 32 })
      return (i.toInt, { s with channelHeap })

def deviceReadLogged (minor : BitVec 32) (len : BitVec 64) (s : State) :
    Logged Access (Int × List UInt8) :=
  withSelected minor s (-EINVAL, []) fun _ channel => do
    if ← condition .eq int channel.length int 0 then return (-EWOULDBLOCK, [])
    else if ← condition .lt size_t len int channel.length then return (-ENOSPC, [])
    else
      let (i, delivered) ← putLoopLogged channel.message len (BUFFER_LENGTH + 1) 0 []
      return (i.toInt, delivered)

/-! ## Without the log -/

section Results

variable {i len : BitVec 64} {length : BitVec 32}

@[simp] theorem condition_result (rel : Rel) (left : IntType) (x : BitVec left.width)
    (right : IntType) (y : BitVec right.width) : (condition rel left x right y).result =
      some (⟨rel, left, x, right, y⟩ : Comparison).result := rfl

/-- An `ssize_t` is converted to compare it with a `size_t`. -/
theorem result_lt_len : (⟨.lt, ssize_t, i, size_t, len⟩ : Comparison).result = i.ult len := by
  simp [Comparison.result, IntType.common, IntType.convert, IntType.value, Rel.holds,
    BitVec.ult_eq_decide]

/-- An `int` is widened to compare it with an `ssize_t`. -/
theorem result_lt_bound (n : BitVec 32) :
    (⟨.lt, ssize_t, i, int, n⟩ : Comparison).result = i.slt (n.signExtend 64) := by
  simp [Comparison.result, IntType.common, IntType.convert, IntType.value, Rel.holds,
    BitVec.slt_eq_decide, BitVec.signExtend]

theorem inRange_result (n : BitVec 32) :
    (inRange i len n).result = some (i.ult len && i.slt (n.signExtend 64)) := by
  rw [inRange, Logged.result_and, condition_result, condition_result, result_lt_len,
    result_lt_bound]
  cases i.ult len <;> rfl

/-- A loop that makes the same rounds has the same result. Induction on the fuel. -/
theorem copyLoopLogged_result {β : Type} {bound : Nat}
    {copy : (i : Nat) → i < BUFFER_LENGTH → β → β}
    {loop : Nat → BitVec 64 → β → Option (BitVec 64 × β)}
    (hbound : (BitVec.ofNat 32 bound).signExtend 64 = BitVec.ofNat 64 bound)
    (hzero : ∀ i copied, loop 0 i copied = none)
    (hsucc : ∀ fuel i copied, loop (fuel + 1) i copied =
      if i.ult len ∧ i.slt (BitVec.ofNat 64 bound) then
        if h : i.toNat < BUFFER_LENGTH then loop fuel (i + 1) (copy i.toNat h copied) else none
      else some (i, copied)) (fuel : Nat) (copied : β) :
    (copyLoopLogged len bound copy fuel i copied).result = loop fuel i copied := by
  induction fuel generalizing i copied with
  | zero =>
    rw [hzero]
    rfl
  | succ fuel ih =>
    rw [copyLoopLogged, hsucc, Logged.result_bind, inRange_result, hbound]
    simp only [Option.bind_eq_bind, Option.bind_some, Bool.and_eq_true, Logged.result_ite,
      Logged.result_bind, Logged.result_emit, Logged.result_pure]
    split
    · split
      · exact ih _
      · rfl
    · rfl

theorem getLoopLogged_result (buff : Nat → UInt8) (fuel : Nat)
    (message : Vector UInt8 BUFFER_LENGTH) :
    (getLoopLogged buff len fuel i message).result = getLoop buff len fuel i message :=
  copyLoopLogged_result (by decide) (fun _ _ => rfl) (fun _ _ _ => rfl) fuel message

theorem putLoopLogged_result (message : Vector UInt8 BUFFER_LENGTH) (fuel : Nat)
    (delivered : List UInt8) :
    (putLoopLogged message len fuel i delivered).result =
      putLoop message len fuel i delivered :=
  copyLoopLogged_result (by decide) (fun _ _ => rfl) (fun _ _ _ => rfl) fuel delivered

/-- A `size_t` is compared with an `int` constant. -/
theorem rejected_result :
    (condition .gt size_t len int 128 <||> condition .le size_t len int 0).result =
      some ((128 : BitVec 64).ult len || len.ule 0) := by
  have hgt : (⟨.gt, size_t, len, int, 128⟩ : Comparison).result = (128 : BitVec 64).ult len := by
    simp [Comparison.result, IntType.common, IntType.convert, IntType.value, Rel.holds,
      BitVec.ult_eq_decide]
  have hle : (⟨.le, size_t, len, int, 0⟩ : Comparison).result = len.ule 0 := by
    simp [Comparison.result, IntType.common, IntType.convert, IntType.value, Rel.holds,
      BitVec.ule_eq_decide]
  rw [Logged.result_or, condition_result, condition_result, hgt, hle]
  cases (128 : BitVec 64).ult len <;> rfl

theorem result_eq_zero :
    (⟨.eq, int, length, int, 0⟩ : Comparison).result = decide (length = 0) := by
  have hzero : length.toInt = 0 ↔ length = 0 := by
    rw [← BitVec.toInt_inj]
    exact Iff.rfl
  simp [Comparison.result, IntType.common, IntType.convert, IntType.value, Rel.holds, hzero]

/-- An `int` is converted to compare a `size_t` with it. -/
theorem result_lt_length : (⟨.lt, size_t, len, int, length⟩ : Comparison).result =
    len.ult (length.signExtend 64) := by
  simp [Comparison.result, IntType.common, IntType.convert, IntType.value, Rel.holds,
    BitVec.ult_eq_decide, BitVec.signExtend]

theorem withSelected_result {β : Type} {minor : BitVec 32} {s : State} {einval : β}
    {use : Nat → Channel → Logged Access β} {use' : Nat → Channel → Option β}
    (huse : ∀ curr channel, (use curr channel).result = use' curr channel) :
    (withSelected minor s einval use).result = (do
      let (_, currMinor) ← findMinor s minor
      match currMinor with
      | none => return einval
      | some currMinor =>
        let node ← load s.minorHeap currMinor
        match node.curr with
        | none => return einval
        | some curr =>
          let channel ← load s.channelHeap curr
          use' curr channel) := by
  unfold withSelected
  simp only [Logged.result_bind, Logged.result_ofOption]
  refine congrArg _ (funext fun found => ?_)
  obtain ⟨prev, currMinor⟩ := found
  cases currMinor with
  | none => rfl
  | some currMinor =>
    simp only [Logged.result_bind, Logged.result_ofOption]
    refine congrArg _ (funext fun node => ?_)
    cases node.curr with
    | none => rfl
    | some curr =>
      simp only [Logged.result_bind, Logged.result_ofOption]
      exact congrArg _ (funext fun channel => huse curr channel)

theorem deviceWriteLogged_result (minor : BitVec 32) (buff : Option (Nat → UInt8))
    (len : BitVec 64) (s : State) :
    (deviceWriteLogged minor buff len s).result = deviceWrite minor buff len s := by
  unfold deviceWriteLogged deviceWrite
  rw [Logged.result_bind, rejected_result]
  simp only [Option.bind_eq_bind, Option.bind_some, Bool.or_eq_true, Logged.result_ite,
    Logged.result_pure]
  split
  · rfl
  · cases buff with
    | none => rfl
    | some buff =>
      refine withSelected_result fun curr channel => ?_
      simp only [Logged.result_bind, Logged.result_ofOption, Logged.result_pure,
        getLoopLogged_result]
      rfl

theorem deviceReadLogged_result (minor : BitVec 32) (len : BitVec 64) (s : State) :
    (deviceReadLogged minor len s).result = deviceRead minor len s := by
  unfold deviceReadLogged deviceRead
  refine withSelected_result fun curr channel => ?_
  simp only [Logged.result_bind, Logged.result_ite, Logged.result_pure, condition_result,
    result_eq_zero, result_lt_length, Option.bind_eq_bind, Option.bind_some,
    decide_eq_true_eq, putLoopLogged_result]
  rfl

end Results

/-! ## The bounds -/

/-- A comparison has the mathematical result, and an index is below the length of its buffer. -/
def Access.InBounds (len : BitVec 64) : Access → Prop
  | .compare c => c.result = c.meant
  | .message index => 0 ≤ index ∧ index < BUFFER_LENGTH
  | .buffer index => 0 ≤ index ∧ index < len.toNat

section Bounds

variable {i len : BitVec 64} {n : Nat}

theorem condition_inBounds {rel : Rel} {left : IntType} {x : BitVec left.width}
    {right : IntType} {y : BitVec right.width} (hx : 0 ≤ left.value x) (hy : 0 ≤ right.value y) :
    (condition rel left x right y).All (Access.InBounds len) := by
  have hexact : Access.InBounds len (.compare ⟨rel, left, x, right, y⟩) :=
    Comparison.result_eq_meant hx hy
  exact .emit hexact _

theorem size_t_nonneg (x : BitVec 64) : 0 ≤ size_t.value x := Int.natCast_nonneg _

/-- An index up to the end of `message` is the same number in every type. -/
theorem toInt_index (hi : i.toNat ≤ BUFFER_LENGTH) : i.toInt = i.toNat := by
  have hB : BUFFER_LENGTH = 129 := rfl
  exact BitVec.toInt_eq_toNat_of_lt (by omega)

theorem toInt_bound (hn : n ≤ BUFFER_LENGTH) : (BitVec.ofNat 32 n).toInt = n := by
  have hB : BUFFER_LENGTH = 129 := rfl
  have hnat : (BitVec.ofNat 32 n).toNat = n := by
    rw [BitVec.toNat_ofNat]
    omega
  rw [BitVec.toInt_eq_toNat_of_lt (by omega), hnat]

theorem inRange_inBounds (hi : i.toNat ≤ BUFFER_LENGTH) (hn : n ≤ BUFFER_LENGTH) :
    (inRange i len (BitVec.ofNat 32 n)).All (Access.InBounds len) := by
  have hindex : 0 ≤ ssize_t.value i := by
    show 0 ≤ i.toInt
    rw [toInt_index hi]
    exact Int.natCast_nonneg _
  have hbound : 0 ≤ int.value (BitVec.ofNat 32 n) := by
    show 0 ≤ (BitVec.ofNat 32 n).toInt
    rw [toInt_bound hn]
    exact Int.natCast_nonneg _
  exact .and (condition_inBounds hindex (size_t_nonneg len)) fun _ =>
    condition_inBounds hindex hbound

/-- Where the loops go on, the index is in bounds for both buffers. -/
theorem index_inBounds (hi : i.toNat ≤ BUFFER_LENGTH) (hn : n ≤ BUFFER_LENGTH)
    (hmore : (inRange i len (BitVec.ofNat 32 n)).result = some true) :
    i.toNat < BUFFER_LENGTH ∧ (Access.message i.toInt).InBounds len ∧
      (Access.buffer i.toInt).InBounds len := by
  have hbound : (BitVec.ofNat 32 n).signExtend 64 = BitVec.ofNat 64 n := by
    rw [BitVec.signExtend, toInt_bound hn, BitVec.ofInt_natCast]
  rw [inRange_result, hbound, Option.some.injEq, Bool.and_eq_true, slt_bound hi hn,
    BitVec.ult_iff_lt, BitVec.lt_def] at hmore
  obtain ⟨hlen, hlt⟩ := hmore
  have hindex : i.toNat < BUFFER_LENGTH := Nat.lt_of_lt_of_le hlt hn
  unfold Access.InBounds
  rw [toInt_index hi]
  exact ⟨hindex, ⟨Int.natCast_nonneg _, Int.ofNat_lt.mpr hindex⟩,
    Int.natCast_nonneg _, Int.ofNat_lt.mpr hlen⟩

/-- **A copy loop** whose bound is that of `message` stays in bounds, for every `len`. Induction on
the fuel. -/
theorem copyLoopLogged_inBounds {β : Type} (copy : (i : Nat) → i < BUFFER_LENGTH → β → β)
    (fuel : Nat) (copied : β) (hi : i.toNat ≤ BUFFER_LENGTH) (hn : n ≤ BUFFER_LENGTH) :
    (copyLoopLogged len n copy fuel i copied).All (Access.InBounds len) := by
  induction fuel generalizing i copied with
  | zero => exact .ofOption none
  | succ fuel ih =>
    rw [copyLoopLogged]
    refine .bind (inRange_inBounds hi hn) fun more hmore => ?_
    cases more with
    | false => exact .pure _
    | true =>
      obtain ⟨hlt, hmessage, hbuffer⟩ := index_inBounds hi hn hmore
      have hsucc := toNat_succ hlt
      simp only [if_true, dif_pos hlt]
      refine .bind (.emit hmessage ()) fun _ _ => .bind (.emit hbuffer ()) fun _ _ => ?_
      exact ih _ (by omega)

end Bounds

/-! ## The lengths -/

/-- The channel has the length of a message. -/
def Channel.Sized (c : Channel) : Prop := 0 ≤ c.length.toInt ∧ c.length.toInt ≤ 128

/-- All channels have, on a list or not. -/
def Sized (s : State) : Prop := Heap.Every Channel.Sized s.channelHeap

theorem Channel.sized_created (p : BitVec 64) (next : Ptr) (memory : Channel) :
    (memory.created p next).Sized :=
  show 0 ≤ (0 : BitVec 32).toInt ∧ (0 : BitVec 32).toInt ≤ 128 by decide

theorem Channel.sized_put (c : Channel) (buff : Nat → UInt8) {n : Nat} (hn : n ≤ 128) :
    (c.mapData (·.put buff n)).Sized := by
  have hB : BUFFER_LENGTH = 129 := rfl
  show 0 ≤ (BitVec.ofNat 32 n).toInt ∧ (BitVec.ofNat 32 n).toInt ≤ 128
  rw [toInt_bound (by omega)]
  omega

theorem Sized.init : Sized .init := by
  intro a c ha
  rw [State.init, load, List.getElem?_nil] at ha
  cases ha

/-- **One call.** A new channel has length 0, whatever its memory held before. -/
theorem Sized.next {s s' : State} {nodes : List (Nat × MinorList)} {m : BitVec 32} {c : Call}
    {out : Outcome} (hs : Layout s nodes) (h : Sized s) (hcall : call m c s = some (out, s')) :
    Sized s' := by
  have heffect := effect_of_call hs hcall
  cases heffect with
  | read | unopened | refused | kept | selected | dropped => exact h
  | opened kmalloc hopened =>
    unfold Sized
    rw [hopened.channelHeap]
    exact h
  | wrote hsplit hm hcurr hb hlen => exact Heap.Every.set h (Channel.sized_put _ _ hlen.2)
  | first memory hsplit hm hchannels hmiss => exact Heap.Every.append h (memory.sized_created _ _)
  | @further pre post a f n d p memory hsplit hm hchannels hf hmiss =>
    have hfirst : Channel.Sized { d with prev := some s.channelHeap.length } := h f d hf
    exact (Heap.Every.set h hfirst).append (memory.sized_created _ _)

/-! ## The calls -/

theorem withSelected_inBounds {β : Type} {minor : BitVec 32} {s : State} {einval : β}
    {use : Nat → Channel → Logged Access β} {len : BitVec 64}
    (huse : ∀ curr channel, load s.channelHeap curr = some channel →
      (use curr channel).All (Access.InBounds len)) :
    (withSelected minor s einval use).All (Access.InBounds len) := by
  unfold withSelected
  refine .bind (.ofOption _) fun ⟨prev, currMinor⟩ _ => ?_
  cases currMinor with
  | none => exact .pure _
  | some currMinor =>
    refine .bind (.ofOption _) fun node _ => ?_
    cases node.curr with
    | none => exact .pure _
    | some curr => exact .bind (.ofOption _) fun channel hchannel => huse curr channel hchannel

theorem deviceWriteLogged_inBounds (minor : BitVec 32) (buff : Option (Nat → UInt8))
    (len : BitVec 64) (s : State) :
    (deviceWriteLogged minor buff len s).All (Access.InBounds len) := by
  unfold deviceWriteLogged
  have hrejected : (condition .gt size_t len int 128 <||> condition .le size_t len int 0).All
      (Access.InBounds len) :=
    .or (condition_inBounds (size_t_nonneg len) (by decide)) fun _ =>
      condition_inBounds (size_t_nonneg len) (by decide)
  refine .bind hrejected fun rejected _ => ?_
  cases rejected with
  | true => exact .pure _
  | false =>
    cases buff with
    | none => exact .pure _
    | some buff =>
      refine withSelected_inBounds fun curr channel _ => ?_
      refine .bind (copyLoopLogged_inBounds _ _ _ (by simp) (Nat.sub_le _ _)) fun _ _ => ?_
      exact .bind (.ofOption _) fun _ _ => .pure _

theorem deviceReadLogged_inBounds {s : State} (hs : Sized s) (minor : BitVec 32)
    (len : BitVec 64) : (deviceReadLogged minor len s).All (Access.InBounds len) := by
  unfold deviceReadLogged
  refine withSelected_inBounds fun curr channel hchannel => ?_
  -- the length is not negative, so it survives the conversion to `size_t`
  have hlength : 0 ≤ int.value channel.length := (hs curr channel hchannel).1
  refine .bind (condition_inBounds hlength (by decide)) fun empty _ => ?_
  cases empty with
  | true => exact .pure _
  | false =>
    refine .bind (condition_inBounds (size_t_nonneg len) hlength) fun short _ => ?_
    cases short with
    | true => exact .pure _
    | false =>
      exact .bind (copyLoopLogged_inBounds _ _ _ (by simp) (Nat.le_refl _)) fun _ _ => .pure _

/-- A write is refused and changes nothing, or it stores `len` bytes in the selected channel. -/
theorem deviceWrite_cases {s : State} {nodes : List (Nat × MinorList)} (h : Layout s nodes)
    (minor : BitVec 32) (buff : Option (Nat → UInt8)) (len : BitVec 64) :
    deviceWrite minor buff len s = some (-EINVAL, s) ∨
      ∃ bytes b c, buff = some bytes ∧ s.curr minor = some b ∧ load s.channelHeap b = some c ∧
        deviceWrite minor buff len s = some ((len.toNat : Int), { s with
          channelHeap := s.channelHeap.set b (some (c.mapData (·.put bytes len.toNat))) }) := by
  obtain ⟨s', hwrite, -, heffect⟩ := deviceWrite_effect h buff len minor
  rw [hwrite]
  have hret : ((s.slot minor).deviceWrite buff len).1 = -EINVAL ∨
      0 ≤ ((s.slot minor).deviceWrite buff len).1 := by
    unfold Slot.deviceWrite
    split
    · exact .inl rfl
    · split
      · exact .inr (Int.natCast_nonneg _)
      · exact .inl rfl
  generalize ((s.slot minor).deviceWrite buff len).1 = ret at hret heffect ⊢
  cases heffect with
  | refused buff len hneg =>
    left
    rw [hret.resolve_right (not_le.mpr hneg)]
  | @wrote pre post a b n c bytes len hsplit hm hcurr hb hlen =>
    subst hm
    have hselected : s.curr n.minor = some b := (h.curr_found hsplit).trans hcurr
    exact .inr ⟨bytes, b, c, rfl, hselected, hb, rfl⟩

/-- **The copy loops stay in bounds.** In every reachable state all channels have a length from 0
to 128, on a list or selected or on neither. For every `len` of 64 bits, in `write` as in `read`,
every index into `message` is below `BUFFER_LENGTH` and every index into the caller's buffer below
`len`, and every comparison of a length or an index, whatever the types of its sides, has the
mathematical result. A `write` returns `-EINVAL` and stores nothing, or it stores `len` bytes and
returns `len`; a `read` has a result as well. -/
theorem copies_in_bounds {s : State} (hs : Reachable s) :
    (∀ a c, load s.channelHeap a = some c → 0 ≤ c.length.toInt ∧ c.length.toInt ≤ 128) ∧
      (∀ minor buff len,
        (deviceWriteLogged minor buff len s).result = deviceWrite minor buff len s ∧
        (∀ access ∈ (deviceWriteLogged minor buff len s).events, access.InBounds len) ∧
        (deviceWrite minor buff len s = some (-EINVAL, s) ∨
          ∃ bytes b c, buff = some bytes ∧ s.curr minor = some b ∧
            load s.channelHeap b = some c ∧
            deviceWrite minor buff len s = some ((len.toNat : Int), { s with
              channelHeap :=
                s.channelHeap.set b (some (c.mapData (·.put bytes len.toNat))) }))) ∧
      ∀ minor len, (deviceReadLogged minor len s).result = deviceRead minor len s ∧
        (∀ access ∈ (deviceReadLogged minor len s).events, access.InBounds len) ∧
        (deviceRead minor len s).isSome = true := by
  obtain ⟨nodes, h⟩ := hs.layout
  have hsized : Sized s := hs.invariant Sized.init Sized.next
  refine ⟨hsized, fun minor buff len => ?_, fun minor len => ?_⟩
  · exact ⟨deviceWriteLogged_result minor buff len s, deviceWriteLogged_inBounds minor buff len s,
      deviceWrite_cases h minor buff len⟩
  · refine ⟨deviceReadLogged_result minor len s, deviceReadLogged_inBounds hsized minor len, ?_⟩
    rw [deviceRead_eq h]
    rfl

/-- A channel that was created in memory whose `length` reads -1, with two bytes stored in it: a
`read` with the largest `len` copies all of `message`. -/
theorem copies_in_bounds_created : ∃ s, Reachable s ∧
    (deviceRead 0 (-1) s).map (fun r => r.1) = some 129 ∧
    ∀ access ∈ (deviceReadLogged 0 (-1) s).events, access.InBounds (-1) := by
  have hreach : Reachable _ := ⟨[(0, .open (some ⟨9, some 9, some 9, some 9, some 9⟩)),
    (0, .ioctl (some ⟨⟨9, Vector.replicate BUFFER_LENGTH 9, -1⟩, some 9, some 9⟩)
      MSG_SLOT_CHANNEL 7),
    (0, .write (some fun _ => 97) 2)], _, rfl⟩
  exact ⟨_, hreach, by decide, ((copies_in_bounds hreach).2.2 0 (-1)).2.1⟩

end OsHw.Hw3
