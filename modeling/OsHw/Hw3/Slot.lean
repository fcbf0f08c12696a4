import OsHw.Hw3.Driver

/-!
# OsHw — what the message slot driver does to one minor

The driver seen from a single minor, without heaps, addresses and the list of minors: a
`Slot`. The list of channels of a minor never has more than one channel in it: `deviceIoctl`
makes a new channel the head of an empty list only, and of a longer one nothing points to the
new node but `curr`. So a minor with channels has a first channel, which stays, and a
selection: nothing, the first channel, or a channel that is on no list and is lost with the
next selection.

* **`Slot.step`** — one call on the minor.
* **`getLoop_eq`**, **`putLoop_eq`** — what the two copy loops compute.

`Hw3/Refinement.lean` proves that the driver behaves like one `Slot` for every minor.
-/

namespace OsHw.Hw3

inductive Selected where
  | nothing
  | first
  | unlisted (c : ChannelData)
  deriving DecidableEq

inductive Slot where
  | unopened
  /-- Opened, and no channel yet. -/
  | empty
  | started (first : ChannelData) (selected : Selected)
  deriving DecidableEq

/-! ## Channels -/

namespace ChannelData

/-- A channel just created: the message is what the memory held before. -/
def create (ioctl_param : BitVec 64) (memory : ChannelData) : ChannelData :=
  { memory with id := ioctl_param.setWidth 32, length := 0 }

/-- A message of `n` bytes is stored over the old one, whose further bytes stay behind it. -/
def put (buff : Nat → UInt8) (n : Nat) (c : ChannelData) : ChannelData :=
  { c with
    message := Vector.ofFn fun j => if j.val < n then buff j else c.message[j]
    length := BitVec.ofNat 32 n }

/-- The stored message: the first `length` bytes. -/
def contents (c : ChannelData) : List UInt8 := c.message.toList.take c.length.toNat

@[simp] theorem put_id (buff : Nat → UInt8) (n : Nat) (c : ChannelData) :
    (c.put buff n).id = c.id := by
  rw [put]

@[simp] theorem create_id (p : BitVec 64) (c : ChannelData) :
    (create p c).id = p.setWidth 32 := rfl

@[simp] theorem create_contents (p : BitVec 64) (c : ChannelData) :
    (create p c).contents = [] := by
  simp [create, contents]

theorem put_contents {n : Nat} (buff : Nat → UInt8) (c : ChannelData) (hn : n < BUFFER_LENGTH) :
    (c.put buff n).contents = (List.range n).map buff := by
  have hlen : (BitVec.ofNat 32 n).toNat = n := by
    rw [BitVec.toNat_ofNat, Nat.mod_eq_of_lt]
    exact lt_trans hn (by decide)
  apply List.ext_getElem
  · simp [contents, put, hlen]
    omega
  · intro i hi hi'
    simp only [List.length_map, List.length_range] at hi'
    simp [contents, put, hi']

/-- An `int` that is not negative keeps its value where it is converted to 64 bits. -/
theorem toNat_signExtend_of_lt {i : BitVec 32} (hi : i.toNat < 2 ^ 31) :
    (i.signExtend 64).toNat = i.toNat := by
  have hmsb : i.msb = false := by
    rw [BitVec.msb_eq_false_iff_two_mul_lt]
    omega
  rw [BitVec.signExtend_eq_setWidth_of_msb_false hmsb, BitVec.toNat_setWidth]
  omega

/-- So the comparison of a `len` with a length is one of the two numbers. -/
theorem ult_length_iff {len : BitVec 64} {c : ChannelData} (hsize : c.length.toNat ≤ 128) :
    len.ult (c.length.signExtend 64) = true ↔ len.toNat < c.length.toNat := by
  rw [BitVec.ult_iff_lt, BitVec.lt_def, toNat_signExtend_of_lt (by omega)]

/-- The number that a channel created for a number answers to: the number as an `int`, converted
back where it is compared. -/
def stored (ioctl_param : BitVec 64) : BitVec 64 := (ioctl_param.setWidth 32).signExtend 64

theorem stored_signExtend (i : BitVec 32) : stored (i.signExtend 64) = i.signExtend 64 := by
  have hround : (i.signExtend 64).setWidth 32 = i := by
    apply BitVec.eq_of_getLsbD_eq
    intro j hj
    have hj' : j < 64 := by omega
    rw [BitVec.getLsbD_setWidth, BitVec.getLsbD_signExtend, if_pos hj]
    simp [hj, hj']
  rw [stored, hround]

/-- Numbers that fit in a positive `int` come back as they were. -/
theorem stored_of_lt {p : BitVec 64} (hp : p.toNat < 2 ^ 31) : stored p = p := by
  have hsame : (p.setWidth 32).toNat = p.toNat := by
    rw [BitVec.toNat_setWidth]
    omega
  apply BitVec.eq_of_toNat_eq
  rw [stored, toNat_signExtend_of_lt (by omega), hsame]

/-- A channel is found under the number it was created with, and under no other one, as long
as that number fits in an `int`. -/
theorem hasId_iff {c : ChannelData} {p q : BitVec 64} (hp : p.toNat < 2 ^ 31)
    (hid : c.id = p.setWidth 32) : c.hasId q = true ↔ p = q := by
  have hround : (p.setWidth 32).signExtend 64 = p := stored_of_lt hp
  rw [hasId, hid, hround, beq_iff_eq]

end ChannelData

/-! ## One call on the minor -/

namespace Slot

/-- The selected channel. -/
def selected : Slot → Option ChannelData
  | .started first .first => some first
  | .started _ (.unlisted c) => some c
  | _ => none

/-- Change the selected channel. -/
def modify (f : ChannelData → ChannelData) : Slot → Slot
  | .started first .first => .started (f first) .first
  | .started first (.unlisted c) => .started first (.unlisted (f c))
  | s => s

def deviceOpen (kmalloc : Option MinorList) (s : Slot) : Int × Slot :=
  match s, kmalloc with
  | .unopened, none => (-ENOMEM, .unopened)
  | .unopened, some _ => (SUCCESS, .empty)
  | s, _ => (SUCCESS, s)

/-- The search for a channel among those of the minor, and its creation. -/
def selectChannel (kmalloc : Option Channel) (ioctl_param : BitVec 64) (s : Slot) : Int × Slot :=
  match s, kmalloc with
  | .unopened, _ => (-ENOENT, s)
  | .empty, none => (-ENOMEM, .empty)
  | .empty, some memory =>
    (SUCCESS, .started (.create ioctl_param memory.toChannelData) .first)
  | .started first _, kmalloc =>
    if first.hasId ioctl_param then (SUCCESS, .started first .first)
    else
      match kmalloc with
      | none => (-ENOMEM, .started first .nothing)
      | some memory =>
        (SUCCESS, .started first (.unlisted (.create ioctl_param memory.toChannelData)))

def deviceIoctl (kmalloc : Option Channel) (ioctl_command_id : BitVec 32) (ioctl_param : BitVec 64)
    (s : Slot) : Int × Slot :=
  if MSG_SLOT_CHANNEL ≠ ioctl_command_id then (-EINVAL, s)
  else if s.selected.any (·.hasId ioctl_param) then (SUCCESS, s)
  else s.selectChannel kmalloc ioctl_param

theorem deviceIoctl_eq (kmalloc : Option Channel) (p : BitVec 64) (s : Slot) :
    s.deviceIoctl kmalloc MSG_SLOT_CHANNEL p =
      if s.selected.any (·.hasId p) then (SUCCESS, s) else s.selectChannel kmalloc p :=
  if_neg fun hne => hne rfl

def deviceWrite (buff : Option (Nat → UInt8)) (len : BitVec 64) (s : Slot) : Int × Slot :=
  match buff with
  | none => (-EINVAL, s)
  | some buff =>
    if 1 ≤ len.toNat ∧ len.toNat ≤ 128 ∧ s.selected.isSome then
      (len.toNat, s.modify (·.put buff len.toNat))
    else (-EINVAL, s)

def deviceRead (len : BitVec 64) (s : Slot) : Int × List UInt8 :=
  match s.selected with
  | none => (-EINVAL, [])
  | some c =>
    if c.length = 0 then (-EWOULDBLOCK, [])
    else if len.ult (c.length.signExtend 64) then (-ENOSPC, [])
    else ((min len.toNat BUFFER_LENGTH : Nat), c.message.toList.take len.toNat)

/-- A read that succeeds delivers the message, whatever it delivers behind it. -/
theorem deviceRead_contents {len : BitVec 64} {s : Slot} (hok : 0 ≤ (s.deviceRead len).1) :
    ∃ c, s.selected = some c ∧ (s.deviceRead len).2.take c.length.toNat = c.contents := by
  unfold deviceRead at hok ⊢
  cases hsel : s.selected with
  | none =>
    rw [hsel] at hok
    exact absurd hok (show ¬ (0 : Int) ≤ -EINVAL by decide)
  | some c =>
    rw [hsel] at hok
    refine ⟨c, rfl, ?_⟩
    by_cases hempty : c.length = 0
    · simp only [if_pos hempty] at hok
      exact absurd hok (by decide)
    · by_cases hshort : len.ult (c.length.signExtend 64) = true
      · simp only [if_neg hempty, if_pos hshort] at hok
        exact absurd hok (by decide)
      · simp only [if_neg hempty, if_neg hshort, ChannelData.contents]
        have hlong : c.length.toNat ≤ len.toNat := by
          rw [BitVec.ult_iff_lt, BitVec.lt_def, BitVec.toNat_signExtend, BitVec.toNat_setWidth]
            at hshort
          have hlt := c.length.isLt
          omega
        rw [List.take_take, min_eq_left hlong]

/-- A failed selection of a channel leaves none selected. -/
theorem deviceIoctl_selected_none {kmalloc : Option Channel} {p : BitVec 64} {s : Slot}
    (hfail : (s.deviceIoctl kmalloc MSG_SLOT_CHANNEL p).1 ≠ SUCCESS) :
    (s.deviceIoctl kmalloc MSG_SLOT_CHANNEL p).2.selected = none := by
  rw [deviceIoctl_eq] at hfail ⊢
  split at hfail
  · exact absurd rfl hfail
  · rename_i hsel
    rw [if_neg hsel]
    cases s with
    | unopened => rfl
    | empty =>
      cases kmalloc with
      | none => rfl
      | some memory => exact absurd rfl hfail
    | started first selected =>
      unfold selectChannel at hfail ⊢
      by_cases hid : first.hasId p = true
      · simp only [if_pos hid] at hfail
        exact absurd rfl hfail
      · simp only [if_neg hid] at hfail ⊢
        cases kmalloc with
        | none => rfl
        | some memory => exact absurd rfl hfail

/-- A successful selection selects a channel that answers to the number as it is stored. -/
theorem deviceIoctl_stored {kmalloc : Option Channel} {p : BitVec 64} {s : Slot}
    (hok : (s.deviceIoctl kmalloc MSG_SLOT_CHANNEL p).1 = SUCCESS) :
    ∃ c, (s.deviceIoctl kmalloc MSG_SLOT_CHANNEL p).2.selected = some c ∧
      c.id.signExtend 64 = ChannelData.stored p := by
  have hold : ∀ c : ChannelData, c.hasId p = true → c.id.signExtend 64 = ChannelData.stored p := by
    intro c hid
    rw [← eq_of_beq hid, ChannelData.stored_signExtend]
  rw [deviceIoctl_eq] at hok ⊢
  split at hok
  -- it was selected already
  · rename_i hsel
    rw [if_pos hsel]
    obtain ⟨c, hc, hid⟩ := (Option.any_eq_true _ _).mp hsel
    exact ⟨c, hc, hold c hid⟩
  · rename_i hsel
    rw [if_neg hsel]
    cases s with
    | unopened => exact absurd hok (show -ENOENT ≠ SUCCESS by decide)
    | empty =>
      cases kmalloc with
      | none => exact absurd hok (show -ENOMEM ≠ SUCCESS by decide)
      | some memory => exact ⟨.create p memory.toChannelData, rfl, rfl⟩
    | started first selected =>
      unfold selectChannel at hok ⊢
      by_cases hid : first.hasId p = true
      · simp only [if_pos hid]
        exact ⟨first, rfl, hold first hid⟩
      · simp only [if_neg hid] at hok ⊢
        cases kmalloc with
        | none => exact absurd hok (show -ENOMEM ≠ SUCCESS by decide)
        | some memory => exact ⟨.create p memory.toChannelData, rfl, rfl⟩

def step (c : Call) (s : Slot) : Outcome × Slot :=
  match c with
  | .open kmalloc => (⟨(s.deviceOpen kmalloc).1, []⟩, (s.deviceOpen kmalloc).2)
  | .ioctl kmalloc cmd param =>
    (⟨(s.deviceIoctl kmalloc cmd param).1, []⟩, (s.deviceIoctl kmalloc cmd param).2)
  | .write buff len => (⟨(s.deviceWrite buff len).1, []⟩, (s.deviceWrite buff len).2)
  | .read len => (⟨(s.deviceRead len).1, (s.deviceRead len).2⟩, s)

end Slot

/-! ## The copy loops -/

section Loops

variable {i len : BitVec 64}

/-- The signed comparison of the index with a bound of the buffer. -/
theorem slt_bound {n : Nat} (hi : i.toNat ≤ BUFFER_LENGTH) (hn : n ≤ BUFFER_LENGTH) :
    i.slt (BitVec.ofNat 64 n) = true ↔ i.toNat < n := by
  have hB : BUFFER_LENGTH = 129 := rfl
  have hn' : (BitVec.ofNat 64 n).toNat = n := by
    rw [BitVec.toNat_ofNat]
    omega
  rw [BitVec.slt_iff_toInt_lt, BitVec.toInt_eq_toNat_of_lt (by omega),
    BitVec.toInt_eq_toNat_of_lt (by omega), hn']
  omega

theorem toNat_succ (hi : i.toNat < BUFFER_LENGTH) : (i + 1).toNat = i.toNat + 1 := by
  have hB : BUFFER_LENGTH = 129 := rfl
  rw [BitVec.toNat_add]
  simp
  omega

/-- **The loop of `deviceWrite`.** For a length that the call accepts, the loop stops at `len`
and has stored the bytes of the buffer from its index on. Induction on the fuel. -/
theorem getLoop_eq (buff : Nat → UInt8) (hlen : len.toNat ≤ 128) {fuel : Nat}
    {message : Vector UInt8 BUFFER_LENGTH} (hi : i.toNat ≤ len.toNat)
    (hf : len.toNat - i.toNat < fuel) :
    getLoop buff len fuel i message = some (len, Vector.ofFn fun j =>
      if i.toNat ≤ j.val ∧ j.val < len.toNat then buff j else message[j]) := by
  have hB : BUFFER_LENGTH = 129 := rfl
  induction fuel generalizing i message with
  | zero => omega
  | succ fuel ih =>
    rw [getLoop]
    have hslt := slt_bound (i := i) (n := BUFFER_LENGTH - 1) (by omega) (by omega)
    simp only [BitVec.ult_iff_lt, BitVec.lt_def, hslt]
    by_cases hlt : i.toNat < len.toNat
    · rw [if_pos ⟨hlt, by omega⟩, dif_pos (show i.toNat < BUFFER_LENGTH by omega)]
      have hsucc := toNat_succ (i := i) (by omega)
      rw [ih (by omega) (by omega)]
      apply congrArg fun v => some (len, v)
      apply Vector.ext
      intro j hj
      rw [Vector.getElem_ofFn, Vector.getElem_ofFn, hsucc]
      -- the byte at the index was stored by this round, the others by the rounds after it
      by_cases hij : i.toNat = j
      · have hj' : j < len.toNat := by omega
        simp [hij, hj']
      · simp only [Fin.getElem_fin, Vector.getElem_set, hij, if_false]
        apply if_congr _ rfl rfl
        omega
    · rw [if_neg (by omega)]
      obtain rfl : i = len := BitVec.eq_of_toNat_eq (by omega)
      apply congrArg fun v => some (i, v)
      apply Vector.ext
      intro j hj
      rw [Vector.getElem_ofFn, if_neg (by omega)]
      rfl

/-- **The loop of `deviceRead`.** It delivers the bytes of `message` from its index on, up to
the length asked for or the end of `message`. Induction on the fuel. -/
theorem putLoop_eq (message : Vector UInt8 BUFFER_LENGTH) {fuel : Nat} {delivered : List UInt8}
    (hi : i.toNat ≤ min len.toNat BUFFER_LENGTH)
    (hf : min len.toNat BUFFER_LENGTH - i.toNat < fuel) :
    putLoop message len fuel i delivered =
      some (BitVec.ofNat 64 (min len.toNat BUFFER_LENGTH),
        delivered ++ (message.toList.take len.toNat).drop i.toNat) := by
  have hB : BUFFER_LENGTH = 129 := rfl
  induction fuel generalizing i delivered with
  | zero => omega
  | succ fuel ih =>
    rw [putLoop]
    have hslt := slt_bound (i := i) (n := BUFFER_LENGTH) (by omega) (by omega)
    simp only [BitVec.ult_iff_lt, BitVec.lt_def, hslt]
    by_cases hlt : i.toNat < min len.toNat BUFFER_LENGTH
    · rw [if_pos (by omega), dif_pos (show i.toNat < BUFFER_LENGTH by omega)]
      have hsucc := toNat_succ (i := i) (by omega)
      rw [ih (by omega) (by omega), hsucc]
      -- this round delivers the head of what is left
      have hdrop : (message.toList.take len.toNat).drop i.toNat =
          message[i.toNat] :: (message.toList.take len.toNat).drop (i.toNat + 1) := by
        rw [List.drop_eq_getElem_cons (by simp; omega)]
        simp
      rw [hdrop]
      simp
    · rw [if_neg (by omega)]
      have hnil : (message.toList.take len.toNat).drop i.toNat = [] := by
        apply List.drop_eq_nil_of_le
        simp
        omega
      have hi' : i = BitVec.ofNat 64 (min len.toNat BUFFER_LENGTH) := by
        apply BitVec.eq_of_toNat_eq
        rw [BitVec.toNat_ofNat]
        omega
      rw [hnil, ← hi', List.append_nil]

end Loops

end OsHw.Hw3
