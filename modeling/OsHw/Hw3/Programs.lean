import OsHw.Hw3.Numbers
import OsHw.Lib.Simulation

/-!
# OsHw — `message_writer.c` and `message_reader.c` end to end

The two programs as sequences of system calls on one device file, with all that they print. A
message is stored without a terminator and delivered with all that is behind it in the channel;
the reader prints up to the first NUL.

* **`messageWriter`**, **`messageReader`** — the programs, on any system that answers their calls.
* **`messageWriter_related`**, **`messageReader_related`** — on the driver they do what they do on
  one `Slot`.
* **`Slot.target`** — the message array of the channel that the writer is going to use.
* **`relayed_iff`** — the reader prints the writer's message exactly when the byte behind it in
  that array is NUL.
-/

namespace OsHw.Hw3

open Simulation

/-! ## The programs -/

/-- What a program returns and prints. -/
structure Exit where
  status : Int
  stdout : List UInt8
  deriving DecidableEq

def text (s : String) : List UInt8 := s.toList.map fun c => UInt8.ofNat c.toNat

/-- What `kmalloc` answers to the calls of a program. -/
structure Memory where
  minor : Option MinorList
  channel : Option Channel

/-- A command line argument that can be sent: a string of 1 to 128 bytes. -/
structure Message where
  bytes : List UInt8
  nul_free : 0 ∉ bytes
  length_pos : 1 ≤ bytes.length
  length_le : bytes.length ≤ 128

/-- The bytes at and behind an address that holds a string. -/
def byteAt (bytes : List UInt8) (i : Nat) : UInt8 := bytes.getD i 0

/-- What `%s` prints: the bytes up to the first NUL. There is no result when it is not in the
buffer. -/
def printed (buff : List UInt8) : Option (List UInt8) :=
  if 0 ∈ buff then some (buff.takeWhile (· ≠ 0)) else none

section Programs

variable {σ : Type} (driver : Call → σ → Option (Outcome × σ)) (memory : Memory)
  (channel : BitVec 32)

/-- `main` of `message_writer.c` with all its arguments; `errno` is the negated return value of the
driver. -/
def messageWriter (argv3 : List UInt8) (s : σ) : Option (Exit × σ) :=
  (driver (.open memory.minor) s).bind fun (fd, s) =>
    if fd.ret < 0 then
      some (⟨-1, text "Couldn't open the file, errno " ++ text (toString (-fd.ret)) ++ text "\n"⟩, s)
    else
      (driver (.ioctl memory.channel MSG_SLOT_CHANNEL (channel.signExtend 64)) s).bind
        fun (selected, s) =>
          -- an error is printed, and the program goes on
          let out := if selected.ret < 0 then
            text "Error in ioctl: " ++ text (toString (-selected.ret)) else []
          (driver (.write (some (byteAt argv3)) (BitVec.ofNat 64 argv3.length)) s).bind
            fun (written, s) =>
              -- the number of bytes written is not `SUCCESS`
              some (⟨0, out ++ if written.ret ≠ SUCCESS then text "Failed writing" else []⟩, s)

/-- `main` of `message_reader.c`; `junk` is in `buff` at first. -/
def messageReader (strerror : Int → List UInt8) (junk : Vector UInt8 BUFFER_LENGTH) (s : σ) :
    Option (Exit × σ) :=
  (driver (.open memory.minor) s).bind fun (fd, s) =>
    if fd.ret < 0 then
      some (⟨-1, text "Couldn't open the file due to error " ++ strerror (-fd.ret) ++ text "\n"⟩, s)
    else
      (driver (.ioctl memory.channel MSG_SLOT_CHANNEL (channel.signExtend 64)) s).bind
        fun (selected, s) =>
          if selected.ret < 0 then
            some (⟨-1, text "Error in ioctl: " ++ strerror (-selected.ret) ++ text "\n"⟩, s)
          else
            (driver (.read (BitVec.ofNat 64 BUFFER_LENGTH)) s).bind fun (read, s) =>
              if read.ret < 0 then
                some (⟨-1, text "error reading, " ++ strerror (-read.ret) ++ text "\n"⟩, s)
              else
                let buff := read.delivered ++ junk.toList.drop read.delivered.length
                (printed buff).map fun shown =>
                  (⟨0, text "read the channel: " ++ shown ++ text "\n"⟩, s)

end Programs

/-! ## The driver and the slot -/

/-- A well-linked heap in which the minor has this slot, and every other one its own. -/
def Shows (others : BitVec 32 → Slot) (m : BitVec 32) (s : State) (slot : Slot) : Prop :=
  (∃ nodes, Layout s nodes) ∧ s.slot m = slot ∧ ∀ minor, minor ≠ m → s.slot minor = others minor

/-- One minor without a heap. -/
def Slot.call (c : Call) (slot : Slot) : Option (Outcome × Slot) := some (slot.step c)

variable {m : BitVec 32} {s : State} {slot : Slot} {memory : Memory} {channel : BitVec 32}
variable {others : BitVec 32 → Slot}

theorem Reachable.shows (hs : Reachable s) (m : BitVec 32) : Shows s.slot m s (s.slot m) :=
  ⟨hs.layout, rfl, fun _ _ => rfl⟩

theorem call_related (h : Shows others m s slot) (c : Call) :
    Related (Shows others m) (call m c s) (slot.call c) := by
  obtain ⟨⟨nodes, hlayout⟩, rfl, hothers⟩ := h
  obtain ⟨s', hcall, hlayout', hslot, hkept⟩ := call_moved hlayout m c
  rw [hcall, Slot.call]
  exact .returns ⟨hlayout', hslot, fun minor hne =>
    (hkept minor hne).trans (hothers minor hne)⟩

theorem messageWriter_related (h : Shows others m s slot) (argv3 : List UInt8) :
    Related (Shows others m) (messageWriter (call m) memory channel argv3 s)
      (messageWriter Slot.call memory channel argv3 slot) := by
  apply (call_related h _).bind
  intro fd s slot h
  apply Related.ite
  · exact .returns h
  · apply (call_related h _).bind
    intro selected s slot h
    apply (call_related h _).bind
    intro written s slot h
    exact .returns h

theorem messageReader_related (h : Shows others m s slot) (strerror : Int → List UInt8)
    (junk : Vector UInt8 BUFFER_LENGTH) :
    Related (Shows others m) (messageReader (call m) memory channel strerror junk s)
      (messageReader Slot.call memory channel strerror junk slot) := by
  apply (call_related h _).bind
  intro fd s slot h
  apply Related.ite
  · exact .returns h
  apply (call_related h _).bind
  intro selected s slot h
  apply Related.ite
  · exact .returns h
  apply (call_related h _).bind
  intro read s slot h
  apply Related.ite
  · exact .returns h
  · dsimp only
    cases printed (read.delivered ++ junk.toList.drop read.delivered.length) with
    | none => exact .fails
    | some shown => exact .returns h

/-! ## What the writer selects -/

namespace Slot

variable {p : BitVec 64} {kmalloc : Option Channel} {slot : Slot} {c : ChannelData}

/-- The channels that `ioctl` compares with the number, in its order: the selected one, then the
one on the list. -/
def compared : Slot → List ChannelData
  | .started first selected => (Slot.started first selected).selected.toList ++ [first]
  | _ => []

/-- The message array of the channel with this number that opening the minor and `ioctl` select:
that of the first one compared that has the number, else what is in the memory of a new one. -/
def target (memory : Memory) (p : BitVec 64) (slot : Slot) :
    Option (Vector UInt8 BUFFER_LENGTH) :=
  if slot = .unopened ∧ memory.minor = none then none
  else
    match slot.compared.find? (·.hasId p) with
    | some c => some c.message
    | none => memory.channel.map fun fresh => fresh.message

/-- A channel that has the number is selected. -/
theorem deviceIoctl_found (hfind : slot.compared.find? (·.hasId p) = some c)
    (kmalloc : Option Channel) :
    (slot.deviceIoctl kmalloc MSG_SLOT_CHANNEL p).1 = SUCCESS ∧
      (slot.deviceIoctl kmalloc MSG_SLOT_CHANNEL p).2.selected = some c := by
  rw [deviceIoctl_eq]
  cases slot with
  | unopened => cases hfind
  | empty => cases hfind
  | started first selected =>
    by_cases hany : (Slot.started first selected).selected.any (·.hasId p) = true
    · rw [if_pos hany]
      refine ⟨rfl, ?_⟩
      obtain ⟨d, hd, hid⟩ := (Option.any_eq_true _ _).mp hany
      rw [compared, hd, Option.toList_some, List.singleton_append,
        List.find?_cons_of_pos (p := fun x : ChannelData => x.hasId p) hid] at hfind
      rw [← hfind]
      exact hd
    · -- the one on the list has the number
      have hrest : ∀ d ∈ (Slot.started first selected).selected.toList, ¬ d.hasId p = true := by
        intro d hd hid
        exact hany ((Option.any_eq_true _ _).mpr ⟨d, Option.mem_toList.mp hd, hid⟩)
      rw [compared, List.find?_append, List.find?_eq_none.mpr hrest, Option.none_or] at hfind
      have hid : first.hasId p = true := by
        by_contra hno
        rw [List.find?_cons_of_neg (p := fun x : ChannelData => x.hasId p) hno] at hfind
        cases hfind
      rw [List.find?_cons_of_pos (p := fun x : ChannelData => x.hasId p) hid] at hfind
      have hlisted : (Slot.started first selected).selectChannel kmalloc p =
          (SUCCESS, .started first .first) := by
        cases kmalloc <;> exact if_pos hid
      rw [if_neg hany, hlisted]
      exact ⟨rfl, hfind⟩

/-- Without one, a new channel is selected, or nothing if there is no memory for it. -/
theorem deviceIoctl_missing (hslot : slot ≠ .unopened)
    (hfind : slot.compared.find? (·.hasId p) = none) :
    (∀ fresh, (slot.deviceIoctl (some fresh) MSG_SLOT_CHANNEL p).1 = SUCCESS ∧
      (slot.deviceIoctl (some fresh) MSG_SLOT_CHANNEL p).2.selected =
        some (.create p fresh.toChannelData)) ∧
    (slot.deviceIoctl none MSG_SLOT_CHANNEL p).1 < 0 ∧
      (slot.deviceIoctl none MSG_SLOT_CHANNEL p).2 ≠ .unopened ∧
      (slot.deviceIoctl none MSG_SLOT_CHANNEL p).2.selected = none ∧
      (slot.deviceIoctl none MSG_SLOT_CHANNEL p).2.compared.find? (·.hasId p) = none := by
  have hnone := List.find?_eq_none.mp hfind
  cases slot with
  | unopened => exact absurd rfl hslot
  | empty => exact ⟨fun fresh => ⟨rfl, rfl⟩, show -ENOMEM < 0 by decide, nofun, rfl, rfl⟩
  | started first selected =>
    have hfirst : ¬ first.hasId p = true := hnone first (by simp [compared])
    have hsel : ¬ (Slot.started first selected).selected.any (·.hasId p) = true := by
      cases hd : (Slot.started first selected).selected with
      | none => simp
      | some d => exact hnone d (by simp [compared, hd])
    have hcall : ∀ kmalloc, (Slot.started first selected).deviceIoctl kmalloc MSG_SLOT_CHANNEL p =
        (Slot.started first selected).selectChannel kmalloc p := fun kmalloc => by
      rw [deviceIoctl_eq, if_neg hsel]
    have hfresh : ∀ fresh, (Slot.started first selected).selectChannel (some fresh) p =
        (SUCCESS, .started first (.unlisted (.create p fresh.toChannelData))) := fun fresh =>
      if_neg hfirst
    have hfailed : (Slot.started first selected).selectChannel none p =
        (-ENOMEM, .started first .nothing) := if_neg hfirst
    simp only [hcall, hfresh, hfailed]
    refine ⟨fun fresh => ⟨trivial, rfl⟩, by decide, nofun, rfl, ?_⟩
    exact List.find?_eq_none.mpr (by simpa [compared, Slot.selected] using hfirst)

/-- Opening a minor leaves what `ioctl` compares with, unless there is no memory for its node. -/
theorem deviceOpen_opens {kmalloc : Option MinorList}
    (hopens : ¬ (slot = .unopened ∧ kmalloc = none)) :
    ∃ slot', slot.deviceOpen kmalloc = (SUCCESS, slot') ∧ slot' ≠ .unopened ∧
      slot'.compared = slot.compared := by
  by_cases hslot : slot = .unopened
  · subst hslot
    cases kmalloc with
    | none => exact absurd ⟨rfl, rfl⟩ hopens
    | some memory => exact ⟨.empty, rfl, nofun, rfl⟩
  · exact ⟨slot, Slot.deviceOpen_of_ne hslot kmalloc, hslot, rfl⟩

theorem selected_modify (f : ChannelData → ChannelData) (slot : Slot) :
    (slot.modify f).selected = slot.selected.map f := by
  cases slot with
  | unopened => rfl
  | empty => rfl
  | started first selected => cases selected <;> rfl

theorem modify_ne_unopened {f : ChannelData → ChannelData} (hslot : slot ≠ .unopened) :
    slot.modify f ≠ .unopened := by
  cases slot with
  | unopened => exact absurd rfl hslot
  | empty => nofun
  | started first selected => cases selected <;> nofun

end Slot

/-! ## The writer -/

variable {p : BitVec 64} {message : Message}

/-- The writer has stored its message over what was in an array. -/
structure Stored (p : BitVec 64) (bytes : List UInt8) (old : Vector UInt8 BUFFER_LENGTH)
    (slot : Slot) : Prop where
  opened : slot ≠ .unopened
  selected : ∃ c, slot.selected = some c ∧ c.hasId p = true ∧
    c.length = BitVec.ofNat 32 bytes.length ∧
    c.message.toList = bytes ++ old.toList.drop bytes.length

/-- The message array behind a write. -/
theorem ChannelData.put_message (bytes : List UInt8) (c : ChannelData)
    (hle : bytes.length ≤ 128) :
    (c.put (byteAt bytes) bytes.length).message.toList =
      bytes ++ c.message.toList.drop bytes.length := by
  have hB : BUFFER_LENGTH = 129 := rfl
  have hput : (c.put (byteAt bytes) bytes.length).message = Vector.ofFn fun j =>
      if j.val < bytes.length then byteAt bytes j else c.message[j] := rfl
  rw [hput]
  apply List.ext_getElem
  · simp only [Vector.length_toList, List.length_append, List.length_drop]
    omega
  · intro i hi _
    rw [Vector.length_toList] at hi
    rw [Vector.getElem_toList, Vector.getElem_ofFn]
    dsimp only
    by_cases hlt : i < bytes.length
    · rw [if_pos hlt, List.getElem_append_left hlt, byteAt, ← List.getElem_eq_getD]
    · have hle' : bytes.length ≤ i := Nat.le_of_not_lt hlt
      simp only [if_neg hlt, List.getElem_append_right hle', List.getElem_drop,
        Vector.getElem_toList, Nat.add_sub_cancel' hle']
      rfl

/-- The first two calls of a program that finds its channel, or gets memory for it. -/
theorem Slot.selects_target {old : Vector UInt8 BUFFER_LENGTH} (hp : p.toNat < 2 ^ 31)
    (htarget : slot.target memory p = some old) :
    ∃ slot₀ slot₁ c, slot.deviceOpen memory.minor = (SUCCESS, slot₀) ∧
      slot₀.deviceIoctl memory.channel MSG_SLOT_CHANNEL p = (SUCCESS, slot₁) ∧
      slot₁.selected = some c ∧ c.hasId p = true ∧ c.message = old := by
  unfold Slot.target at htarget
  split at htarget
  · cases htarget
  · next hopens =>
    obtain ⟨slot₀, hopen, hne, hcompared⟩ := Slot.deviceOpen_opens hopens
    cases hfind : slot.compared.find? (·.hasId p) with
    | some c =>
      rw [hfind] at htarget
      obtain ⟨hret, hsel⟩ := Slot.deviceIoctl_found (hcompared ▸ hfind) memory.channel
      exact ⟨slot₀, _, c, hopen, Prod.ext hret rfl, hsel,
        List.find?_some (p := fun c : ChannelData => c.hasId p) hfind, Option.some.inj htarget⟩
    | none =>
      rw [hfind] at htarget
      obtain ⟨fresh, hfresh, rfl⟩ := Option.map_eq_some_iff.mp htarget
      obtain ⟨hret, hsel⟩ := (Slot.deviceIoctl_missing hne (hcompared ▸ hfind)).1 fresh
      rw [hfresh]
      exact ⟨slot₀, _, _, hopen, Prod.ext hret rfl, hsel, (ChannelData.hasId_iff hp rfl).mpr rfl, rfl⟩

/-- The writer behind an opened minor. -/
theorem messageWriter_opened {argv3 : List UInt8} {selected written : Int} {slot₀ slot₁ slot₂ : Slot}
    (hopen : slot.deviceOpen memory.minor = (SUCCESS, slot₀))
    (hioctl : slot₀.deviceIoctl memory.channel MSG_SLOT_CHANNEL (channel.signExtend 64) =
      (selected, slot₁))
    (hwrite : slot₁.deviceWrite (some (byteAt argv3)) (BitVec.ofNat 64 argv3.length) =
      (written, slot₂)) :
    ∃ e, messageWriter Slot.call memory channel argv3 slot = some (e, slot₂) := by
  unfold messageWriter Slot.call
  simp only [Slot.step, hopen, Option.bind_some]
  rw [if_neg (by decide)]
  simp only [hioctl, hwrite]
  exact ⟨_, rfl⟩

/-- A writer that finds its channel, or gets memory for it, stores its message there. -/
theorem messageWriter_stores (message : Message) {old : Vector UInt8 BUFFER_LENGTH} (hp : channel.toNat < 2 ^ 31)
    (htarget : slot.target memory (channel.signExtend 64) = some old) :
    ∃ e slot', messageWriter Slot.call memory channel message.bytes slot = some (e, slot') ∧
      Stored (channel.signExtend 64) message.bytes old slot' := by
  obtain ⟨slot₀, slot₁, c, hopen, hioctl, hsel, hid, rfl⟩ :=
    Slot.selects_target ((ChannelData.toNat_signExtend_of_lt hp).trans_lt hp) htarget
  have hn : (BitVec.ofNat 64 message.bytes.length).toNat = message.bytes.length := by
    have hle := message.length_le
    rw [BitVec.toNat_ofNat, Nat.mod_eq_of_lt (by omega)]
  have hwrite : slot₁.deviceWrite (some (byteAt message.bytes))
      (BitVec.ofNat 64 message.bytes.length) =
        ((message.bytes.length : Int), slot₁.modify (·.put (byteAt message.bytes)
          message.bytes.length)) := by
    rw [Slot.deviceWrite]
    simp only [hn]
    rw [if_pos ⟨message.length_pos, message.length_le, by rw [hsel]; rfl⟩]
  have hne : slot₁ ≠ .unopened := by
    rintro rfl
    cases hsel
  have hstored : Stored (channel.signExtend 64) message.bytes c.message
      (slot₁.modify (·.put (byteAt message.bytes) message.bytes.length)) := by
    refine ⟨Slot.modify_ne_unopened hne, c.put (byteAt message.bytes) message.bytes.length, ?_, ?_⟩
    · rw [Slot.selected_modify, hsel, Option.map_some]
    · refine ⟨?_, by rw [ChannelData.put], ChannelData.put_message message.bytes c message.length_le⟩
      rw [ChannelData.hasId, ChannelData.put_id]
      exact hid
  obtain ⟨e, hrun⟩ := messageWriter_opened hopen hioctl hwrite
  exact ⟨e, _, hrun, hstored⟩

/-- A writer without memory stores nothing, and leaves no channel with its number. -/
theorem messageWriter_fails (message : Message) (htarget : slot.target memory (channel.signExtend 64) = none) :
    ∃ e slot', messageWriter Slot.call memory channel message.bytes slot = some (e, slot') ∧
      slot'.compared.find? (·.hasId (channel.signExtend 64)) = none := by
  unfold Slot.target at htarget
  split at htarget
  · next hno =>
    obtain ⟨rfl, hmemory⟩ := hno
    refine ⟨⟨-1, text "Couldn't open the file, errno " ++ text (toString ENOMEM) ++ text "\n"⟩,
      .unopened, ?_, rfl⟩
    unfold messageWriter Slot.call
    simp only [Slot.step, hmemory, Option.bind_some]
    exact if_pos (by decide)
  · next hopens =>
    obtain ⟨slot₀, hopen, hne, hcompared⟩ := Slot.deviceOpen_opens hopens
    cases hfind : slot.compared.find? (·.hasId (channel.signExtend 64)) with
    | some c =>
      rw [hfind] at htarget
      cases htarget
    | none =>
      rw [hfind] at htarget
      have hmemory : memory.channel = none := Option.map_eq_none_iff.mp htarget
      obtain ⟨-, hret, -, hsel, hleft⟩ := Slot.deviceIoctl_missing hne (hcompared ▸ hfind)
      -- nothing is selected, so that the write is refused
      have hwrite : ∀ buff len, (slot₀.deviceIoctl none MSG_SLOT_CHANNEL
          (channel.signExtend 64)).2.deviceWrite (some buff) len =
            (-EINVAL, (slot₀.deviceIoctl none MSG_SLOT_CHANNEL (channel.signExtend 64)).2) := by
        intro buff len
        rw [Slot.deviceWrite]
        exact if_neg fun h => by
          rw [hsel] at h
          cases h.2.2
      obtain ⟨e, hrun⟩ := messageWriter_opened hopen (by rw [hmemory]) (hwrite _ _)
      exact ⟨e, _, hrun, hleft⟩

/-! ## The reader -/

/-- What is printed of a string that other bytes may follow. -/
theorem printed_eq {bytes : List UInt8} (hnul : 0 ∉ bytes) (b : UInt8) (rest : List UInt8) :
    printed (bytes ++ b :: rest) = some bytes ↔ b = 0 := by
  have hall : ∀ c ∈ bytes, decide (c ≠ 0) = true := by
    intro c hc
    exact decide_eq_true fun hzero => hnul (hzero ▸ hc)
  have htake : (bytes ++ b :: rest).takeWhile (· ≠ 0) = bytes ++ (b :: rest).takeWhile (· ≠ 0) :=
    List.takeWhile_append_of_pos hall
  rw [printed, htake]
  by_cases hb : b = 0
  · subst hb
    rw [if_pos (by simp)]
    simp
  · rw [List.takeWhile_cons_of_pos (p := fun c : UInt8 => decide (c ≠ 0)) (decide_eq_true hb)]
    refine iff_of_false ?_ hb
    split
    · simp
    · nofun

/-- The reader behind an opened minor and a selected channel. -/
theorem messageReader_selected {strerror : Int → List UInt8} {junk : Vector UInt8 BUFFER_LENGTH}
    {slot₀ slot₁ : Slot} (hopen : slot.deviceOpen memory.minor = (SUCCESS, slot₀))
    (hioctl : slot₀.deviceIoctl memory.channel MSG_SLOT_CHANNEL (channel.signExtend 64) =
      (SUCCESS, slot₁)) :
    messageReader Slot.call memory channel strerror junk slot =
      let r := slot₁.deviceRead (BitVec.ofNat 64 BUFFER_LENGTH)
      if r.1 < 0 then some (⟨-1, text "error reading, " ++ strerror (-r.1) ++ text "\n"⟩, slot₁)
      else (printed (r.2 ++ junk.toList.drop r.2.length)).map fun shown =>
        (⟨0, text "read the channel: " ++ shown ++ text "\n"⟩, slot₁) := by
  unfold messageReader Slot.call
  simp only [Slot.step, hopen, Option.bind_some]
  rw [if_neg (by decide)]
  simp only [hioctl]
  rw [if_neg (by decide)]

/-- A read into the reader's buffer delivers the whole array. -/
theorem Slot.deviceRead_whole {c : ChannelData} {n : Nat} (hsel : slot.selected = some c)
    (hlength : c.length = BitVec.ofNat 32 n) (hpos : 1 ≤ n) (hle : n ≤ 128) :
    slot.deviceRead (BitVec.ofNat 64 BUFFER_LENGTH) = ((BUFFER_LENGTH : Int), c.message.toList) := by
  have hlen : (BitVec.ofNat 64 BUFFER_LENGTH).toNat = BUFFER_LENGTH := by decide
  have hB : BUFFER_LENGTH = 129 := rfl
  have hn : c.length.toNat = n := by
    rw [hlength, BitVec.toNat_ofNat, Nat.mod_eq_of_lt (by omega)]
  have hnonempty : c.length ≠ 0 := by
    intro hzero
    rw [hzero] at hn
    simp at hn
    omega
  have hroom : ¬ (BitVec.ofNat 64 BUFFER_LENGTH).ult (c.length.signExtend 64) = true := by
    rw [ChannelData.ult_length_iff (by omega), hlen]
    omega
  have hall : c.message.toList.take BUFFER_LENGTH = c.message.toList :=
    List.take_of_length_le c.message.length_toList.le
  simp only [Slot.deviceRead, hsel, if_neg hnonempty, if_neg hroom, hlen, Nat.min_self, hall]

/-- A reader that finds the message prints what is in the array up to the first NUL. -/
theorem messageReader_stored (memory : Memory) {bytes : List UInt8} {old : Vector UInt8 BUFFER_LENGTH}
    (h : Stored (channel.signExtend 64) bytes old slot) (hpos : 1 ≤ bytes.length)
    (hle : bytes.length ≤ 128) (strerror : Int → List UInt8)
    (junk : Vector UInt8 BUFFER_LENGTH) :
    messageReader Slot.call memory channel strerror junk slot =
      (printed (bytes ++ old.toList.drop bytes.length)).map fun shown =>
        (⟨0, text "read the channel: " ++ shown ++ text "\n"⟩, slot) := by
  obtain ⟨hopened, c, hsel, hid, hlength, hmessage⟩ := h
  have hioctl : slot.deviceIoctl memory.channel MSG_SLOT_CHANNEL (channel.signExtend 64) =
      (SUCCESS, slot) := by
    rw [Slot.deviceIoctl_eq, hsel, Option.any_some, if_pos hid]
  have hrest : junk.toList.drop c.message.toList.length = [] := by
    apply List.drop_eq_nil_of_le
    rw [Vector.length_toList, Vector.length_toList]
  rw [messageReader_selected (Slot.deviceOpen_of_ne hopened _) hioctl,
    Slot.deviceRead_whole hsel hlength hpos hle]
  dsimp only
  rw [if_neg (by decide), hrest, List.append_nil, hmessage]

/-- A reader that finds no channel with its number fails. -/
theorem messageReader_missing (hfind : slot.compared.find? (·.hasId (channel.signExtend 64)) = none)
    (strerror : Int → List UInt8) (junk : Vector UInt8 BUFFER_LENGTH) :
    ∃ e slot', messageReader Slot.call memory channel strerror junk slot = some (e, slot') ∧
      e.status = -1 := by
  by_cases hopens : slot = .unopened ∧ memory.minor = none
  · obtain ⟨rfl, hmemory⟩ := hopens
    refine ⟨⟨-1, text "Couldn't open the file due to error " ++ strerror ENOMEM ++ text "\n"⟩,
      .unopened, ?_, rfl⟩
    unfold messageReader Slot.call
    simp only [Slot.step, hmemory, Option.bind_some]
    exact if_pos (by decide)
  · obtain ⟨slot₀, hopen, hne, hcompared⟩ := Slot.deviceOpen_opens hopens
    obtain ⟨hfresh, hfailed, -⟩ := Slot.deviceIoctl_missing hne (hcompared ▸ hfind)
    cases hmemory : memory.channel with
    | none =>
      -- the `ioctl` fails
      unfold messageReader Slot.call
      simp only [Slot.step, hopen, Option.bind_some]
      rw [if_neg (by decide), hmemory]
      simp only [if_pos hfailed]
      exact ⟨_, _, rfl, rfl⟩
    | some fresh =>
      -- the new channel has no message
      obtain ⟨hret, hsel⟩ := hfresh fresh
      rw [messageReader_selected hopen (by rw [hmemory]; exact Prod.ext hret rfl)]
      have hread : (slot₀.deviceIoctl (some fresh) MSG_SLOT_CHANNEL
          (channel.signExtend 64)).2.deviceRead (BitVec.ofNat 64 BUFFER_LENGTH) =
            (-EWOULDBLOCK, []) := by
        rw [Slot.deviceRead, hsel]
        exact if_pos rfl
      rw [hread]
      exact ⟨_, _, if_pos (by decide), rfl⟩

/-! ## Writer and reader -/

/-- The writer runs, and behind it the reader, with calls on other minors between them: the reader
prints the writer's message. -/
def Relays (m : BitVec 32) (channel : BitVec 32) (message : Message) (writer reader : Memory)
    (others : List MinorCall) (strerror : Int → List UInt8) (junk : Vector UInt8 BUFFER_LENGTH)
    (s : State) : Prop :=
  ∃ e s₁ trace s₂ s₃, messageWriter (call m) writer channel message.bytes s = some (e, s₁) ∧
    run others s₁ = some (trace, s₂) ∧ messageReader (call m) reader channel strerror junk s₂ =
      some (⟨0, text "read the channel: " ++ message.bytes ++ text "\n"⟩, s₃)

section Relays

variable {writer reader : Memory} {others : List MinorCall} {strerror : Int → List UInt8}
  {junk : Vector UInt8 BUFFER_LENGTH}

/-- What the programs do on the minor's slot decides. -/
theorem relays_slot (hs : Reachable s) (hne : ∀ x ∈ others, x.1 ≠ m) {e : Exit} {slot' : Slot}
    (hwriter : messageWriter Slot.call writer channel message.bytes (s.slot m) = some (e, slot')) :
    Relays m channel message writer reader others strerror junk s ↔
      ∃ slot'', messageReader Slot.call reader channel strerror junk slot' =
        some (⟨0, text "read the channel: " ++ message.bytes ++ text "\n"⟩, slot'') := by
  have hwritten : Related (Shows s.slot m) (messageWriter (call m) writer channel message.bytes s)
      (some (e, slot')) := hwriter ▸ messageWriter_related (hs.shows m) message.bytes
  obtain ⟨s₁, hrun, ⟨nodes, h₁⟩, hslot, -⟩ := hwritten.exists_left
  obtain ⟨s₂, hothers, -⟩ := run_slots h₁ others
  obtain ⟨hlayout, -, hkept⟩ := run_curr h₁ others hothers hne
  have hread : Related (Shows s₂.slot m) (messageReader (call m) reader channel strerror junk s₂)
      (messageReader Slot.call reader channel strerror junk slot') :=
    messageReader_related ⟨hlayout, hkept.trans hslot, fun _ _ => rfl⟩ strerror junk
  constructor
  · rintro ⟨e', s₁', trace, s₂', s₃, hrun', hothers', hprints⟩
    cases hrun.symm.trans hrun'
    cases hothers.symm.trans hothers'
    rw [hprints] at hread
    obtain ⟨slot'', hslot'', -⟩ := hread.exists_right
    exact ⟨slot'', hslot''⟩
  · rintro ⟨slot'', hprints⟩
    rw [hprints] at hread
    obtain ⟨s₃, hs₃, -⟩ := hread.exists_left
    exact ⟨e, s₁, _, s₂, s₃, hrun, hothers, hs₃⟩

/-- A writer that finds its channel, or gets memory for it. -/
theorem relays_of_target (hs : Reachable s) (hp : channel.toNat < 2 ^ 31)
    (hne : ∀ x ∈ others, x.1 ≠ m) {old : Vector UInt8 BUFFER_LENGTH}
    (htarget : (s.slot m).target writer (channel.signExtend 64) = some old) :
    Relays m channel message writer reader others strerror junk s ↔
      old.toList[message.bytes.length]? = some 0 := by
  obtain ⟨e, slot', hwriter, hstored⟩ := messageWriter_stores message hp htarget
  have hread := messageReader_stored reader hstored message.length_pos message.length_le
    strerror junk
  have hlt : message.bytes.length < old.toList.length := by
    rw [Vector.length_toList]
    exact Nat.lt_succ_of_le message.length_le
  rw [List.drop_eq_getElem_cons hlt] at hread
  have hprinted := printed_eq message.nul_free old.toList[message.bytes.length]
    (old.toList.drop (message.bytes.length + 1))
  rw [relays_slot hs hne hwriter, hread, List.getElem?_eq_getElem hlt, Option.some.injEq,
    ← hprinted]
  constructor
  · rintro ⟨slot'', hprints⟩
    obtain ⟨shown, hshown, heq⟩ := Option.map_eq_some_iff.mp hprints
    have hout := congrArg (fun x => x.1.stdout) heq
    dsimp only at hout
    rw [List.append_left_inj, List.append_right_inj] at hout
    rw [hshown, hout]
  · intro hshown
    rw [hshown]
    exact ⟨slot', rfl⟩

/-- A writer without memory. -/
theorem not_relays_of_target (hs : Reachable s) (hne : ∀ x ∈ others, x.1 ≠ m)
    (htarget : (s.slot m).target writer (channel.signExtend 64) = none) :
    ¬ Relays m channel message writer reader others strerror junk s := by
  obtain ⟨e, slot', hwriter, hfind⟩ := messageWriter_fails message htarget
  rw [relays_slot hs hne hwriter]
  rintro ⟨slot'', hprints⟩
  obtain ⟨e', slot₃, hreader, hstatus⟩ := messageReader_missing hfind strerror junk
  cases hreader.symm.trans hprints
  cases hstatus

/-- **The reader prints the writer's message** exactly when the writer finds its channel or gets
memory for it, and the byte behind the message in the channel's array was NUL before. -/
theorem relayed_iff (hs : Reachable s) (hp : channel.toNat < 2 ^ 31) (message : Message)
    (writer reader : Memory) (hne : ∀ x ∈ others, x.1 ≠ m) (strerror : Int → List UInt8)
    (junk : Vector UInt8 BUFFER_LENGTH) :
    Relays m channel message writer reader others strerror junk s ↔
      ∃ old, (s.slot m).target writer (channel.signExtend 64) = some old ∧
        old.toList[message.bytes.length]? = some 0 := by
  constructor
  · intro hrelays
    cases htarget : (s.slot m).target writer (channel.signExtend 64) with
    | none => exact absurd hrelays (not_relays_of_target hs hne htarget)
    | some old => exact ⟨old, rfl, (relays_of_target hs hp hne htarget).mp hrelays⟩
  · rintro ⟨old, htarget, hbyte⟩
    exact (relays_of_target hs hp hne htarget).mpr hbyte

end Relays

/-- Memory for a new node, and zeroed memory for a new channel. -/
def zeroMemory : Memory := ⟨some ⟨0, none, none, none, none⟩, some zeroed⟩

/-- A message of one byte. -/
def letter (b : UInt8) (hb : 0 ∉ [b]) : Message := ⟨[b], hb, Nat.le_refl 1, Nat.le_add_left 1 127⟩

/-- A message on a channel whose memory was zeroed. -/
theorem relayed_zeroed :
    Relays 0 1 (letter 97 (by decide)) zeroMemory zeroMemory [] (fun _ => [])
      (Vector.replicate BUFFER_LENGTH 7) .init := by
  have htarget : (State.init.slot 0).target zeroMemory ((1 : BitVec 32).signExtend 64) =
      some (Vector.replicate BUFFER_LENGTH 0) := by
    rw [slot_init]
    rfl
  exact (relayed_iff ⟨[], [], rfl⟩ (by decide) _ _ _ (by simp) _ _).mpr
    ⟨_, htarget, by decide⟩

/-- Behind "ab", the message "c" is read as "cb". -/
theorem reads_old_byte :
    ¬ ∀ (s : State) (m channel : BitVec 32) (message : Message) (writer reader : Memory)
      (others : List MinorCall) (strerror : Int → List UInt8) (junk : Vector UInt8 BUFFER_LENGTH),
      Reachable s → channel.toNat < 2 ^ 31 → (∀ x ∈ others, x.1 ≠ m) →
      Relays m channel message writer reader others strerror junk s := by
  intro h
  obtain ⟨s, hrun, -, hslots⟩ :=
    run_slots Layout.init [opens, selects 1, (0, .write (some (byteAt [97, 98])) 2)]
  have htarget : (s.slot 0).target zeroMemory ((1 : BitVec 32).signExtend 64) =
      some ((ChannelData.create 1 zeroed.toChannelData).put (byteAt [97, 98]) 2).message := by
    rw [hslots, slot_init]
    rfl
  have hrelays := h s 0 1 (letter 99 (by decide)) zeroMemory zeroMemory [] (fun _ => [])
    (Vector.replicate BUFFER_LENGTH 7) ⟨_, _, hrun⟩ (by decide) (by simp)
  have hbyte := (relays_of_target ⟨_, _, hrun⟩ (by decide) (by simp) htarget).mp hrelays
  have hold : ((ChannelData.create 1 zeroed.toChannelData).put (byteAt [97, 98]) 2).message.toList =
      [97, 98] ++ (ChannelData.create 1 zeroed.toChannelData).message.toList.drop 2 :=
    ChannelData.put_message [97, 98] _ (by decide)
  rw [hold] at hbyte
  exact absurd hbyte (show ¬ some (98 : UInt8) = some 0 by decide)

end OsHw.Hw3
