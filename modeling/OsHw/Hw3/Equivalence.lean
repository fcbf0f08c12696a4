import OsHw.Hw3.Programs
import OsHw.Lib.Experiments

/-!
# OsHw — which driver states the callers can tell apart

The driver's state is two heaps; its callers see return values and delivered bytes. What they can
find out with any calls is the slot of each minor, up to one byte: the first one of a channel that
has no message yet, since every message overwrites it before a read delivers it.

* **`ChannelData.Alike`**, **`Slot.Alike`** — equal up to that byte.
* **`alike_bisimulation`** — slots that are alike stay so under every call, and answer the same.
* **`alike_of_indistinguishable`** — slots that answer the same to all calls are alike.
* **`indistinguishable_iff`** — two reachable states answer all further calls the same exactly if
  their slots are alike on every minor.
-/

namespace OsHw.Hw3

open Heap (load)
open Experiments

/-! ## Slots that are alike -/

/-- The same number, the same length and the same bytes, but for the first byte of a channel
without a message. -/
structure ChannelData.Alike (c d : ChannelData) : Prop where
  id : c.id = d.id
  length : c.length = d.length
  message : ∀ (j : Nat) (hj : j < BUFFER_LENGTH), j ≠ 0 ∨ c.length ≠ 0 →
    c.message[j] = d.message[j]

inductive Slot.Alike : Slot → Slot → Prop where
  | unopened : Alike .unopened .unopened
  | empty : Alike .empty .empty
  | nothing {f f' : ChannelData} (hf : f.Alike f') :
      Alike (.started f .nothing) (.started f' .nothing)
  | first {f f' : ChannelData} (hf : f.Alike f') : Alike (.started f .first) (.started f' .first)
  | unlisted {f f' c d : ChannelData} (hf : f.Alike f') (hc : c.Alike d) :
      Alike (.started f (.unlisted c)) (.started f' (.unlisted d))

theorem ChannelData.getElem_put (buff : Nat → UInt8) (n : Nat) (c : ChannelData) {j : Nat}
    (hj : j < BUFFER_LENGTH) :
    (c.put buff n).message[j] = if j < n then buff j else c.message[j] :=
  Vector.getElem_ofFn hj

namespace ChannelData.Alike

variable {c d : ChannelData}

theorem self (c : ChannelData) : c.Alike c := ⟨rfl, rfl, fun _ _ _ => rfl⟩

theorem hasId (h : c.Alike d) (p : BitVec 64) : c.hasId p = d.hasId p := by
  rw [ChannelData.hasId, ChannelData.hasId, h.id]

/-- A message of at least one byte is stored over what may differ. -/
theorem put (h : c.Alike d) (buff : Nat → UInt8) {n : Nat} (hn : 1 ≤ n) :
    (c.put buff n).Alike (d.put buff n) := by
  refine ⟨?_, rfl, fun j hj _ => ?_⟩
  · rw [put_id, put_id, h.id]
  · rw [getElem_put, getElem_put]
    by_cases hjn : j < n
    · rw [if_pos hjn, if_pos hjn]
    · rw [if_neg hjn, if_neg hjn]
      exact h.message j hj (Or.inl (by omega))

/-- The bytes of a channel with a message. -/
theorem bytes (h : c.Alike d) (hlength : c.length ≠ 0) : c.message = d.message := by
  ext j hj
  rw [h.message j hj (Or.inr hlength)]

end ChannelData.Alike

namespace Slot

variable {s t : Slot}

/-- Alike slots select alike channels. -/
theorem Alike.selected (h : Alike s t) : (s.selected = none ∧ t.selected = none) ∨
    ∃ c d, s.selected = some c ∧ t.selected = some d ∧ c.Alike d := by
  cases h with
  | unopened | empty | nothing => exact Or.inl ⟨rfl, rfl⟩
  | first hf => exact Or.inr ⟨_, _, rfl, rfl, hf⟩
  | unlisted hf hc => exact Or.inr ⟨_, _, rfl, rfl, hc⟩

theorem Alike.modify (h : Alike s t) (buff : Nat → UInt8) {n : Nat} (hn : 1 ≤ n) :
    Alike (s.modify (·.put buff n)) (t.modify (·.put buff n)) := by
  cases h with
  | unopened => exact .unopened
  | empty => exact .empty
  | nothing hf => exact .nothing hf
  | first hf => exact .first (hf.put buff hn)
  | unlisted hf hc => exact .unlisted hf (hc.put buff hn)

theorem Alike.deviceOpen (h : Alike s t) (kmalloc : Option MinorList) :
    (s.deviceOpen kmalloc).1 = (t.deviceOpen kmalloc).1 ∧
      Alike (s.deviceOpen kmalloc).2 (t.deviceOpen kmalloc).2 := by
  cases h with
  | unopened =>
    cases kmalloc with
    | none => exact ⟨rfl, .unopened⟩
    | some memory => exact ⟨rfl, .empty⟩
  | empty => exact ⟨rfl, .empty⟩
  | nothing hf => exact ⟨rfl, .nothing hf⟩
  | first hf => exact ⟨rfl, .first hf⟩
  | unlisted hf hc => exact ⟨rfl, .unlisted hf hc⟩

/-- The search of a minor that has a channel. -/
theorem selectChannel_started (kmalloc : Option Channel) (p : BitVec 64) (f : ChannelData)
    (selected : Selected) :
    (Slot.started f selected).selectChannel kmalloc p =
      if f.hasId p then (SUCCESS, .started f .first)
      else
        match kmalloc with
        | none => (-ENOMEM, .started f .nothing)
        | some memory => (SUCCESS, .started f (.unlisted (.create p memory.toChannelData))) := by
  cases kmalloc <;> rfl

theorem Alike.started {f f' : ChannelData} (hf : f.Alike f') (selected selected' : Selected)
    (kmalloc : Option Channel) (p : BitVec 64) :
    ((Slot.started f selected).selectChannel kmalloc p).1 =
        ((Slot.started f' selected').selectChannel kmalloc p).1 ∧
      Alike ((Slot.started f selected).selectChannel kmalloc p).2
        ((Slot.started f' selected').selectChannel kmalloc p).2 := by
  rw [selectChannel_started, selectChannel_started, hf.hasId]
  by_cases hid : f'.hasId p = true
  · rw [if_pos hid, if_pos hid]
    exact ⟨rfl, .first hf⟩
  · rw [if_neg hid, if_neg hid]
    cases kmalloc with
    | none => exact ⟨rfl, .nothing hf⟩
    | some memory => exact ⟨rfl, .unlisted hf (.self _)⟩

theorem Alike.selectChannel (h : Alike s t) (kmalloc : Option Channel) (p : BitVec 64) :
    (s.selectChannel kmalloc p).1 = (t.selectChannel kmalloc p).1 ∧
      Alike (s.selectChannel kmalloc p).2 (t.selectChannel kmalloc p).2 := by
  cases h with
  | unopened => exact ⟨rfl, .unopened⟩
  | empty =>
    cases kmalloc with
    | none => exact ⟨rfl, .empty⟩
    | some memory => exact ⟨rfl, .first (.self _)⟩
  | nothing hf => exact Alike.started hf _ _ kmalloc p
  | first hf => exact Alike.started hf _ _ kmalloc p
  | unlisted hf hc => exact Alike.started hf _ _ kmalloc p

theorem Alike.deviceIoctl (h : Alike s t) (kmalloc : Option Channel) (cmd : BitVec 32)
    (p : BitVec 64) :
    (s.deviceIoctl kmalloc cmd p).1 = (t.deviceIoctl kmalloc cmd p).1 ∧
      Alike (s.deviceIoctl kmalloc cmd p).2 (t.deviceIoctl kmalloc cmd p).2 := by
  have hany : s.selected.any (·.hasId p) = t.selected.any (·.hasId p) := by
    rcases h.selected with ⟨hs, ht⟩ | ⟨c, d, hs, ht, hcd⟩
    · rw [hs, ht]
    · rw [hs, ht]
      exact hcd.hasId p
  by_cases hcmd : MSG_SLOT_CHANNEL ≠ cmd
  · rw [Slot.deviceIoctl, Slot.deviceIoctl, if_pos hcmd, if_pos hcmd]
    exact ⟨rfl, h⟩
  · obtain rfl := not_ne_iff.mp hcmd
    rw [deviceIoctl_eq, deviceIoctl_eq, hany]
    split
    · exact ⟨rfl, h⟩
    · exact h.selectChannel kmalloc p

theorem Alike.deviceWrite (h : Alike s t) (buff : Option (Nat → UInt8)) (len : BitVec 64) :
    (s.deviceWrite buff len).1 = (t.deviceWrite buff len).1 ∧
      Alike (s.deviceWrite buff len).2 (t.deviceWrite buff len).2 := by
  have hsome : s.selected.isSome = t.selected.isSome := by
    rcases h.selected with ⟨hs, ht⟩ | ⟨c, d, hs, ht, -⟩
    · rw [hs, ht]
    · rw [hs, ht, Option.isSome_some, Option.isSome_some]
  cases buff with
  | none => exact ⟨rfl, h⟩
  | some buff =>
    rw [Slot.deviceWrite, Slot.deviceWrite, hsome]
    by_cases hok : 1 ≤ len.toNat ∧ len.toNat ≤ 128 ∧ t.selected.isSome = true
    · rw [if_pos hok, if_pos hok]
      exact ⟨rfl, h.modify buff hok.1⟩
    · rw [if_neg hok, if_neg hok]
      exact ⟨rfl, h⟩

theorem Alike.deviceRead (h : Alike s t) (len : BitVec 64) :
    s.deviceRead len = t.deviceRead len := by
  rcases h.selected with ⟨hs, ht⟩ | ⟨c, d, hs, ht, hcd⟩
  · rw [Slot.deviceRead, Slot.deviceRead, hs, ht]
  · rw [Slot.deviceRead, Slot.deviceRead, hs, ht]
    dsimp only
    rw [← hcd.length]
    by_cases hlength : c.length = 0
    · rw [if_pos hlength, if_pos hlength]
    · rw [if_neg hlength, if_neg hlength, hcd.bytes hlength]

/-- **One call** answers the same on slots that are alike, and keeps them so. -/
theorem alike_bisimulation : Bisimulation step Alike := by
  intro s t h c
  cases c with
  | «open» kmalloc =>
    obtain ⟨hret, hnext⟩ := h.deviceOpen kmalloc
    exact ⟨congrArg (Outcome.mk · []) hret, hnext⟩
  | ioctl kmalloc cmd p =>
    obtain ⟨hret, hnext⟩ := h.deviceIoctl kmalloc cmd p
    exact ⟨congrArg (Outcome.mk · []) hret, hnext⟩
  | write buff len =>
    obtain ⟨hret, hnext⟩ := h.deviceWrite buff len
    exact ⟨congrArg (Outcome.mk · []) hret, hnext⟩
  | read len =>
    refine ⟨?_, h⟩
    show Outcome.mk _ _ = Outcome.mk _ _
    rw [h.deviceRead len]

/-! ## Telling slots apart -/

/-- The channels of a slot have messages of at most 128 bytes. -/
def Sized (s : Slot) : Prop := ∀ c ∈ s.compared, c.length.toNat ≤ 128

theorem sized_started {f : ChannelData} {selected : Selected} :
    (Slot.started f selected).Sized ↔
      f.length.toNat ≤ 128 ∧ ∀ c, selected = .unlisted c → c.length.toNat ≤ 128 := by
  cases selected <;> simp [Sized, compared, Slot.selected, and_comm]

theorem Sized.first {f : ChannelData} {selected : Selected}
    (h : (Slot.started f selected).Sized) : (Slot.started f .first).Sized := by
  refine sized_started.mpr ⟨(sized_started.mp h).1, fun c hc => ?_⟩
  cases hc

theorem Sized.selected (h : Sized s) {c : ChannelData} (hc : s.selected = some c) :
    c.length.toNat ≤ 128 := by
  cases s with
  | unopened | empty => cases hc
  | started f selected =>
    apply h
    rw [compared, hc]
    exact List.mem_cons_self

theorem sized_create (p : BitVec 64) (memory : ChannelData) :
    (ChannelData.create p memory).length.toNat ≤ 128 :=
  Nat.zero_le 128

theorem sized_put (buff : Nat → UInt8) {n : Nat} (hn : n ≤ 128) (c : ChannelData) :
    (c.put buff n).length.toNat ≤ 128 := by
  rw [ChannelData.put, BitVec.toNat_ofNat]
  omega

theorem Sized.modify (h : Sized s) (buff : Nat → UInt8) {n : Nat} (hn : n ≤ 128) :
    Sized (s.modify (·.put buff n)) := by
  cases s with
  | unopened | empty => exact h
  | started f selected =>
    obtain ⟨hf, hc⟩ := sized_started.mp h
    cases selected with
    | nothing => exact h
    | first => exact sized_started.mpr ⟨sized_put buff hn f, nofun⟩
    | unlisted c =>
      refine sized_started.mpr ⟨hf, fun d hd => ?_⟩
      obtain rfl := Selected.unlisted.inj hd
      exact sized_put buff hn c

theorem Sized.selectChannel (h : Sized s) (kmalloc : Option Channel) (p : BitVec 64) :
    Sized (s.selectChannel kmalloc p).2 := by
  cases s with
  | unopened => exact h
  | empty =>
    cases kmalloc with
    | none => exact h
    | some memory => exact sized_started.mpr ⟨sized_create p _, nofun⟩
  | started f selected =>
    have hf := (sized_started.mp h).1
    rw [selectChannel_started]
    split
    · exact sized_started.mpr ⟨hf, nofun⟩
    · cases kmalloc with
      | none => exact sized_started.mpr ⟨hf, nofun⟩
      | some memory =>
        refine sized_started.mpr ⟨hf, fun d hd => ?_⟩
        obtain rfl := Selected.unlisted.inj hd
        exact sized_create p _

/-- **One call** keeps the sizes. -/
theorem Sized.step (h : Sized s) (c : Call) : Sized (Slot.step c s).2 := by
  cases c with
  | «open» kmalloc =>
    cases s with
    | unopened =>
      cases kmalloc with
      | none => exact h
      | some memory => exact nofun
    | empty | started => exact h
  | ioctl kmalloc cmd p =>
    show Sized (s.deviceIoctl kmalloc cmd p).2
    unfold Slot.deviceIoctl
    split
    · exact h
    · split
      · exact h
      · exact h.selectChannel kmalloc p
  | write buff len =>
    show Sized (s.deviceWrite buff len).2
    unfold Slot.deviceWrite
    split
    · exact h
    · split
      · next hok => exact h.modify _ hok.2.1
      · exact h
  | read len => exact h

/-- The result of a read of a channel with a message, or without one. -/
theorem deviceRead_ret {c : ChannelData} (hsel : s.selected = some c)
    (hsize : c.length.toNat ≤ 128) (len : BitVec 64) :
    (s.deviceRead len).1 =
      if c.length.toNat = 0 then -EWOULDBLOCK
      else if len.toNat < c.length.toNat then -ENOSPC
      else ((min len.toNat BUFFER_LENGTH : Nat) : Int) := by
  have hzero : c.length = 0 ↔ c.length.toNat = 0 :=
    ⟨fun h => by rw [h]; rfl, fun h => BitVec.eq_of_toNat_eq h⟩
  rw [Slot.deviceRead, hsel]
  simp only [hzero, ChannelData.ult_length_iff hsize]
  split
  · rfl
  · split <;> rfl

/-- A read into a buffer of the size of the array. -/
theorem deviceRead_all {c : ChannelData} (hsel : s.selected = some c)
    (hsize : c.length.toNat ≤ 128) (hlength : c.length ≠ 0) :
    (s.deviceRead (BitVec.ofNat 64 BUFFER_LENGTH)).2 = c.message.toList :=
  congrArg Prod.snd (deviceRead_whole (n := c.length.toNat) hsel (by simp)
    (Nat.one_le_iff_ne_zero.mpr fun h => hlength (BitVec.eq_of_toNat_eq h)) hsize)

/-- The same reads show the same message array, if there is a message. -/
theorem message_of_reads (hread : ∀ len, s.deviceRead len = t.deviceRead len) {c d : ChannelData}
    (hc : s.selected = some c) (hd : t.selected = some d) (hcs : c.length.toNat ≤ 128)
    (hds : d.length.toNat ≤ 128) (hlength : c.length = d.length) (hne : c.length ≠ 0) :
    c.message = d.message := by
  have hall := congrArg Prod.snd (hread (BitVec.ofNat 64 BUFFER_LENGTH))
  rw [deviceRead_all hc hcs hne, deviceRead_all hd hds (hlength ▸ hne)] at hall
  exact Vector.toList_inj.mp hall

/-- The same reads show the same length. -/
theorem length_of_reads (hread : ∀ len, s.deviceRead len = t.deviceRead len) {c d : ChannelData}
    (hc : s.selected = some c) (hd : t.selected = some d) (hcs : c.length.toNat ≤ 128)
    (hds : d.length.toNat ≤ 128) : c.length = d.length := by
  have hret : ∀ n : Nat, n ≤ 128 → _ := fun n hn => by
    have h := congrArg Prod.fst (hread (BitVec.ofNat 64 n))
    rw [deviceRead_ret hc hcs, deviceRead_ret hd hds, BitVec.toNat_ofNat,
      Nat.mod_eq_of_lt (show n < 2 ^ 64 by omega)] at h
    exact h
  have hc' := hret c.length.toNat hcs
  have hd' := hret d.length.toNat hds
  apply BitVec.eq_of_toNat_eq
  have hB : BUFFER_LENGTH = 129 := rfl
  have hE : EWOULDBLOCK = 11 := rfl
  have hN : ENOSPC = 28 := rfl
  split_ifs at hc' hd' <;> omega

/-- A write of a message to a slot that selects a channel. -/
theorem deviceWrite_selected (buff : Nat → UInt8) {n : Nat} (hn : 1 ≤ n ∧ n ≤ 128)
    (hsel : s.selected.isSome = true) :
    s.deviceWrite (some buff) (BitVec.ofNat 64 n) = ((n : Int), s.modify (·.put buff n)) := by
  have hlen : (BitVec.ofNat 64 n).toNat = n := by
    rw [BitVec.toNat_ofNat]
    omega
  rw [Slot.deviceWrite, hlen, if_pos ⟨hn.1, hn.2, hsel⟩]

/-- Its result shows whether one is selected. -/
theorem deviceWrite_ret_iff (buff : Nat → UInt8) {n : Nat} (hn : 1 ≤ n ∧ n ≤ 128) :
    (s.deviceWrite (some buff) (BitVec.ofNat 64 n)).1 = (n : Int) ↔
      s.selected.isSome = true := by
  constructor
  · intro hret
    by_contra hno
    rw [Slot.deviceWrite, if_neg fun hok => hno hok.2.2] at hret
    have hE : EINVAL = 22 := rfl
    dsimp only at hret
    omega
  · intro hsel
    rw [deviceWrite_selected buff hn hsel]

variable (h : Indistinguishable step s t)
include h

theorem reads_of_indistinguishable (len : BitVec 64) : s.deviceRead len = t.deviceRead len := by
  obtain ⟨hret, hdelivered⟩ := Outcome.mk.inj (h.answer (.read len))
  exact Prod.ext hret hdelivered

/-- Both select a channel, or none does. -/
theorem isSome_of_indistinguishable : s.selected.isSome = t.selected.isSome := by
  have hret := (Outcome.mk.inj (h.answer (.write (some fun _ => 0) (BitVec.ofNat 64 1)))).1
  apply Bool.eq_iff_iff.mpr
  rw [← deviceWrite_ret_iff (fun _ => 0) (n := 1) (by decide),
    ← deviceWrite_ret_iff (fun _ => 0) (n := 1) (by decide)]
  exact ⟨fun hs => hret.symm.trans hs, fun ht => hret.trans ht⟩

/-- A message written to both. -/
theorem modify_of_indistinguishable (buff : Nat → UInt8) {n : Nat} (hn : 1 ≤ n ∧ n ≤ 128)
    (hsel : s.selected.isSome = true) :
    Indistinguishable step (s.modify (·.put buff n)) (t.modify (·.put buff n)) := by
  have hnext := h.next (.write (some buff) (BitVec.ofNat 64 n))
  have hst := isSome_of_indistinguishable h
  simp only [step] at hnext
  rw [deviceWrite_selected buff hn hsel, deviceWrite_selected buff hn (hst ▸ hsel)] at hnext
  exact hnext

/-- What reads and writes show of the selected channels. -/
theorem selected_of_indistinguishable (hs : s.Sized) (ht : t.Sized) :
    (s.selected = none ∧ t.selected = none) ∨
      ∃ c d, s.selected = some c ∧ t.selected = some d ∧ c.Alike { d with id := c.id } := by
  have hsome := isSome_of_indistinguishable h
  cases hc : s.selected with
  | none =>
    rw [hc, Option.isSome_none] at hsome
    exact Or.inl ⟨rfl, Option.not_isSome_iff_eq_none.mp (by simp [← hsome])⟩
  | some c =>
    obtain ⟨d, hd⟩ : ∃ d, t.selected = some d := by
      rw [hc] at hsome
      exact Option.isSome_iff_exists.mp hsome.symm
    have hcs := hs.selected hc
    have hds := ht.selected hd
    have hlength := length_of_reads (reads_of_indistinguishable h) hc hd hcs hds
    refine Or.inr ⟨c, d, rfl, hd, rfl, hlength, fun j hj hne => ?_⟩
    by_cases hzero : c.length = 0
    · -- a message of one byte shows the others
      have h₁ := modify_of_indistinguishable h (fun _ => 0) (n := 1) (by decide)
        (by rw [hc, Option.isSome_some])
      have hc₁ : (s.modify (·.put (fun _ => 0) 1)).selected = some (c.put (fun _ => 0) 1) := by
        rw [selected_modify, hc, Option.map_some]
      have hd₁ : (t.modify (·.put (fun _ => 0) 1)).selected = some (d.put (fun _ => 0) 1) := by
        rw [selected_modify, hd, Option.map_some]
      have hmessage := message_of_reads (reads_of_indistinguishable h₁) hc₁ hd₁
        (sized_put _ (by decide) c) (sized_put _ (by decide) d) rfl
        (show BitVec.ofNat 32 1 ≠ 0 by decide)
      have hj' : ¬ j < 1 := by
        have := hne.resolve_right (not_not_intro hzero)
        omega
      have hbyte := congrArg (fun v : Vector UInt8 BUFFER_LENGTH => v[j]) hmessage
      rw [ChannelData.getElem_put, ChannelData.getElem_put, if_neg hj', if_neg hj'] at hbyte
      exact hbyte
    · have hmessage := message_of_reads (reads_of_indistinguishable h) hc hd hcs hds hlength hzero
      simp only [hmessage]

omit h

/-- A number that no channel answers to: it has bit 31 and none above it. -/
def unanswered : BitVec 64 := BitVec.ofNat 64 (2 ^ 31)

theorem hasId_unanswered (c : ChannelData) : c.hasId unanswered = false := by
  apply beq_eq_false_iff_ne.mpr
  intro heq
  -- bits 31 and 63 of a converted `int` are its sign
  have h₃₁ := congrArg (·.getLsbD 31) heq
  have h₆₃ := congrArg (·.getLsbD 63) heq
  simp only [BitVec.getLsbD_signExtend] at h₃₁ h₆₃
  have hsign : c.id[31] = c.id.msb := by simp [BitVec.msb_eq_getLsbD_last]
  simp [unanswered] at h₃₁ h₆₃
  rw [hsign, h₆₃] at h₃₁
  cases h₃₁

theorem hasId_own (c : ChannelData) : c.hasId (c.id.signExtend 64) = true :=
  beq_self_eq_true _

theorem id_of_hasId {c : ChannelData} {i : BitVec 32} (hid : c.hasId (i.signExtend 64) = true) :
    c.id = i := by
  have heq : c.id.signExtend 64 = i.signExtend 64 := eq_of_beq hid
  apply BitVec.eq_of_getLsbD_eq
  intro j hj
  have hbit := congrArg (·.getLsbD j) heq
  simp only [BitVec.getLsbD_signExtend, if_pos hj] at hbit
  have hj' : j < 64 := by omega
  simpa [hj'] using hbit

/-- An `ioctl` without memory, on a minor that has a channel. -/
theorem deviceIoctl_started (p : BitVec 64) (f : ChannelData) (selected : Selected) :
    (Slot.started f selected).deviceIoctl none MSG_SLOT_CHANNEL p =
      if (Slot.started f selected).selected.any (·.hasId p) then
        (SUCCESS, .started f selected)
      else if f.hasId p then (SUCCESS, .started f .first)
      else (-ENOMEM, .started f .nothing) := by
  rw [deviceIoctl_eq, selectChannel_started]

/-- It fails on a minor that has none, by another error if the minor is not open. -/
theorem ioctl_unopened (p : BitVec 64) :
    (step (.ioctl none MSG_SLOT_CHANNEL p) .unopened).1 = ⟨-ENOENT, []⟩ := by
  simp only [step, deviceIoctl_eq]
  rfl

theorem ioctl_empty (p : BitVec 64) :
    (step (.ioctl none MSG_SLOT_CHANNEL p) .empty).1 = ⟨-ENOMEM, []⟩ := by
  simp only [step, deviceIoctl_eq]
  rfl

theorem deselect (f : ChannelData) (selected : Selected) :
    step (.ioctl none MSG_SLOT_CHANNEL unanswered) (.started f selected) =
      (⟨-ENOMEM, []⟩, .started f .nothing) := by
  have hany : ¬ (Slot.started f selected).selected.any (·.hasId unanswered) = true := by
    simp [hasId_unanswered]
  have hfirst : ¬ f.hasId unanswered = true := by simp [hasId_unanswered]
  simp only [step, deviceIoctl_started, if_neg hany, if_neg hfirst]

/-- The number of the listed channel is found. -/
theorem ioctl_own (f : ChannelData) (selected : Selected) :
    (step (.ioctl none MSG_SLOT_CHANNEL (f.id.signExtend 64)) (.started f selected)).1 =
      ⟨SUCCESS, []⟩ := by
  simp only [step, deviceIoctl_started, hasId_own, if_true]
  split <;> rfl

/-- The channels on the lists: deselect, and select the listed one by its number. -/
theorem first_of_indistinguishable {f f' : ChannelData} {selected selected' : Selected}
    (h : Indistinguishable step (.started f selected) (.started f' selected'))
    (hs : (Slot.started f selected).Sized) (ht : (Slot.started f' selected').Sized) :
    f.Alike f' := by
  have h₁ := h.next (.ioctl none MSG_SLOT_CHANNEL unanswered)
  rw [deselect, deselect] at h₁
  have hselect : ∀ g : ChannelData,
      step (.ioctl none MSG_SLOT_CHANNEL (f.id.signExtend 64)) (.started g .nothing) =
        if g.hasId (f.id.signExtend 64) then (⟨SUCCESS, []⟩, .started g .first)
        else (⟨-ENOMEM, []⟩, .started g .nothing) := by
    intro g
    simp only [step, deviceIoctl_started, Slot.selected, Option.any_none, Bool.false_eq_true,
      if_false]
    split <;> rfl
  have hanswer := h₁.answer (.ioctl none MSG_SLOT_CHANNEL (f.id.signExtend 64))
  have h₂ := h₁.next (.ioctl none MSG_SLOT_CHANNEL (f.id.signExtend 64))
  rw [hselect, hselect, if_pos (hasId_own f)] at hanswer h₂
  by_cases hid : f'.hasId (f.id.signExtend 64) = true
  · rw [if_pos hid] at h₂
    rcases selected_of_indistinguishable h₂ hs.first ht.first with
      ⟨hnone, -⟩ | ⟨c, d, hc, hd, halike⟩
    · cases hnone
    · cases hc
      cases hd
      exact ⟨(id_of_hasId hid).symm, halike.length, halike.message⟩
  · rw [if_neg hid] at hanswer
    exact absurd (congrArg Outcome.ret hanswer) (show SUCCESS ≠ -ENOMEM by decide)

/-- A listed and an unlisted selection: a message of another length shows the difference. -/
theorem not_first_unlisted {f f' d : ChannelData} (hs : (Slot.started f .first).Sized)
    (ht : (Slot.started f' (.unlisted d)).Sized) :
    ¬ Indistinguishable step (.started f .first) (.started f' (.unlisted d)) := by
  intro h
  have hlength := (first_of_indistinguishable h hs ht).length
  obtain ⟨n, hn, hne⟩ : ∃ n, (1 ≤ n ∧ n ≤ 128) ∧ n ≠ f.length.toNat := by
    by_cases hone : f.length.toNat = 1
    · exact ⟨2, by decide, by omega⟩
    · exact ⟨1, by decide, by omega⟩
  have h₁ : Indistinguishable step (.started (f.put (fun _ => 0) n) .first)
      (.started f' (.unlisted (d.put (fun _ => 0) n))) :=
    modify_of_indistinguishable h (fun _ => 0) hn rfl
  have hlength₁ := (first_of_indistinguishable h₁ (hs.modify _ hn.2) (ht.modify _ hn.2)).length
  rw [← hlength] at hlength₁
  apply hne
  rw [← hlength₁, ChannelData.put, BitVec.toNat_ofNat]
  omega

/-- The numbers of two unlisted selections. -/
theorem unlisted_of_indistinguishable {f f' c d : ChannelData}
    (h : Indistinguishable step (.started f (.unlisted c)) (.started f' (.unlisted d)))
    (hs : (Slot.started f (.unlisted c)).Sized) (ht : (Slot.started f' (.unlisted d)).Sized) :
    c.Alike d := by
  rcases selected_of_indistinguishable h hs ht with ⟨hnone, -⟩ | ⟨c', d', hc, hd, halike⟩
  · cases hnone
  · cases hc
    cases hd
    refine ⟨?_, halike.length, halike.message⟩
    by_contra hne
    have hid : ¬ d.hasId (c.id.signExtend 64) = true := fun hid => hne (id_of_hasId hid).symm
    have hanswer := h.answer (.ioctl none MSG_SLOT_CHANNEL (c.id.signExtend 64))
    have hnext := h.next (.ioctl none MSG_SLOT_CHANNEL (c.id.signExtend 64))
    simp only [step, deviceIoctl_started, Slot.selected, Option.any_some, hasId_own, hid,
      if_true] at hanswer hnext
    by_cases hlisted : f'.hasId (c.id.signExtend 64) = true
    · -- now the other slot has selected its listed channel
      rw [if_pos hlisted] at hnext
      exact not_first_unlisted ht.first hs hnext.symm
    · rw [if_neg hlisted] at hanswer
      exact absurd (congrArg Outcome.ret hanswer) (show SUCCESS ≠ -ENOMEM by decide)

/-- **Slots that no calls tell apart are alike.** -/
theorem alike_of_indistinguishable (h : Indistinguishable step s t) (hs : s.Sized)
    (ht : t.Sized) : s.Alike t := by
  have hopen : ∀ {v : Slot}, Indistinguishable step .unopened v → v = .unopened := by
    intro v h
    have hanswer := congrArg Outcome.ret (h.answer (.ioctl none MSG_SLOT_CHANNEL unanswered))
    rw [ioctl_unopened] at hanswer
    cases v with
    | unopened => rfl
    | empty =>
      rw [ioctl_empty] at hanswer
      exact absurd hanswer (show -ENOENT ≠ -ENOMEM by decide)
    | started f selected =>
      rw [deselect] at hanswer
      exact absurd hanswer (show -ENOENT ≠ -ENOMEM by decide)
  have hempty : ∀ {v : Slot}, Indistinguishable step .empty v → v = .empty := by
    intro v h
    cases v with
    | unopened => cases hopen h.symm
    | empty => rfl
    | started f selected =>
      have hanswer := congrArg Outcome.ret
        (h.answer (.ioctl none MSG_SLOT_CHANNEL (f.id.signExtend 64)))
      rw [ioctl_empty, ioctl_own] at hanswer
      exact absurd hanswer (show -ENOMEM ≠ SUCCESS by decide)
  cases s with
  | unopened =>
    rw [hopen h]
    exact .unopened
  | empty =>
    rw [hempty h]
    exact .empty
  | started f selected =>
    cases t with
    | unopened => cases hopen h.symm
    | empty => cases hempty h.symm
    | started f' selected' =>
      have hf := first_of_indistinguishable h hs ht
      have hsome := isSome_of_indistinguishable h
      cases selected with
      | nothing =>
        cases selected' with
        | nothing => exact .nothing hf
        | first => cases hsome
        | unlisted d => cases hsome
      | first =>
        cases selected' with
        | nothing => cases hsome
        | first => exact .first hf
        | unlisted d => exact absurd h (not_first_unlisted hs ht)
      | unlisted c =>
        cases selected' with
        | nothing => cases hsome
        | first => exact absurd h.symm (not_first_unlisted ht hs)
        | unlisted d => exact .unlisted hf (unlisted_of_indistinguishable h hs ht)

end Slot

/-! ## Driver states -/

variable {s t : State} {slots slots' : BitVec 32 → Slot}

/-- A run of calls on one minor is an experiment on its slot. -/
theorem answers_slotRun (m : BitVec 32) (calls : List Call) (slots : BitVec 32 → Slot) :
    (slotRun (calls.map fun c => (m, c)) slots).1.map Prod.snd =
      answers Slot.step calls (slots m) := by
  induction calls generalizing slots with
  | nil => rfl
  | cons c calls ih =>
    rw [List.map_cons, slotRun, List.map_cons, ih, Function.update_self, answers]

/-- Slots that are alike on every minor answer every run the same. -/
theorem slotRun_alike (halike : ∀ m, (slots m).Alike (slots' m)) (calls : List MinorCall) :
    (slotRun calls slots).1 = (slotRun calls slots').1 := by
  induction calls generalizing slots slots' with
  | nil => rfl
  | cons x calls ih =>
    obtain ⟨m, c⟩ := x
    obtain ⟨hanswer, hnext⟩ := Slot.alike_bisimulation _ _ (halike m) c
    have hupdate : ∀ m', (Function.update slots m ((slots m).step c).2 m').Alike
        (Function.update slots' m ((slots' m).step c).2 m') := by
      intro m'
      by_cases hm : m' = m
      · subst hm
        rw [Function.update_self, Function.update_self]
        exact hnext
      · rw [Function.update_of_ne hm, Function.update_of_ne hm]
        exact halike m'
    rw [slotRun, slotRun, ih hupdate, hanswer]

/-- In every reachable state the slots have messages of at most 128 bytes. -/
theorem Reachable.sized (hs : Reachable s) (m : BitVec 32) : (s.slot m).Sized := by
  have hall : ∀ m, (s.slot m).Sized := by
    apply hs.invariant
    · rw [slot_init]
      exact fun _ => nofun
    · intro s nodes m c out s' hlayout hsized hcall m'
      obtain ⟨-, hslot, hothers⟩ := moved_of_call hlayout hcall
      by_cases hm : m' = m
      · rw [hm, hslot]
        exact (hsized m).step c
      · rw [hothers m' hm]
        exact hsized m'
  exact hall m

/-- **What callers can tell apart.** Two reachable states of the driver give the same return values
and bytes in every further run, on whatever minors and with whatever memory, exactly if the slots
of every minor are alike. -/
theorem indistinguishable_iff (hs : Reachable s) (ht : Reachable t) :
    (∀ calls, (run calls s).map Prod.fst = (run calls t).map Prod.fst) ↔
      ∀ m, (s.slot m).Alike (t.slot m) := by
  obtain ⟨_, hslayout⟩ := hs.layout
  obtain ⟨_, htlayout⟩ := ht.layout
  have hrun : ∀ calls, ((run calls s).map Prod.fst = (run calls t).map Prod.fst) ↔
      (slotRun calls s.slot).1 = (slotRun calls t.slot).1 := by
    intro calls
    obtain ⟨s', hs', -⟩ := run_slots hslayout calls
    obtain ⟨t', ht', -⟩ := run_slots htlayout calls
    rw [hs', ht', Option.map_some, Option.map_some, Option.some_inj]
  simp only [hrun]
  constructor
  · intro hsame m
    refine Slot.alike_of_indistinguishable (fun calls => ?_) (hs.sized m) (ht.sized m)
    rw [← answers_slotRun m calls s.slot, ← answers_slotRun m calls t.slot, hsame]
  · exact fun halike calls => slotRun_alike halike calls

/-- A channel without a message, in memory that started with `b`. -/
def fresh (b : UInt8) : ChannelData := ⟨1, (Vector.replicate BUFFER_LENGTH 0).set 0 b, 0⟩

/-- A minor with this channel. -/
def created (b : UInt8) : State :=
  ⟨some 0, [some ⟨0, some 0, some 0, none, none⟩], [some ⟨fresh b, none, none⟩]⟩

/-- Two drivers that differ in the first byte of a channel without a message. -/
theorem indistinguishable_first_byte :
    (fresh 0).message[0] ≠ (fresh 7).message[0] ∧
      ∀ calls, (run calls (created 0)).map Prod.fst = (run calls (created 7)).map Prod.fst := by
  have hreach : ∀ b, Reachable (created b) := fun b =>
    ⟨[opens, (0, .ioctl (some ⟨fresh b, none, none⟩) MSG_SLOT_CHANNEL 1)], _, rfl⟩
  refine ⟨by decide, (indistinguishable_iff (hreach 0) (hreach 7)).mpr fun m => ?_⟩
  by_cases hm : m = 0
  · subst hm
    refine .first ⟨rfl, rfl, fun j hj hne => ?_⟩
    have hj0 : (0 : Nat) ≠ j := (hne.resolve_right (not_not_intro rfl)).symm
    have hbyte : ∀ b, (fresh b).message[j] = (Vector.replicate BUFFER_LENGTH (0 : UInt8))[j] :=
      fun b => Vector.getElem_set_ne (by decide) hj hj0
    exact (hbyte 0).trans (hbyte 7).symm
  · have hslot : ∀ b, (created b).slot m = .unopened := by
      intro b
      have hminor : ¬ 0#32 = m := fun heq => hm heq.symm
      simp [State.slot, State.node, findMinor, Heap.search, Heap.walk, created, load, hminor]
    rw [hslot, hslot]
    exact .unopened

end OsHw.Hw3
