import OsHw.Hw3.Programs

/-!
# OsHw — `message_sender.c` on the driver

A variant of the writer in which the `ioctl` is commented out: the channel number is read and not
used, `ret_val` is tested before anything is assigned to it, and the result of `write` is compared
with `SUCCESS`, which is 0.

* **`messageSender`** — the program, on any system that answers its calls.
* **`Slot.Accepts`** — the slots on which its message is stored.
* **`messageSender_reports`** — on the driver it always reports a failure, and stores its message
  in whatever channel the minor has selected, and nowhere else.
-/

namespace OsHw.Hw3

/-! ## The program -/

/-- `main` of `message_sender.c` with all its arguments. `ret_val` is what the variable holds when
it is tested, `errno` what the last failure in the process has left there. -/
def messageSender {σ : Type} (driver : Call → σ → Option (Outcome × σ)) (memory : Memory)
    (strerror : Int → List UInt8) (ret_val errno : Int) (argv3 : List UInt8) (s : σ) :
    Option (Exit × σ) :=
  (driver (.open memory.minor) s).bind fun (fd, s) =>
    if fd.ret < 0 then
      some (⟨-1, text "Couldn't open the file, " ++ strerror (-fd.ret) ++ text "\n"⟩, s)
    else if ret_val < 0 then
      some (⟨-1, text "Error in ioctl: " ++ strerror errno ++ text "\n"⟩, s)
    else
      (driver (.write (some (byteAt argv3)) (BitVec.ofNat 64 argv3.length)) s).bind
        fun (written, s) =>
          -- the number of bytes written is not `SUCCESS`, and sets no `errno`
          if written.ret ≠ SUCCESS then
            let errno := if written.ret < 0 then -written.ret else errno
            some (⟨-1, text "Failed writing : " ++ strerror errno ++ text "\n"⟩, s)
          else some (⟨0, []⟩, s)

/-! ## On the driver -/

open Simulation

variable {s : State} {m : BitVec 32} {slot : Slot} {argv3 : List UInt8}

theorem messageSender_related {others : BitVec 32 → Slot} (h : Shows others m s slot)
    (memory : Memory) (strerror : Int → List UInt8) (ret_val errno : Int) (argv3 : List UInt8) :
    Related (Shows others m) (messageSender (call m) memory strerror ret_val errno argv3 s)
      (messageSender Slot.call memory strerror ret_val errno argv3 slot) := by
  apply (call_related h _).bind
  intro fd s slot h
  apply Related.ite
  · exact .returns h
  apply Related.ite
  · exact .returns h
  apply (call_related h _).bind
  intro written s slot h
  apply Related.ite
  · exact .returns h
  · exact .returns h

/-- A slot that selects a channel, and a string that fits in it. -/
def Slot.Accepts (slot : Slot) (argv3 : List UInt8) : Prop :=
  slot.selected.isSome = true ∧ 1 ≤ argv3.length ∧ argv3.length ≤ 128

instance (slot : Slot) (argv3 : List UInt8) : Decidable (slot.Accepts argv3) :=
  inferInstanceAs (Decidable (_ ∧ _ ∧ _))

/-- No write returns `SUCCESS`. -/
theorem Slot.deviceWrite_ne_success (buff : Option (Nat → UInt8)) (len : BitVec 64)
    (slot : Slot) : (slot.deviceWrite buff len).1 ≠ SUCCESS := by
  have hE : EINVAL = 22 := rfl
  have hS : SUCCESS = 0 := rfl
  unfold deviceWrite
  split
  · omega
  · split
    · dsimp only
      omega
    · dsimp only
      omega

/-- A write of a string. -/
theorem Slot.deviceWrite_string (hlen : argv3.length < 2 ^ 64) (slot : Slot) :
    (slot.Accepts argv3 → slot.deviceWrite (some (byteAt argv3)) (BitVec.ofNat 64 argv3.length) =
        ((argv3.length : Int), slot.modify (·.put (byteAt argv3) argv3.length))) ∧
      (¬ slot.Accepts argv3 →
        slot.deviceWrite (some (byteAt argv3)) (BitVec.ofNat 64 argv3.length) =
          (-EINVAL, slot)) := by
  have htoNat : (BitVec.ofNat 64 argv3.length).toNat = argv3.length := by
    rw [BitVec.toNat_ofNat, Nat.mod_eq_of_lt hlen]
  rw [deviceWrite, htoNat]
  constructor
  · intro h
    rw [if_pos ⟨h.2.1, h.2.2, h.1⟩]
  · intro h
    rw [if_neg fun hok => h ⟨hok.2.2, hok.1, hok.2.1⟩]

/-- What opening a minor leaves: a slot that selects something was open. -/
theorem Slot.deviceOpen_accepts (argv3 : List UInt8) (kmalloc : Option MinorList) (slot : Slot) :
    ((slot.deviceOpen kmalloc).2.Accepts argv3 ↔ slot.Accepts argv3) ∧
      (slot.Accepts argv3 → slot.deviceOpen kmalloc = (SUCCESS, slot)) := by
  cases slot with
  | unopened => cases kmalloc <;> simp [Accepts, deviceOpen, Slot.selected]
  | empty => exact ⟨Iff.rfl, fun _ => rfl⟩
  | started first selected => exact ⟨Iff.rfl, fun _ => rfl⟩

variable (strerror : Int → List UInt8) (ret_val errno : Int)

/-- The sender on one slot. -/
theorem messageSender_slot (hlen : argv3.length < 2 ^ 64) (memory : Memory) (slot : Slot) :
    ∃ e, messageSender Slot.call memory strerror ret_val errno argv3 slot =
        some (e, if 0 ≤ ret_val ∧ slot.Accepts argv3 then
          slot.modify (·.put (byteAt argv3) argv3.length)
        else (slot.deviceOpen memory.minor).2) ∧ e.status = -1 ∧
      (0 ≤ ret_val → slot.Accepts argv3 →
        e.stdout = text "Failed writing : " ++ strerror errno ++ text "\n") := by
  obtain ⟨hopen, hopened⟩ := Slot.deviceOpen_accepts argv3 memory.minor slot
  simp only [messageSender, Slot.call, Slot.step, Option.bind_some]
  by_cases hfd : (slot.deviceOpen memory.minor).1 < 0
  · have hno : ¬ slot.Accepts argv3 := by
      intro hacc
      rw [hopened hacc] at hfd
      exact absurd hfd (show ¬ SUCCESS < 0 by decide)
    rw [if_pos hfd, if_neg fun h => hno h.2]
    exact ⟨_, rfl, rfl, fun _ hacc => absurd hacc hno⟩
  · rw [if_neg hfd]
    by_cases hret : ret_val < 0
    · rw [if_pos hret, if_neg fun h => absurd h.1 (by omega)]
      exact ⟨_, rfl, rfl, fun h => absurd h (by omega)⟩
    · rw [if_neg hret]
      have hfails := Slot.deviceWrite_ne_success (some (byteAt argv3))
        (BitVec.ofNat 64 argv3.length) (slot.deviceOpen memory.minor).2
      obtain ⟨hstored, hrefused⟩ :=
        Slot.deviceWrite_string hlen (slot.deviceOpen memory.minor).2
      rw [if_pos hfails]
      by_cases hacc : slot.Accepts argv3
      · have hsent : 0 ≤ ret_val ∧ slot.Accepts argv3 := ⟨by omega, hacc⟩
        rw [if_pos hsent, hstored (hopen.mpr hacc), hopened hacc]
        refine ⟨_, rfl, rfl, fun _ _ => ?_⟩
        dsimp only
        rw [if_neg (by omega)]
      · have hsent : ¬ (0 ≤ ret_val ∧ slot.Accepts argv3) := fun h => hacc h.2
        rw [if_neg hsent, hrefused (hopen.not.mpr hacc)]
        exact ⟨_, rfl, rfl, fun _ h => absurd h hacc⟩

/-- **The sender always reports a failure**, in every reachable state and whatever its variable
holds. If that is not negative, and the string has 1 to 128 bytes, it has stored it all the same, in
whatever channel the minor has selected; otherwise it has opened the minor and nothing else. The
other minors are what they were. -/
theorem messageSender_reports (hs : Reachable s) (m : BitVec 32)
    (hlen : argv3.length < 2 ^ 64) (memory : Memory) :
    ∃ e s', messageSender (call m) memory strerror ret_val errno argv3 s = some (e, s') ∧
      e.status = -1 ∧ s'.slot m =
        (if 0 ≤ ret_val ∧ (s.slot m).Accepts argv3 then
          (s.slot m).modify (·.put (byteAt argv3) argv3.length)
        else ((s.slot m).deviceOpen memory.minor).2) ∧
      (∀ minor, minor ≠ m → s'.slot minor = s.slot minor) ∧
      (0 ≤ ret_val → (s.slot m).Accepts argv3 →
        e.stdout = text "Failed writing : " ++ strerror errno ++ text "\n") := by
  obtain ⟨e, hslot, hstatus, hstdout⟩ :=
    messageSender_slot strerror ret_val errno hlen memory (s.slot m)
  have hrelated := messageSender_related (hs.shows m) memory strerror ret_val errno argv3
  rw [hslot] at hrelated
  obtain ⟨s', hrun, -, hslot', hothers⟩ := hrelated.exists_left
  exact ⟨e, s', hrun, hstatus, hslot', hothers, hstdout⟩

/-- The message "a" is stored in the selected channel, and the program returns -1. -/
theorem messageSender_letter :
    ∃ s e s', Reachable s ∧
      messageSender (call 0) zeroMemory (fun _ => []) 0 0 [97] s = some (e, s') ∧
      e.status = -1 ∧ (s'.slot 0).selected.map ChannelData.contents = some [97] := by
  have hreach : Reachable _ := ⟨[opens, selects 1], _, rfl⟩
  have hlen : ([97] : List UInt8).length < 2 ^ 64 := by decide
  obtain ⟨e, s', hrun, hstatus, hslot, -⟩ :=
    messageSender_reports (fun _ => []) 0 0 hreach 0 hlen zeroMemory
  refine ⟨_, e, s', hreach, hrun, hstatus, ?_⟩
  rw [hslot]
  rfl

end OsHw.Hw3
