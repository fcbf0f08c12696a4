import OsHw.Hw3.History
import OsHw.Lib.Runs

/-!
# OsHw — what a read of the message slot driver delivers

The message of a channel is what the last successful write to it stored. The copy loop of
`deviceRead` is bounded by the caller's length and by the end of `message`, not by the length of
the message, so behind the message it delivers what older messages, or the memory before them,
have left.

* **`noteWrite`** — a history variable: the last message written to each channel.
* **`call_written`** — every selected channel with a message holds it, call by call.
* **`read_exact_iff`** — a read with room for the message delivers exactly the message if and only
  if there is no more room than that.
-/

namespace OsHw.Hw3

open Heap (Ptr load)
open Runs

variable {s s' : State} {nodes : List (Nat × MinorList)} {m : BitVec 32} {c : Call} {out : Outcome}
  {a b : Nat} {d : Channel} {w : List UInt8}

/-- One call of a run. -/
def step (x : MinorCall) (s : State) : Option State := (call x.1 x.2 s).map Prod.snd

/-- The last message written to each channel. A call that writes has a buffer, a selected channel,
and returns no error. -/
def noteWrite (x : MinorCall) (s : State) (written : Nat → Option (List UInt8)) :
    Nat → Option (List UInt8) :=
  match x.2, s.curr x.1, call x.1 x.2 s with
  | .write (some buff) len, some b, some (out, _) =>
    if 0 ≤ out.ret then Function.update written b (some ((List.range len.toNat).map buff))
    else written
  | _, _, _ => written

/-- The history of a call that is no write. -/
theorem noteWrite_of_ne (written : Nat → Option (List UInt8))
    (hc : ∀ buff len, c ≠ .write buff len) : noteWrite (m, c) s written = written := by
  unfold noteWrite
  split
  · next heq _ _ => exact absurd heq (hc _ _)
  · rfl

/-- The history of a write that is refused. -/
theorem noteWrite_of_refused (written : Nat → Option (List UInt8))
    (hcall : call m c s = some (out, s')) (hret : out.ret < 0) :
    noteWrite (m, c) s written = written := by
  unfold noteWrite
  split
  · next hout =>
    rw [hcall] at hout
    cases hout
    exact if_neg (by omega)
  · rfl

/-- The channels hold the messages of the history. -/
def Holding (s : State) (written : Nat → Option (List UInt8)) : Prop :=
  ∀ b w, written b = some w → ∃ c, load s.channelHeap b = some c ∧ c.Holds w ∧
    1 ≤ w.length ∧ w.length ≤ 128

/-- What keeps the data of the channels that there are keeps the messages. -/
theorem Holding.keep {written : Nat → Option (List UInt8)} (h : Holding s written)
    (hkeep : ∀ b d, load s.channelHeap b = some d → ∃ d', load s'.channelHeap b = some d' ∧
      d'.toChannelData = d.toChannelData) : Holding s' written := by
  intro b w hw
  obtain ⟨c, hc, hholds, hlen⟩ := h b w hw
  obtain ⟨c', hc', hdata⟩ := hkeep b c hc
  exact ⟨c', hc', by rw [hdata]; exact hholds, hlen⟩

/-- A call that is no write keeps the data of every channel. -/
theorem Effect.data (h : Effect s nodes m c out s') (hc : ∀ buff len, c ≠ .write buff len)
    (hb : load s.channelHeap b = some d) :
    ∃ d', load s'.channelHeap b = some d' ∧ d'.toChannelData = d.toChannelData := by
  cases h with
  | read | unopened | kept | selected | dropped => exact ⟨d, hb, rfl⟩
  | opened _ hopened =>
    rw [hopened.channelHeap]
    exact ⟨d, hb, rfl⟩
  | refused buff len => exact absurd rfl (hc buff len)
  | @wrote _ _ _ _ _ _ buff len => exact absurd rfl (hc (some buff) len)
  | first => exact ⟨d, Heap.load_append_of_load hb, rfl⟩
  | @further _ _ _ f _ _ _ _ _ _ _ hf =>
    by_cases hfb : f = b
    · -- the first channel gets a back link
      subst hfb
      rw [hf] at hb
      cases hb
      exact ⟨_, Heap.load_append_of_load (Heap.load_set_self (Heap.load_lt hf)), rfl⟩
    · refine ⟨d, Heap.load_append_of_load ?_, rfl⟩
      rw [Heap.load_set_of_ne hfb, hb]

/-- **One call** keeps the channels holding their messages. -/
theorem call_written {written : Nat → Option (List UInt8)} (h : Layout s nodes)
    (hw : Holding s written) (hcall : call m c s = some (out, s')) :
    Holding s' (noteWrite (m, c) s written) := by
  have heffect := effect_of_call h hcall
  by_cases hc : ∀ buff len, c ≠ .write buff len
  · rw [noteWrite_of_ne written hc]
    exact hw.keep fun b d hb => heffect.data hc hb
  · push Not at hc
    obtain ⟨buff, len, rfl⟩ := hc
    cases heffect with
    | refused _ _ hret =>
      rw [noteWrite_of_refused written hcall hret]
      exact hw
    | @wrote pre post a b n e buff len hsplit hm hcurr hb hlen =>
      subst hsplit hm
      have hsel : s.curr n.minor = some b := (h.curr_found rfl).trans hcurr
      have hnote : noteWrite (n.minor, .write (some buff) len) s written =
          Function.update written b (some ((List.range len.toNat).map buff)) := by
        unfold noteWrite
        rw [hsel, hcall]
        exact if_pos (Int.natCast_nonneg len.toNat)
      rw [hnote]
      intro b' w hw'
      by_cases hbb : b = b'
      · subst hbb
        rw [Function.update_self] at hw'
        cases hw'
        refine ⟨e.mapData (·.put buff len.toNat), Heap.load_set_self (Heap.load_lt hb),
          ChannelData.put_holds buff e.toChannelData hlen.2, ?_⟩
        rw [List.length_map, List.length_range]
        exact hlen
      · rw [Function.update_of_ne (Ne.symm hbb)] at hw'
        obtain ⟨e', he', hholds⟩ := hw b' w hw'
        refine ⟨e', ?_, hholds⟩
        rw [Heap.load_set_of_ne hbb, he']

/-- **Every run** keeps the channels holding their messages. -/
theorem holding_of_reaches {written : Nat → Option (List UInt8)}
    (h : Reaches (withGhost step noteWrite) (fun _ _ => True) (State.init, fun _ => none)
      (s, written)) : (∃ nodes, Layout s nodes) ∧ Holding s written := by
  refine h.invariant (I := fun x => (∃ nodes, Layout x.1 nodes) ∧ Holding x.1 x.2) ?_ ?_
  · refine ⟨⟨[], .init⟩, ?_⟩
    intro b w hw
    cases hw
  · rintro ⟨m, c⟩ ⟨s, written⟩ ⟨s', written'⟩ ⟨⟨nodes, hlayout⟩, hholding⟩ - hst
    obtain ⟨t, ht, heq⟩ := Option.map_eq_some_iff.mp hst
    obtain ⟨⟨out, t⟩, hcall, rfl⟩ := Option.map_eq_some_iff.mp ht
    cases heq
    exact ⟨(moved_of_call hlayout hcall).1, call_written hlayout hholding hcall⟩

/-- **Reads.** On a minor that has selected a channel with a message, a read with room for it
delivers the message, and nothing else, exactly if its buffer ends where the message does. -/
theorem read_exact_iff {written : Nat → Option (List UInt8)}
    (hrun : Reaches (withGhost step noteWrite) (fun _ _ => True) (State.init, fun _ => none)
      (s, written)) (hcurr : s.curr m = some b) (hw : written b = some w) (len : BitVec 64)
    (hlen : w.length ≤ len.toNat) :
    (1 ≤ w.length ∧ w.length ≤ 128) ∧
      (call m (.read len) s = some (⟨w.length, w⟩, s) ↔ len.toNat = w.length) := by
  obtain ⟨⟨nodes, h⟩, hholding⟩ := holding_of_reaches hrun
  obtain ⟨d, hd, ⟨hlength, hcontents⟩, hpos, hle⟩ := hholding b w hw
  refine ⟨⟨hpos, hle⟩, ?_⟩
  have hB : BUFFER_LENGTH = 129 := rfl
  have hsel : (s.slot m).selected = some d.toChannelData := h.selected_load hcurr hd
  have hnonempty : d.length ≠ 0 := by
    intro hzero
    rw [hzero] at hlength
    simp at hlength
    omega
  have hroom : ¬ len.ult (d.length.signExtend 64) = true := by
    rw [ChannelData.ult_length_iff (c := d.toChannelData) (hlength.trans_le hle)]
    exact not_lt.mpr (hlength.trans_le hlen)
  have hread : call m (.read len) s =
      some (⟨(min len.toNat BUFFER_LENGTH : Nat), d.message.toList.take len.toNat⟩, s) := by
    rw [call, deviceRead_eq h]
    simp only [Slot.deviceRead, hsel, if_neg hnonempty, if_neg hroom, Option.map_some]
  rw [hread]
  constructor
  · intro heq
    have hret := congrArg (fun x => x.1.ret) (Option.some.inj heq)
    dsimp only at hret
    omega
  · intro heq
    unfold ChannelData.contents at hcontents
    rw [hlength] at hcontents
    rw [heq, hcontents, min_eq_left (by omega)]

/-- A read of one byte delivers the message "a". -/
theorem read_exact :
    ∃ s, call 0 (.read 1) s = some (⟨1, [97]⟩, s) := by
  have hrun : Runs.run (withGhost step noteWrite) [opens, selects 1, writes]
      (State.init, fun _ => none) = some _ := rfl
  have hreaches := reaches_of_run (P := fun _ _ => True) (fun _ _ _ => trivial) hrun
  exact ⟨_, (read_exact_iff (m := 0) (b := 0) (w := [97]) hreaches rfl rfl 1 (by decide)).2.mpr rfl⟩

/-- A reader with room for two bytes gets two: the second one was never written. -/
theorem read_too_much :
    ¬ ∀ (s : State) (written : Nat → Option (List UInt8)) (m : BitVec 32) (b : Nat)
      (w : List UInt8) (len : BitVec 64),
      Reaches (withGhost step noteWrite) (fun _ _ => True) (State.init, fun _ => none)
        (s, written) → s.curr m = some b → written b = some w → w.length ≤ len.toNat →
      call m (.read len) s = some (⟨w.length, w⟩, s) := by
  intro h
  have hrun : Runs.run (withGhost step noteWrite) [opens, selects 1, writes]
      (State.init, fun _ => none) = some _ := rfl
  have hreaches := reaches_of_run (P := fun _ _ => True) (fun _ _ _ => trivial) hrun
  have hread := h _ _ 0 0 [97] 2 hreaches rfl rfl (by decide)
  have hret := congrArg (Option.map fun x => x.1.ret) hread
  exact absurd hret (by decide)

end OsHw.Hw3
