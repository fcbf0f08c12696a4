import OsHw.Hw3.Delivery
import Mathlib.Data.List.GetD

/-!
# OsHw — where the bytes come from that the message slot driver delivers

A channel's `message` array is never cleared: it starts with what its memory held before, every
write replaces its first bytes, and a read delivers as many of them as its caller asks for.

* **`Trail`** — the history of one channel: the bytes of its memory, and the messages written to
  it since.
* **`Trail.byte`** — a byte of the array in terms of the history: that of the last message long
  enough, else what the memory held.
* **`Trail.read`** — what a read returns in terms of the history, its error codes included.
* **`read_traced`** — after every run, every read returns exactly that.
-/

namespace OsHw.Hw3

open Heap (Ptr load)
open Runs

/-! ## Histories -/

/-- What a channel was made of: the array as it was allocated, and the messages written to it, the
last one first. -/
structure Trail where
  memory : Vector UInt8 BUFFER_LENGTH
  writes : List (List UInt8)

namespace Trail

/-- The last message that is longer than `j` decides byte `j`. -/
def byte (t : Trail) (j : Fin BUFFER_LENGTH) : UInt8 :=
  match t.writes.find? (fun w => j.val < w.length) with
  | some w => w.getD j 0
  | none => t.memory.get j

def write (w : List UInt8) (t : Trail) : Trail := { t with writes := w :: t.writes }

theorem byte_write (w : List UInt8) (t : Trail) (j : Fin BUFFER_LENGTH) :
    (t.write w).byte j = if j.val < w.length then w.getD j 0 else t.byte j := by
  by_cases hj : j.val < w.length
  · rw [if_pos hj]
    unfold byte write
    rw [List.find?_cons_of_pos (p := fun v : List UInt8 => decide (j.val < v.length))
      (decide_eq_true hj)]
  · rw [if_neg hj]
    unfold byte write
    rw [List.find?_cons_of_neg (p := fun v : List UInt8 => decide (j.val < v.length))
      (by simpa using hj)]

/-- What a read returns, on a minor whose selected channel has this history. -/
def read (t : Option Trail) (len : BitVec 64) : Outcome :=
  match t with
  | none => ⟨-EINVAL, []⟩
  | some t =>
    match t.writes with
    | [] => ⟨-EWOULDBLOCK, []⟩
    | w :: _ =>
      if len.toNat < w.length then ⟨-ENOSPC, []⟩
      else ⟨(min len.toNat BUFFER_LENGTH : Nat), (List.ofFn t.byte).take len.toNat⟩

end Trail

/-- The histories of all channels, by their addresses. An `ioctl` that makes the heap grow has
created a channel; a write that returns no error is one to the selected channel. -/
def noteTrail (x : MinorCall) (s : State) (trails : Nat → Option Trail) : Nat → Option Trail :=
  match x.2, call x.1 x.2 s with
  | .ioctl (some memory) _ _, some (_, s') =>
    if s.channelHeap.length < s'.channelHeap.length then
      Function.update trails s.channelHeap.length (some ⟨memory.message, []⟩)
    else trails
  | .write (some buff) len, some (out, _) =>
    match s.curr x.1 with
    | some b =>
      if 0 ≤ out.ret then
        Function.update trails b ((trails b).map (·.write ((List.range len.toNat).map buff)))
      else trails
    | none => trails
  | _, _ => trails

/-! ## Channels and their histories -/

variable {s s' : State} {nodes : List (Nat × MinorList)} {m : BitVec 32} {c : Call} {out : Outcome}
  {trails : Nat → Option Trail} {t : Trail} {d : ChannelData} {w : List UInt8}

/-- The channel is what its history makes of it. -/
structure Trail.Made (t : Trail) (d : ChannelData) : Prop where
  message : d.message = Vector.ofFn t.byte
  length : d.length.toNat = (t.writes.head?.map List.length).getD 0
  bounded : ∀ w ∈ t.writes, 1 ≤ w.length ∧ w.length ≤ 128

theorem Trail.made_create (p : BitVec 64) (memory : ChannelData) :
    Trail.Made ⟨memory.message, []⟩ (.create p memory) where
  message := by
    ext j hj
    rw [Vector.getElem_ofFn]
    rfl
  length := rfl
  bounded _ hw := nomatch hw

theorem Trail.Made.put (h : t.Made d) (buff : Nat → UInt8) {len : BitVec 64}
    (hlen : 1 ≤ len.toNat ∧ len.toNat ≤ 128) :
    (t.write ((List.range len.toNat).map buff)).Made (d.put buff len.toNat) where
  message := by
    ext j hj
    rw [Vector.getElem_ofFn, byte_write, List.length_map, List.length_range]
    rw [ChannelData.put, Vector.getElem_ofFn]
    dsimp only
    by_cases hjn : j < len.toNat
    · rw [if_pos hjn, if_pos hjn, List.getD_eq_getElem _ _ (by simpa using hjn),
        List.getElem_map, List.getElem_range]
    · rw [if_neg hjn, if_neg hjn, Fin.getElem_fin, h.message, Vector.getElem_ofFn]
  length := by
    rw [write, List.head?_cons, Option.map_some, Option.getD_some, List.length_map,
      List.length_range, ChannelData.put, BitVec.toNat_ofNat]
    omega
  bounded w hw := by
    rcases List.mem_cons.mp hw with rfl | hw
    · rw [List.length_map, List.length_range]
      exact hlen
    · exact h.bounded w hw

/-- Every channel is what its history makes of it. -/
def Traced (s : State) (trails : Nat → Option Trail) : Prop :=
  ∀ b c, load s.channelHeap b = some c → ∃ t, trails b = some t ∧ t.Made c.toChannelData

/-- A call that is no write and creates no channel leaves the histories as they are. -/
theorem noteTrail_of_kept (trails : Nat → Option Trail) (hcall : call m c s = some (out, s'))
    (hwrite : ∀ buff len, c = .write buff len → out.ret < 0)
    (hlength : s'.channelHeap.length ≤ s.channelHeap.length) :
    noteTrail (m, c) s trails = trails := by
  unfold noteTrail
  dsimp only
  rw [hcall]
  split
  · next heq =>
    cases heq
    exact if_neg (by omega)
  · next heq =>
    cases heq
    split
    · exact if_neg (by have := hwrite _ _ rfl; omega)
    · rfl
  · rfl

theorem noteTrail_of_created {memory : Channel} {cmd : BitVec 32} {p : BitVec 64}
    (trails : Nat → Option Trail)
    (hcall : call m (.ioctl (some memory) cmd p) s = some (out, s'))
    (hlength : s.channelHeap.length < s'.channelHeap.length) :
    noteTrail (m, .ioctl (some memory) cmd p) s trails =
      Function.update trails s.channelHeap.length (some ⟨memory.message, []⟩) := by
  unfold noteTrail
  dsimp only
  rw [hcall]
  exact if_pos hlength

theorem noteTrail_of_written {buff : Nat → UInt8} {len : BitVec 64} {b : Nat}
    (trails : Nat → Option Trail) (hcall : call m (.write (some buff) len) s = some (out, s'))
    (hcurr : s.curr m = some b) (hret : 0 ≤ out.ret) :
    noteTrail (m, .write (some buff) len) s trails =
      Function.update trails b ((trails b).map (·.write ((List.range len.toNat).map buff))) := by
  unfold noteTrail
  dsimp only
  rw [hcall, hcurr]
  exact if_pos hret

/-- A fresh cell gets the history of the channel created in it. -/
theorem Traced.created {ch : List (Option Channel)} {minorHeap : List (Option MinorList)}
    {memory new : Channel} {p : BitVec 64} (h : Traced s trails)
    (hkeep : ∀ b c, load ch b = some c → ∃ c', load s.channelHeap b = some c' ∧
      c'.toChannelData = c.toChannelData) (hlength : ch.length = s.channelHeap.length)
    (hnew : new.toChannelData = .create p memory.toChannelData) :
    Traced { s with minorHeap, channelHeap := ch ++ [some new] }
      (Function.update trails s.channelHeap.length (some ⟨memory.message, []⟩)) := by
  intro b c hb
  by_cases hlt : b < ch.length
  · rw [Function.update_of_ne (by omega)]
    rw [Heap.load_append_of_lt hlt] at hb
    obtain ⟨c', hc', hdata⟩ := hkeep b c hb
    rw [← hdata]
    exact h b c' hc'
  · have hbound := Heap.load_lt hb
    rw [List.length_append, List.length_singleton] at hbound
    obtain rfl : b = ch.length := by omega
    rw [Heap.load_append_new] at hb
    cases hb
    rw [hlength, Function.update_self, hnew]
    exact ⟨_, rfl, Trail.made_create p memory.toChannelData⟩

/-- A call that changes no channel's data and creates none. -/
theorem Traced.kept (h : Traced s trails) (hheap : s'.channelHeap = s.channelHeap)
    (hcall : call m c s = some (out, s'))
    (hwrite : ∀ buff len, c = .write buff len → out.ret < 0) :
    Traced s' (noteTrail (m, c) s trails) := by
  rw [noteTrail_of_kept trails hcall hwrite (by rw [hheap])]
  intro b d hb
  rw [hheap] at hb
  exact h b d hb

/-- **One call** keeps every channel what its history makes of it. -/
theorem Traced.next (hs : Layout s nodes) (h : Traced s trails)
    (hcall : call m c s = some (out, s')) : Traced s' (noteTrail (m, c) s trails) := by
  cases effect_of_call hs hcall with
  | read | unopened | kept | selected | dropped => exact h.kept rfl hcall nofun
  | opened _ hopened => exact h.kept hopened.channelHeap hcall nofun
  | refused buff len hret => exact h.kept rfl hcall fun _ _ _ => hret
  | @wrote pre post a b n e buff len hsplit hm hcurr hb hlen =>
    subst hsplit hm
    rw [noteTrail_of_written trails hcall ((hs.curr_found rfl).trans hcurr)
      (Int.natCast_nonneg _)]
    obtain ⟨t, ht, hmade⟩ := h b e hb
    intro b' d hb'
    by_cases hbb : b = b'
    · subst hbb
      rw [Heap.load_set_self (Heap.load_lt hb)] at hb'
      cases hb'
      rw [Function.update_self, ht]
      exact ⟨_, rfl, hmade.put buff hlen⟩
    · rw [Heap.load_set_of_ne hbb] at hb'
      rw [Function.update_of_ne (Ne.symm hbb)]
      exact h b' d hb'
  | @first pre post a n p memory =>
    rw [noteTrail_of_created trails hcall (by simp)]
    exact h.created (fun b d hb => ⟨d, hb, rfl⟩) rfl rfl
  | @further pre post a f n e p memory hsplit hm hchannels hf =>
    rw [noteTrail_of_created trails hcall (by simp)]
    refine h.created (fun b d hb => ?_) (List.length_set ..) rfl
    by_cases hfb : f = b
    · -- the first channel gets a back link
      subst hfb
      rw [Heap.load_set_self (Heap.load_lt hf)] at hb
      cases hb
      exact ⟨e, hf, rfl⟩
    · rw [Heap.load_set_of_ne hfb] at hb
      exact ⟨d, hb, rfl⟩

/-- **Every run** keeps every channel what its history makes of it. -/
theorem traced_of_reaches (h : Reaches (withGhost step noteTrail) (fun _ _ => True)
    (State.init, fun _ => none) (s, trails)) : (∃ nodes, Layout s nodes) ∧ Traced s trails := by
  refine h.invariant (I := fun x => (∃ nodes, Layout x.1 nodes) ∧ Traced x.1 x.2) ?_ ?_
  · refine ⟨⟨[], .init⟩, ?_⟩
    intro b c hb
    cases hb
  · rintro ⟨m, c⟩ ⟨s, trails⟩ ⟨s', trails'⟩ ⟨⟨nodes, hlayout⟩, htraced⟩ - hst
    obtain ⟨t, ht, heq⟩ := Option.map_eq_some_iff.mp hst
    obtain ⟨⟨out, t⟩, hcall, rfl⟩ := Option.map_eq_some_iff.mp ht
    cases heq
    exact ⟨(moved_of_call hlayout hcall).1, htraced.next hlayout hcall⟩

/-! ## Reads -/

/-- A read of a channel in terms of its history. -/
theorem Trail.Made.read {slot : Slot} (h : t.Made d) (hsel : slot.selected = some d)
    (len : BitVec 64) :
    slot.deviceRead len = ((Trail.read (some t) len).ret, (Trail.read (some t) len).delivered) := by
  unfold Slot.deviceRead Trail.read
  rw [hsel]
  dsimp only
  cases hw : t.writes with
  | nil =>
    have hzero : d.length.toNat = 0 := by
      rw [h.length, hw]
      rfl
    rw [if_pos (BitVec.eq_of_toNat_eq hzero)]
  | cons w rest =>
    have hlength : d.length.toNat = w.length := by
      rw [h.length, hw]
      rfl
    obtain ⟨hpos, hle⟩ := h.bounded w (by simp [hw])
    have hnonzero : d.length ≠ 0 := by
      intro hzero
      rw [hzero] at hlength
      simp at hlength
      omega
    have hroom : len.ult (d.length.signExtend 64) = true ↔ len.toNat < w.length := by
      rw [← hlength]
      exact ChannelData.ult_length_iff (hlength.trans_le hle)
    rw [if_neg hnonzero]
    dsimp only
    by_cases hlen : len.toNat < w.length
    · rw [if_pos (hroom.mpr hlen), if_pos hlen]
    · rw [if_neg (hroom.not.mpr hlen), if_neg hlen, h.message, Vector.toList_ofFn]

/-- **What reads return.** After every run, with whatever the memory of new channels held, a read
on any minor returns what the history of the selected channel says: an error, or the bytes of the
array as the messages since the channel was created, and the memory behind them, left it. -/
theorem read_traced (hrun : Reaches (withGhost step noteTrail) (fun _ _ => True)
    (State.init, fun _ => none) (s, trails)) (m : BitVec 32) (len : BitVec 64) :
    call m (.read len) s = some (Trail.read ((s.curr m).bind trails) len, s) := by
  obtain ⟨⟨nodes, h⟩, htraced⟩ := traced_of_reaches hrun
  rw [call, deviceRead_eq h]
  cases hcurr : s.curr m with
  | none =>
    have hsel := (h.curr_eq_none m).mp hcurr
    simp only [Slot.deviceRead, hsel]
    rfl
  | some b =>
    obtain ⟨c, hc⟩ : ∃ c, load s.channelHeap b = some c := by
      have hsome : (s.slot m).selected ≠ none := by
        rw [ne_eq, ← h.curr_eq_none m, hcurr]
        exact Option.some_ne_none b
      rw [h.selected_eq, ne_eq, Option.map_eq_none_iff, State.selected, hcurr] at hsome
      exact Option.ne_none_iff_exists'.mp hsome
    obtain ⟨t, ht, hmade⟩ := htraced b c hc
    rw [hmade.read (h.selected_load hcurr hc), Option.bind_some, ht]
    rfl

/-- The messages "bb" and "a", one over the other, in memory that was zero: a read of four bytes
delivers "ab" and two bytes of the memory. -/
theorem read_of_four :
    ∃ s, call 0 (.read 4) s = some (⟨4, [97, 98, 0, 0]⟩, s) := by
  have hrun : Runs.run (withGhost step noteTrail)
      [opens, selects 1, (0, .write (some fun _ => 98) 2), writes]
      (State.init, fun _ => none) = some _ := rfl
  have hreaches := reaches_of_run (P := fun _ _ => True) (fun _ _ _ => trivial) hrun
  exact ⟨_, (read_traced hreaches 0 4).trans rfl⟩

end OsHw.Hw3
