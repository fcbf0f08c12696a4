import OsHw.Hw3.Layout

/-!
# OsHw — the message slot driver refines one slot for each minor

* **`Effect`**, **`call_effect`** — all that a call can do to a well-linked heap.
* **`call_moved`** — in a well-linked heap every call has a result, the one `Slot.step` gives
  for the minor's slot; the heap stays well linked and the other minors keep their slots.
* **`run_slots`** — the same for every run from `deviceInit` on.
* **`minors_isolated`** — a run seen from one minor is the run of the calls on this minor alone.
-/

namespace OsHw.Hw3

open Heap (Ptr Chain load)

variable {s s' : State} {nodes : List (Nat × MinorList)} {m : BitVec 32}

theorem viewSlot_ne_unopened (ch : List (Option Channel)) (channels curr : Ptr) :
    viewSlot ch channels curr ≠ .unopened := by
  unfold viewSlot
  split
  · nofun
  · split <;> nofun

theorem Slot.deviceOpen_of_ne {slot : Slot} (hslot : slot ≠ .unopened)
    (kmalloc : Option MinorList) : slot.deviceOpen kmalloc = (SUCCESS, slot) := by
  cases slot with
  | unopened => exact absurd rfl hslot
  | empty => cases kmalloc <;> rfl
  | started first selected => cases kmalloc <;> rfl

/-! ## Effects -/

/-- The channel that `initChannel` leaves in a fresh node. -/
def Channel.created (p : BitVec 64) (next : Ptr) (memory : Channel) : Channel :=
  ⟨.create p memory.toChannelData, none, next⟩

/-- Change the data of a channel and keep its links. -/
def Channel.mapData (f : ChannelData → ChannelData) (c : Channel) : Channel :=
  ⟨f c.toChannelData, c.prev, c.next⟩

/-- No channel of the node has the number. -/
def MinorList.Misses (n : MinorList) (ch : List (Option Channel)) (p : BitVec 64) : Prop :=
  ∀ b c, n.Owns b → load ch b = some c → c.hasId p = false

/-- The minors list gets a node for `m` behind the others, of which only the links change. -/
structure Opened (s : State) (nodes : List (Nat × MinorList)) (m : BitVec 32) (s' : State) :
    Prop where
  missing : ∀ x ∈ nodes, x.2.minor ≠ m
  channelHeap : s'.channelHeap = s.channelHeap
  chain : ∃ nodes', Chain MinorList.next s'.minorHeap s'.minors nodes' ∧
    nodes'.map (fun x => x.2.entry) = nodes.map (fun x => x.2.entry) ++ [(m, none, none)]

/-- What a call on minor `m` does to the heap. -/
inductive Effect (s : State) (nodes : List (Nat × MinorList)) (m : BitVec 32) :
    Call → Outcome → State → Prop where
  | read (len : BitVec 64) (out : Outcome) : Effect s nodes m (.read len) out s
  /-- The minor was opened before, or there is no memory for its node. -/
  | unopened (kmalloc : Option MinorList) (ret : Int) :
      Effect s nodes m (.open kmalloc) ⟨ret, []⟩ s
  | opened {s' : State} (kmalloc : Option MinorList) (h : Opened s nodes m s') :
      Effect s nodes m (.open kmalloc) ⟨SUCCESS, []⟩ s'
  | refused (buff : Option (Nat → UInt8)) (len : BitVec 64) {ret : Int} (hret : ret < 0) :
      Effect s nodes m (.write buff len) ⟨ret, []⟩ s
  | wrote {pre post : List (Nat × MinorList)} {a b : Nat} {n : MinorList} {c : Channel}
      {buff : Nat → UInt8} {len : BitVec 64} (hsplit : nodes = pre ++ (a, n) :: post)
      (hm : n.minor = m) (hcurr : n.curr = some b) (hb : load s.channelHeap b = some c)
      (hlen : 1 ≤ len.toNat ∧ len.toNat ≤ 128) :
      Effect s nodes m (.write (some buff) len) ⟨len.toNat, []⟩
        { s with channelHeap := s.channelHeap.set b (some (c.mapData (·.put buff len.toNat))) }
  /-- Another command, no such minor, or the channel is selected already. -/
  | kept (kmalloc : Option Channel) {cmd : BitVec 32} {p : BitVec 64} (ret : Int)
      (h : MSG_SLOT_CHANNEL = cmd →
        ∀ x ∈ nodes, x.2.minor = m → ¬ x.2.Misses s.channelHeap p) :
      Effect s nodes m (.ioctl kmalloc cmd p) ⟨ret, []⟩ s
  | selected {pre post : List (Nat × MinorList)} {a f : Nat} {n : MinorList} {c : Channel}
      (kmalloc : Option Channel) {p : BitVec 64} (hsplit : nodes = pre ++ (a, n) :: post)
      (hm : n.minor = m) (hchannels : n.channels = some f) (hf : load s.channelHeap f = some c)
      (hid : c.hasId p = true) :
      Effect s nodes m (.ioctl kmalloc MSG_SLOT_CHANNEL p) ⟨SUCCESS, []⟩
        { s with minorHeap := s.minorHeap.set a (some { n with curr := some f }) }
  /-- There is no memory for a channel. -/
  | dropped {pre post : List (Nat × MinorList)} {a : Nat} {n : MinorList} {p : BitVec 64}
      (hsplit : nodes = pre ++ (a, n) :: post) (hm : n.minor = m)
      (hmiss : n.Misses s.channelHeap p) :
      Effect s nodes m (.ioctl none MSG_SLOT_CHANNEL p) ⟨-ENOMEM, []⟩
        { s with minorHeap := s.minorHeap.set a (some { n with curr := none }) }
  | first {pre post : List (Nat × MinorList)} {a : Nat} {n : MinorList} {p : BitVec 64}
      (memory : Channel) (hsplit : nodes = pre ++ (a, n) :: post) (hm : n.minor = m)
      (hchannels : n.channels = none) (hmiss : n.Misses s.channelHeap p) :
      Effect s nodes m (.ioctl (some memory) MSG_SLOT_CHANNEL p) ⟨SUCCESS, []⟩
        { s with
          minorHeap := s.minorHeap.set a (some
            { n with curr := some s.channelHeap.length, channels := some s.channelHeap.length })
          channelHeap := s.channelHeap ++ [some (memory.created p none)] }
  /-- A further channel is put on no list, but the first one gets a back link to it. -/
  | further {pre post : List (Nat × MinorList)} {a f : Nat} {n : MinorList} {c : Channel}
      {p : BitVec 64} (memory : Channel) (hsplit : nodes = pre ++ (a, n) :: post)
      (hm : n.minor = m) (hchannels : n.channels = some f) (hf : load s.channelHeap f = some c)
      (hmiss : n.Misses s.channelHeap p) :
      Effect s nodes m (.ioctl (some memory) MSG_SLOT_CHANNEL p) ⟨SUCCESS, []⟩
        { s with
          minorHeap := s.minorHeap.set a (some { n with curr := some s.channelHeap.length })
          channelHeap := s.channelHeap.set f (some { c with prev := some s.channelHeap.length }) ++
            [some (memory.created p (some f))] }

theorem Opened.moved (h : Layout s nodes) (hopened : Opened s nodes m s') :
    Moved s s' m .empty := by
  obtain ⟨nodes', hchain, hentries⟩ := hopened.chain
  exact h.extend hopened.missing nodes' hchain hopened.channelHeap hentries

/-! ## `deviceOpen` -/

/-- Opening a minor again changes nothing. -/
theorem deviceOpen_opened (h : Layout s nodes) (hopened : s.slot m ≠ .unopened)
    (kmalloc : Option MinorList) : deviceOpen kmalloc m s = some (SUCCESS, s) := by
  rcases node_cases nodes m with ⟨pre, a, n, post, rfl, rfl⟩ | hmissing
  · obtain ⟨first, hfirst⟩ := h.minors_eq_some (by simp)
    rw [deviceOpen, hfirst]
    simp [h.findMinor_found rfl]
  · exact absurd (h.slot_missing hmissing) hopened

/-- The driver with a first node. -/
def State.addFirst (s : State) (m : BitVec 32) : State :=
  { s with
    minors := some s.minorHeap.length
    minorHeap := s.minorHeap ++ [some (⟨m, none, none, none, none⟩ : MinorList)] }

/-- The driver with a node behind the last one, `n` at `a`. -/
def State.addBehind (s : State) (m : BitVec 32) (a : Nat) (n : MinorList) : State :=
  { s with
    minorHeap := (s.minorHeap ++ [some (⟨m, none, none, some a, none⟩ : MinorList)]).set a
      (some { n with next := some s.minorHeap.length }) }

/-- The first node of the list. -/
theorem deviceOpen_first (h : Layout s []) (memory : MinorList) (m : BitVec 32) :
    deviceOpen (some memory) m s = some (SUCCESS, s.addFirst m) := by
  have hminors : s.minors = none := h.chain
  rw [deviceOpen, hminors]
  simp [Heap.kmalloc, initMinor, Heap.modify_eq Heap.load_append_new, State.addFirst]

theorem opened_first (s : State) (m : BitVec 32) : Opened s [] m (s.addFirst m) :=
  ⟨by simp, rfl, [(s.minorHeap.length, ⟨m, none, none, none, none⟩)],
    ⟨rfl, Heap.load_append_new, rfl⟩, rfl⟩

section

variable {pre : List (Nat × MinorList)} {a : Nat} {n : MinorList}

/-- A node behind the last one. -/
theorem deviceOpen_behind (h : Layout s (pre ++ [(a, n)]))
    (hmissing : ∀ x ∈ pre ++ [(a, n)], x.2.minor ≠ m) (memory : MinorList) :
    deviceOpen (some memory) m s = some (SUCCESS, s.addBehind m a n) := by
  have hload : load s.minorHeap a = some n := h.load_node rfl
  obtain ⟨first, hfirst⟩ := h.minors_eq_some (by simp)
  have hfind : findMinor s m = some (some a, none) := by
    rw [h.findMinor_missing hmissing, Heap.lastOf_concat]
  have hlt := Heap.load_lt hload
  have hne : a ≠ s.minorHeap.length := by omega
  let linked : MinorList := { n with next := some s.minorHeap.length }
  let fresh : MinorList := ⟨m, none, none, some a, none⟩
  have hfresh : load ((s.minorHeap ++ [some memory]).set a (some linked))
      s.minorHeap.length = some memory := by
    rw [Heap.load_set_of_ne hne, Heap.load_append_new]
  -- the two stores go to different nodes, so their order does not matter
  have hheap : ((s.minorHeap ++ [some memory]).set a (some linked)).set s.minorHeap.length
      (some fresh) = (s.minorHeap ++ [some fresh]).set a (some linked) := by
    rw [List.set_comm _ _ hne]
    simp
  rw [deviceOpen, hfirst]
  simp [hfind, Heap.kmalloc, initMinor, Heap.modify_eq (Heap.load_append_of_load hload),
    Heap.modify_eq hfresh, hheap, hfirst, State.addBehind, linked, fresh]

theorem opened_behind (h : Layout s (pre ++ [(a, n)]))
    (hmissing : ∀ x ∈ pre ++ [(a, n)], x.2.minor ≠ m) :
    Opened s (pre ++ [(a, n)]) m (s.addBehind m a n) := by
  refine ⟨hmissing, rfl, pre ++ [(a, { n with next := some s.minorHeap.length }),
    (s.minorHeap.length, ⟨m, none, none, some a, none⟩)], ?_, ?_⟩
  · unfold State.addBehind
    apply h.chain.append.snoc Heap.load_append_new
    · intro x hx hxa
      have hlt := Heap.load_lt (h.chain.mem_load hx)
      omega
    · rfl
    · rfl
  · simp [MinorList.entry]

end

/-- Without memory the list head, or the last link, is overwritten with `NULL`, which it was. -/
theorem deviceOpen_failed (h : Layout s nodes) (hmissing : ∀ x ∈ nodes, x.2.minor ≠ m) :
    deviceOpen none m s = some (-ENOMEM, s) := by
  rcases List.eq_nil_or_concat' nodes with rfl | ⟨pre, ⟨a, n⟩, rfl⟩
  · have hminors : s.minors = none := h.chain
    have hs : (⟨none, s.minorHeap, s.channelHeap⟩ : State) = s := by rw [← hminors]
    rw [deviceOpen, hminors]
    simp [Heap.kmalloc, hs]
  · have hload : load s.minorHeap a = some n := h.load_node rfl
    have hnext : n.next = none := h.chain.tail.2
    obtain ⟨first, hfirst⟩ := h.minors_eq_some (by simp)
    have hfind : findMinor s m = some (some a, none) := by
      rw [h.findMinor_missing hmissing, Heap.lastOf_concat]
    have hsame : ({ n with next := none } : MinorList) = n := by rw [← hnext]
    have hs : (⟨some first, s.minorHeap, s.channelHeap⟩ : State) = s := by rw [← hfirst]
    rw [deviceOpen, hfirst]
    simp [hfind, Heap.kmalloc, Heap.modify_eq hload, hsame, Heap.set_eq_self hload, hs]

theorem deviceOpen_effect (h : Layout s nodes) (kmalloc : Option MinorList) (m : BitVec 32) :
    ∃ s', deviceOpen kmalloc m s = some (((s.slot m).deviceOpen kmalloc).1, s') ∧
      Moved s s' m ((s.slot m).deviceOpen kmalloc).2 ∧
      Effect s nodes m (.open kmalloc) ⟨((s.slot m).deviceOpen kmalloc).1, []⟩ s' := by
  have hself := h.moved_self m
  rcases node_cases nodes m with ⟨pre, a, n, post, hsplit, rfl⟩ | hmissing
  · -- the minor has a node
    have hne : s.slot n.minor ≠ .unopened := by
      rw [h.slot_found hsplit]
      exact viewSlot_ne_unopened _ _ _
    rw [Slot.deviceOpen_of_ne hne]
    exact ⟨s, deviceOpen_opened h hne kmalloc, hself, .unopened kmalloc _⟩
  · rw [h.slot_missing hmissing] at hself ⊢
    cases kmalloc with
    | none => exact ⟨s, deviceOpen_failed h hmissing, hself, .unopened none _⟩
    | some memory =>
      rcases List.eq_nil_or_concat' nodes with rfl | ⟨pre, ⟨a, n⟩, rfl⟩
      · have hopened := opened_first s m
        exact ⟨_, deviceOpen_first h memory m, hopened.moved h, .opened _ hopened⟩
      · have hopened := opened_behind h hmissing
        exact ⟨_, deviceOpen_behind h hmissing memory, hopened.moved h, .opened _ hopened⟩

/-! ## `deviceWrite` and `deviceRead` -/

theorem getLoop_put {len : BitVec 64} (buff : Nat → UInt8) (c : ChannelData)
    (hlen : len.toNat ≤ 128) :
    getLoop buff len (BUFFER_LENGTH + 1) 0#64 c.message =
      some (len, (c.put buff len.toNat).message) := by
  have hB : BUFFER_LENGTH = 129 := rfl
  rw [getLoop_eq buff hlen (by simp) (by simp; omega)]
  simp [ChannelData.put]

theorem putLoop_take (message : Vector UInt8 BUFFER_LENGTH) (len : BitVec 64) :
    putLoop message len (BUFFER_LENGTH + 1) 0 [] =
      some (BitVec.ofNat 64 (min len.toNat BUFFER_LENGTH), message.toList.take len.toNat) := by
  rw [putLoop_eq message (by simp) (by simp)]
  simp

/-- The selected channel of a node changes its data. -/
theorem Layout.modify_selected {pre post : List (Nat × MinorList)} {a b : Nat} {n : MinorList}
    {c : Channel} (h : Layout s (pre ++ (a, n) :: post)) (hcurr : n.curr = some b)
    (hb : load s.channelHeap b = some c) (f : ChannelData → ChannelData) :
    (s.slot n.minor).selected = some c.toChannelData ∧
      Moved s { s with channelHeap := s.channelHeap.set b (some (c.mapData f)) } n.minor
        ((s.slot n.minor).modify f) := by
  have hpointers := h.pointers (a, n) (by simp)
  have hframe : ∀ d e, load s.channelHeap d = some e → b ≠ d →
      load (s.channelHeap.set b (some (c.mapData f))) d = some e := by
    intro d e hd hne
    rw [Heap.load_set_of_ne hne, hd]
  have hnew : load (s.channelHeap.set b (some (c.mapData f))) b = some (c.mapData f) :=
    Heap.load_set_self (Heap.load_lt hb)
  have hsame := Heap.set_eq_self (h.load_node rfl)
  -- the channel belongs to this node, so the other nodes see no change
  have howned : ∀ d, ¬ n.Owns d → b ≠ d := by
    rintro d hown rfl
    exact hown (Or.inr hcurr)
  have hup := fun hp => h.update n _ rfl rfl
    (fun d e hd hown => hframe d e hd (howned d hown)) hp fun b hb => Or.inl hb
  rw [hsame] at hup
  rw [h.slot_found rfl]
  obtain ⟨minor, channels, curr, prev, next⟩ := n
  obtain rfl : curr = some b := hcurr
  cases hpointers with
  | first ha hnext =>
    obtain rfl : _ = c := Option.some.inj (ha.symm.trans hb)
    have hmoved := hup (.first hnew hnext)
    rw [viewSlot_first hnew] at hmoved
    rw [viewSlot_first ha]
    exact ⟨rfl, hmoved⟩
  | unlisted ha hnext hne hb' =>
    obtain rfl : _ = c := Option.some.inj (hb'.symm.trans hb)
    have ha' := hframe _ _ ha hne
    have hmoved := hup (.unlisted ha' hnext hne hnew)
    rw [viewSlot_unlisted ha' hne hnew] at hmoved
    rw [viewSlot_unlisted ha hne hb]
    exact ⟨rfl, hmoved⟩

/-- A node that selects nothing. -/
theorem Layout.selected_none {pre post : List (Nat × MinorList)} {a : Nat} {n : MinorList}
    (h : Layout s (pre ++ (a, n) :: post)) (hcurr : n.curr = none) :
    (s.slot n.minor).selected = none := by
  have hpointers := h.pointers (a, n) (by simp)
  rw [h.slot_found rfl]
  obtain ⟨minor, channels, curr, prev, next⟩ := n
  obtain rfl : curr = none := hcurr
  cases hpointers with
  | empty => rfl
  | nothing ha hnext =>
    rw [viewSlot_nothing ha]
    rfl

/-- What `curr` points to is selected. -/
theorem Layout.selected_cases {pre post : List (Nat × MinorList)} {a : Nat} {n : MinorList}
    (h : Layout s (pre ++ (a, n) :: post)) :
    (n.curr = none ∧ (s.slot n.minor).selected = none) ∨
      ∃ b c, n.curr = some b ∧ load s.channelHeap b = some c ∧
        (s.slot n.minor).selected = some c.toChannelData := by
  cases hcurr : n.curr with
  | none => exact Or.inl ⟨rfl, h.selected_none hcurr⟩
  | some b =>
    obtain ⟨c, hb⟩ := (h.pointers (a, n) (by simp)).load_of_owns (Or.inr hcurr)
    exact Or.inr ⟨b, c, rfl, hb, (h.modify_selected hcurr hb id).1⟩

theorem Layout.selected_missing (h : Layout s nodes) (hm : ∀ x ∈ nodes, x.2.minor ≠ m) :
    (s.slot m).selected = none := by
  rw [h.slot_missing hm]
  rfl

/-- The selected channel of the heap is that of the slot. -/
theorem Layout.selected_eq (h : Layout s nodes) (m : BitVec 32) :
    (s.slot m).selected = (s.selected m).map Channel.toChannelData := by
  rcases node_cases nodes m with ⟨pre, a, n, post, rfl, rfl⟩ | hmissing
  · rw [State.selected, h.curr_found rfl]
    rcases h.selected_cases with ⟨hcurr, hsel⟩ | ⟨b, c, hcurr, hb, hsel⟩
    · rw [hcurr, hsel]
      rfl
    · rw [hcurr, hsel, Option.bind_some, hb, Option.map_some]
  · rw [h.selected_missing hmissing, State.selected, h.curr_missing hmissing]
    rfl

/-- What `curr` points to is selected in the slot. -/
theorem Layout.selected_load (h : Layout s nodes) {b : Nat} {c : Channel}
    (hcurr : s.curr m = some b) (hb : load s.channelHeap b = some c) :
    (s.slot m).selected = some c.toChannelData := by
  rw [h.selected_eq, State.selected, hcurr, Option.bind_some, hb, Option.map_some]

/-- Nothing is selected on a minor exactly if nothing is in its slot. -/
theorem Layout.curr_eq_none (h : Layout s nodes) (m : BitVec 32) :
    s.curr m = none ↔ (s.slot m).selected = none := by
  rcases node_cases nodes m with ⟨pre, a, n, post, rfl, rfl⟩ | hmissing
  · rw [h.curr_found rfl]
    rcases h.selected_cases with ⟨hcurr, hsel⟩ | ⟨b, c, hcurr, hb, hsel⟩
    · exact iff_of_true hcurr hsel
    · rw [hcurr, hsel]
      exact iff_of_false nofun nofun
  · rw [h.curr_missing hmissing]
    exact iff_of_true rfl (h.selected_missing hmissing)

theorem deviceWrite_effect (h : Layout s nodes) (buff : Option (Nat → UInt8)) (len : BitVec 64)
    (m : BitVec 32) :
    ∃ s', deviceWrite m buff len s = some (((s.slot m).deviceWrite buff len).1, s') ∧
      Moved s s' m ((s.slot m).deviceWrite buff len).2 ∧
      Effect s nodes m (.write buff len) ⟨((s.slot m).deviceWrite buff len).1, []⟩ s' := by
  have hself := h.moved_self m
  have hinval : -EINVAL < 0 := by decide
  -- `len` is unsigned, so `len <= 0` is `len == 0`
  have hvalid : (128 : BitVec 64).ult len = true ∨ len.ule 0 = true ↔
      ¬ (1 ≤ len.toNat ∧ len.toNat ≤ 128) := by
    simp only [BitVec.ult_iff_lt, BitVec.ule_iff_le, BitVec.lt_def, BitVec.le_def]
    simp
    omega
  unfold deviceWrite
  by_cases hlen : 1 ≤ len.toNat ∧ len.toNat ≤ 128
  · rw [if_neg (by rw [hvalid]; simpa using hlen)]
    cases buff with
    | none => exact ⟨s, rfl, hself, .refused none len hinval⟩
    | some buff =>
      rcases node_cases nodes m with ⟨pre, a, n, post, rfl, rfl⟩ | hmissing
      · simp only [h.findMinor_found rfl, h.load_node rfl, Option.bind_eq_bind, Option.bind_some]
        rcases h.selected_cases with ⟨hcurr, hsel⟩ | ⟨b, c, hcurr, hb, hsel⟩
        · have hreject : (s.slot n.minor).deviceWrite (some buff) len =
              (-EINVAL, s.slot n.minor) := by
            simp [Slot.deviceWrite, hsel]
          rw [hreject, hcurr]
          exact ⟨s, rfl, hself, .refused (some buff) len hinval⟩
        · obtain ⟨-, hmoved⟩ := h.modify_selected hcurr hb (·.put buff len.toNat)
          have hlt : 2 * len.toNat < 2 ^ 64 := by omega
          refine ⟨{ s with channelHeap :=
            s.channelHeap.set b (some (c.mapData (·.put buff len.toNat))) }, ?_, ?_, ?_⟩
          · simp [Slot.deviceWrite, hcurr, hsel, hlen, hb, getLoop_put buff c.toChannelData hlen.2,
              Heap.modify_eq hb, BitVec.toInt_eq_toNat_of_lt hlt, ChannelData.put, Channel.mapData]
          · simpa [Slot.deviceWrite, hsel, hlen] using hmoved
          · have hret : ((s.slot n.minor).deviceWrite (some buff) len).1 = len.toNat := by
              simp [Slot.deviceWrite, hsel, hlen]
            rw [hret]
            exact .wrote rfl rfl hcurr hb hlen
      · have hreject : (s.slot m).deviceWrite (some buff) len = (-EINVAL, s.slot m) := by
          simp [Slot.deviceWrite, h.selected_missing hmissing]
        rw [hreject]
        refine ⟨s, ?_, hself, .refused (some buff) len hinval⟩
        simp [h.findMinor_missing hmissing]
  · rw [if_pos (hvalid.mpr hlen)]
    have hreject : (s.slot m).deviceWrite buff len = (-EINVAL, s.slot m) := by
      cases buff with
      | none => rfl
      | some buff => exact if_neg fun hok => hlen ⟨hok.1, hok.2.1⟩
    rw [hreject]
    exact ⟨s, rfl, hself, .refused buff len hinval⟩

theorem deviceRead_eq (h : Layout s nodes) (len : BitVec 64) (m : BitVec 32) :
    deviceRead m len s = some ((s.slot m).deviceRead len) := by
  rw [deviceRead]
  rcases node_cases nodes m with ⟨pre, a, n, post, rfl, rfl⟩ | hmissing
  · simp only [h.findMinor_found rfl, h.load_node rfl, Option.bind_eq_bind, Option.bind_some]
    rcases h.selected_cases with ⟨hcurr, hsel⟩ | ⟨b, c, hcurr, hb, hsel⟩
    · simp [Slot.deviceRead, hcurr, hsel]
    · simp only [hcurr, hb, Slot.deviceRead, hsel, Option.bind_some]
      split
      · rfl
      · split
        · rfl
        · have hB : BUFFER_LENGTH = 129 := rfl
          have hmin : (BitVec.ofNat 64 (min len.toNat BUFFER_LENGTH)).toNat =
              min len.toNat BUFFER_LENGTH := by
            rw [BitVec.toNat_ofNat]
            omega
          rw [putLoop_take]
          simp only [Option.bind_some, Option.pure_def]
          rw [BitVec.toInt_eq_toNat_of_lt (by omega), hmin]
  · simp [Slot.deviceRead, h.selected_missing hmissing, h.findMinor_missing hmissing]

/-! ## `deviceIoctl` -/

section Ioctl

variable {pre post : List (Nat × MinorList)} {a f : Nat} {n : MinorList} {c : Channel}
  {p : BitVec 64}

/-- The search of `deviceIoctl` in a list of one channel. -/
theorem search_channels {ch : List (Option Channel)} (hf : load ch f = some c)
    (hnext : c.next = none) :
    ∃ prev, Heap.search (·.hasId p) Channel.next ch (some f) =
      some (prev, if c.hasId p then some f else none) := by
  have hchain : Chain Channel.next ch (some f) ([] ++ (f, c) :: []) := ⟨rfl, hf, hnext⟩
  cases hid : c.hasId p with
  | true => exact ⟨_, Heap.search_found hchain (by simp) hid⟩
  | false => exact ⟨_, Heap.search_missing hchain (by simpa using hid)⟩

/-- The node of the call gets another selection, and no channel changes. -/
theorem Layout.select (h : Layout s (pre ++ (a, n) :: post)) (curr : Ptr)
    (hcurr : Pointers s.channelHeap n.channels curr)
    (howns : ∀ b, curr = some b → n.channels = some b) :
    Moved s { s with minorHeap := s.minorHeap.set a (some { n with curr := curr }) } n.minor
      (viewSlot s.channelHeap n.channels curr) := by
  apply h.update { n with curr := curr } _ rfl rfl (fun _ _ hb _ => hb) hcurr
  rintro b (hb | hb)
  · exact Or.inl (Or.inl hb)
  · exact Or.inl (Or.inl (howns b hb))

/-- The first channel of a minor. -/
theorem initChannel_first (h : Layout s (pre ++ (a, n) :: post)) (memory : Channel) :
    let new := s.channelHeap.length
    let s' : State := { s with
      minorHeap := s.minorHeap.set a (some { n with curr := some new, channels := some new })
      channelHeap := s.channelHeap ++ [some (memory.created p none)] }
    initChannel p a none new
        { s with
          minorHeap := s.minorHeap.set a (some { n with curr := some new })
          channelHeap := s.channelHeap ++ [some memory] } = some (SUCCESS, s') ∧
      Moved s s' n.minor (.started (.create p memory.toChannelData) .first) := by
  intro new s'
  have hnode : load (s.minorHeap.set a (some { n with curr := some new })) a =
      some { n with curr := some new } :=
    Heap.load_set_self (Heap.load_lt (h.load_node rfl))
  have hlen : new < (s.channelHeap ++ [some memory]).length := by simp [new]
  have hfresh : load s.channelHeap new = none := by simp [load, new]
  let node : MinorList := { n with curr := some new, channels := some new }
  let heap := s.channelHeap ++ [some (memory.created p none)]
  refine ⟨?_, ?_⟩
  · simp [initChannel, Heap.modify_eq hnode, Heap.modify_eq Heap.load_append_new, new, s',
      Channel.created, ChannelData.create]
  · have hnew : load heap new = some (memory.created p none) := Heap.load_append_new
    have hmoved := h.update node heap rfl rfl
      (fun b d hb _ => Heap.load_append_of_load hb) (.first hnew rfl) (by
        rintro b (hb | hb) <;> obtain rfl : new = b := Option.some.inj hb <;> exact Or.inr hfresh)
    have hview : viewSlot heap node.channels node.curr =
        .started (.create p memory.toChannelData) .first := viewSlot_first hnew
    rwa [hview] at hmoved

/-- A further channel: it is selected and put on no list. -/
theorem initChannel_unlisted (h : Layout s (pre ++ (a, n) :: post)) (memory : Channel)
    (hchannels : n.channels = some f) (hf : load s.channelHeap f = some c)
    (hnext : c.next = none) :
    let new := s.channelHeap.length
    let s' : State := { s with
      minorHeap := s.minorHeap.set a (some { n with curr := some new })
      channelHeap := s.channelHeap.set f (some { c with prev := some new }) ++
        [some (memory.created p (some f))] }
    initChannel p a (some f) new
        { s with
          minorHeap := s.minorHeap.set a (some { n with curr := some new })
          channelHeap := s.channelHeap ++ [some memory] } = some (SUCCESS, s') ∧
      Moved s s' n.minor
        (.started c.toChannelData (.unlisted (.create p memory.toChannelData))) := by
  intro new s'
  have hlt : f < s.channelHeap.length := Heap.load_lt hf
  have hne : new ≠ f := by
    show s.channelHeap.length ≠ f
    omega
  -- the old head gets a back link to the new channel, but `channels` stays at the old head
  let first : Channel := { c with prev := some new }
  let heap := (s.channelHeap.set f (some first)) ++ [some (memory.created p (some f))]
  let node : MinorList := { n with curr := some new }
  have hfresh : load s.channelHeap new = none := by simp [load, new]
  refine ⟨?_, ?_⟩
  · have hf' : load (s.channelHeap ++ [some { memory with next := some f }]) f = some c :=
      Heap.load_append_of_load hf
    have hlast : load (s.channelHeap.set f (some first) ++
        [some { memory with next := some f }]) new = some { memory with next := some f } := by
      have happ := Heap.load_append_new (h := s.channelHeap.set f (some first))
        (c := { memory with next := some f })
      rwa [List.length_set] at happ
    simp [initChannel, Heap.modify_eq Heap.load_append_new, Heap.modify_eq hf',
      List.set_append_left _ _ hlt, Heap.modify_eq hlast, new, first, s',
      Channel.created, ChannelData.create]
  · have hnew : load heap new = some (memory.created p (some f)) := by
      have happ := Heap.load_append_new (h := s.channelHeap.set f (some first))
        (c := memory.created p (some f))
      rwa [List.length_set] at happ
    have hfirst : load heap f = some first :=
      Heap.load_append_of_load (Heap.load_set_self hlt)
    have hown : n.Owns f := Or.inl hchannels
    have hpointers : Pointers heap node.channels node.curr := by
      show Pointers heap n.channels (some new)
      rw [hchannels]
      exact .unlisted hfirst hnext hne hnew
    have hmoved := h.update node heap rfl rfl
      (by
        intro b d hb hnot
        apply Heap.load_append_of_load
        rw [Heap.load_set_of_ne _, hb]
        rintro rfl
        exact hnot hown)
      hpointers (by
        rintro b (hb | hb)
        · exact Or.inl (Or.inl hb)
        · obtain rfl : new = b := Option.some.inj hb
          exact Or.inr hfresh)
    have hview : viewSlot heap node.channels node.curr =
        .started c.toChannelData (.unlisted (.create p memory.toChannelData)) := by
      show viewSlot heap n.channels (some new) = _
      rw [hchannels]
      exact viewSlot_unlisted hfirst hne hnew
    rwa [hview] at hmoved

/-- A node without channels selects none. -/
theorem Pointers.curr_of_none {ch : List (Option Channel)} {curr : Ptr}
    (h : Pointers ch none curr) : curr = none := by
  cases h
  rfl

/-- The list of a node ends with its first channel. -/
theorem Pointers.exists_first {ch : List (Option Channel)} {curr : Ptr}
    (h : Pointers ch (some f) curr) : ∃ c, load ch f = some c ∧ c.next = none := by
  cases h with
  | nothing ha hnext => exact ⟨_, ha, hnext⟩
  | first ha hnext => exact ⟨_, ha, hnext⟩
  | unlisted ha hnext => exact ⟨_, ha, hnext⟩

/-- The search of a minor without channels. -/
theorem selectChannel_empty (h : Layout s (pre ++ (a, n) :: post)) (kmalloc : Option Channel)
    (p : BitVec 64) (hchannels : n.channels = none) :
    ∃ s', selectChannel kmalloc p a n s =
        some (((s.slot n.minor).selectChannel kmalloc p).1, s') ∧
      Moved s s' n.minor ((s.slot n.minor).selectChannel kmalloc p).2 ∧
      Effect s (pre ++ (a, n) :: post) n.minor (.ioctl kmalloc MSG_SLOT_CHANNEL p)
        ⟨((s.slot n.minor).selectChannel kmalloc p).1, []⟩ s' := by
  have hload := h.load_node rfl
  have hpointers := h.pointers (a, n) (by simp)
  dsimp only at hpointers
  rw [hchannels] at hpointers
  have hempty : n.curr = none := hpointers.curr_of_none
  have hmiss : n.Misses s.channelHeap p := by
    rintro b c (hb | hb)
    · rw [hchannels] at hb
      cases hb
    · rw [hempty] at hb
      cases hb
  have hsearch : Heap.search (·.hasId p) Channel.next s.channelHeap none = some (none, none) :=
    Heap.search_missing (l := []) rfl (by simp)
  rw [h.slot_found rfl, selectChannel, hchannels, hsearch, hempty]
  cases kmalloc with
  | none =>
    have hslot : viewSlot s.channelHeap n.channels none = .empty := by
      rw [hchannels]
      rfl
    have hmoved := h.select none (by rw [hchannels]; exact .empty) (by simp)
    rw [hslot] at hmoved
    refine ⟨_, ?_, hmoved, .dropped rfl rfl hmiss⟩
    simp [Heap.kmalloc, Heap.modify_eq hload, viewSlot, Slot.selectChannel]
  | some memory =>
    obtain ⟨hinit, hmoved⟩ := initChannel_first (p := p) h memory
    refine ⟨_, ?_, hmoved, .first memory rfl rfl hchannels hmiss⟩
    simpa [Heap.kmalloc, Heap.modify_eq hload, viewSlot, Slot.selectChannel] using hinit

/-- The search of a list of one channel: it finds the channel or not. -/
theorem selectChannel_listed (h : Layout s (pre ++ (a, n) :: post)) (kmalloc : Option Channel)
    (p : BitVec 64) (hcurr : ∀ b c, n.curr = some b → load s.channelHeap b = some c →
      c.hasId p = false) (hchannels : n.channels = some f) :
    ∃ s', selectChannel kmalloc p a n s =
        some (((s.slot n.minor).selectChannel kmalloc p).1, s') ∧
      Moved s s' n.minor ((s.slot n.minor).selectChannel kmalloc p).2 ∧
      Effect s (pre ++ (a, n) :: post) n.minor (.ioctl kmalloc MSG_SLOT_CHANNEL p)
        ⟨((s.slot n.minor).selectChannel kmalloc p).1, []⟩ s' := by
  have hload := h.load_node rfl
  have hpointers := h.pointers (a, n) (by simp)
  dsimp only at hpointers
  rw [hchannels] at hpointers
  obtain ⟨c, hf, hnext⟩ := hpointers.exists_first
  have hview : viewSlot s.channelHeap (some f) n.curr =
      .started c.toChannelData (viewSelected s.channelHeap f n.curr) := by
    simp [viewSlot, hf]
  obtain ⟨last, hsearch⟩ := search_channels (p := p) hf hnext
  rw [h.slot_found rfl, selectChannel, hchannels, hsearch, hview]
  cases hid : c.hasId p with
  | true =>
    have hmoved := h.select (some f) (by rw [hchannels]; exact .first hf hnext)
      fun b hb => hchannels.trans hb
    have hslot : viewSlot s.channelHeap n.channels (some f) =
        .started c.toChannelData .first := by
      rw [hchannels, viewSlot_first hf]
    rw [hslot] at hmoved
    refine ⟨{ s with minorHeap := s.minorHeap.set a (some { n with curr := some f }) }, ?_, ?_⟩
    · simp [Heap.modify_eq hload, Slot.selectChannel, hid]
    · simp only [Slot.selectChannel, hid, if_true]
      exact ⟨hmoved, .selected kmalloc rfl rfl hchannels hf hid⟩
  | false =>
    have hmiss : n.Misses s.channelHeap p := by
      rintro b d (hb | hb) hd
      · obtain rfl : f = b := Option.some.inj (hchannels.symm.trans hb)
        obtain rfl : c = d := Option.some.inj (hf.symm.trans hd)
        exact hid
      · exact hcurr b d hb hd
    have hnot : ¬ c.hasId p = true := by simp [hid]
    cases kmalloc with
    | none =>
      have hslot : viewSlot s.channelHeap n.channels none =
          .started c.toChannelData .nothing := by
        rw [hchannels, viewSlot_nothing hf]
      have hmoved := h.select none (by rw [hchannels]; exact .nothing hf hnext) (by simp)
      rw [hslot] at hmoved
      refine ⟨{ s with minorHeap := s.minorHeap.set a (some { n with curr := none }) }, ?_, ?_⟩
      · simp [Heap.kmalloc, Heap.modify_eq hload, Slot.selectChannel, hid]
      · rw [Slot.selectChannel, if_neg hnot]
        exact ⟨hmoved, .dropped rfl rfl hmiss⟩
    | some memory =>
      obtain ⟨hinit, hmoved⟩ := initChannel_unlisted (p := p) h memory hchannels hf hnext
      rw [Slot.selectChannel, if_neg hnot]
      refine ⟨_, ?_, hmoved, .further memory rfl rfl hchannels hf hmiss⟩
      simpa [Heap.kmalloc, Heap.modify_eq hload, hid] using hinit

theorem isSelected_eq (h : Layout s (pre ++ (a, n) :: post)) (p : BitVec 64) :
    isSelected s n p = some ((s.slot n.minor).selected.any (·.hasId p)) := by
  unfold isSelected
  rcases h.selected_cases with ⟨hcurr, hsel⟩ | ⟨b, c, hcurr, hb, hsel⟩
  · simp [hcurr, hsel]
  · simp [hcurr, hb, hsel]

/-- The selected channel is what `curr` points to. -/
theorem selected_any (h : Layout s (pre ++ (a, n) :: post)) (p : BitVec 64) :
    (s.slot n.minor).selected.any (·.hasId p) = true ↔
      ∃ b c, n.curr = some b ∧ load s.channelHeap b = some c ∧ c.hasId p = true := by
  rcases h.selected_cases with ⟨hcurr, hsel⟩ | ⟨b, c, hcurr, hb, hsel⟩
  · simp [hcurr, hsel]
  · simp [hcurr, hb, hsel]

theorem deviceIoctl_effect (h : Layout s nodes) (kmalloc : Option Channel) (m cmd : BitVec 32)
    (p : BitVec 64) :
    ∃ s', deviceIoctl kmalloc m cmd p s = some (((s.slot m).deviceIoctl kmalloc cmd p).1, s') ∧
      Moved s s' m ((s.slot m).deviceIoctl kmalloc cmd p).2 ∧
      Effect s nodes m (.ioctl kmalloc cmd p)
        ⟨((s.slot m).deviceIoctl kmalloc cmd p).1, []⟩ s' := by
  have hself := h.moved_self m
  unfold deviceIoctl Slot.deviceIoctl
  by_cases hcmd : MSG_SLOT_CHANNEL ≠ cmd
  · rw [if_pos hcmd, if_pos hcmd]
    exact ⟨s, rfl, hself, .kept kmalloc _ fun heq => absurd heq hcmd⟩
  rw [if_neg hcmd, if_neg hcmd]
  obtain rfl : MSG_SLOT_CHANNEL = cmd := not_not.mp hcmd
  rcases node_cases nodes m with ⟨pre, a, n, post, rfl, rfl⟩ | hmissing
  · simp only [h.findMinor_found rfl, h.load_node rfl, isSelected_eq h, Option.bind_eq_bind,
      Option.bind_some]
    by_cases hany : (s.slot n.minor).selected.any (·.hasId p) = true
    · rw [if_pos hany, if_pos hany]
      obtain ⟨b, c, hcurr, hb, hid⟩ := (selected_any h p).mp hany
      refine ⟨s, rfl, hself, .kept kmalloc _ fun _ x hx hxm hmiss => ?_⟩
      -- the node of the minor is `n`, and its selected channel has the number
      obtain ⟨pre', post', hsplit⟩ := List.append_of_mem hx
      have hnode := h.node_found (a := x.1) (n := x.2) hsplit
      rw [hxm, h.node_found rfl] at hnode
      rw [← Option.some.inj hnode] at hmiss
      rw [hmiss b c (Or.inr hcurr) hb] at hid
      cases hid
    · rw [if_neg hany, if_neg hany]
      cases hchannels : n.channels with
      | none => exact selectChannel_empty h kmalloc p hchannels
      | some f =>
        refine selectChannel_listed h kmalloc p (fun b c hcurr hb => ?_) hchannels
        by_contra hid
        exact hany ((selected_any h p).mpr ⟨b, c, hcurr, hb, by simpa using hid⟩)
  · rw [h.slot_missing hmissing] at hself ⊢
    refine ⟨s, ?_, hself, .kept kmalloc _ fun _ x hx hxm => absurd hxm (hmissing x hx)⟩
    rw [h.findMinor_missing hmissing]
    rfl

end Ioctl

/-! ## Calls and runs -/

/-- **What a call does**: the result and the slot that `Slot.step` gives, by one of the
effects. -/
theorem call_effect (h : Layout s nodes) (m : BitVec 32) (c : Call) :
    ∃ s', call m c s = some (((s.slot m).step c).1, s') ∧ Moved s s' m ((s.slot m).step c).2 ∧
      Effect s nodes m c ((s.slot m).step c).1 s' := by
  cases c with
  | «open» kmalloc =>
    obtain ⟨s', hcall, hmoved, heffect⟩ := deviceOpen_effect h kmalloc m
    exact ⟨s', by rw [call, hcall]; rfl, hmoved, heffect⟩
  | ioctl kmalloc cmd p =>
    obtain ⟨s', hcall, hmoved, heffect⟩ := deviceIoctl_effect h kmalloc m cmd p
    exact ⟨s', by rw [call, hcall]; rfl, hmoved, heffect⟩
  | write buff len =>
    obtain ⟨s', hcall, hmoved, heffect⟩ := deviceWrite_effect h buff len m
    exact ⟨s', by rw [call, hcall]; rfl, hmoved, heffect⟩
  | read len =>
    exact ⟨s, by rw [call, deviceRead_eq h]; rfl, h.moved_self m, .read len _⟩

/-- **The driver refines one slot for each minor, call by call.** -/
theorem call_moved (h : Layout s nodes) (m : BitVec 32) (c : Call) :
    ∃ s', call m c s = some (((s.slot m).step c).1, s') ∧ Moved s s' m ((s.slot m).step c).2 := by
  obtain ⟨s', hcall, hmoved, -⟩ := call_effect h m c
  exact ⟨s', hcall, hmoved⟩

theorem moved_of_call (h : Layout s nodes) {c : Call} {out : Outcome}
    (hcall : call m c s = some (out, s')) : Moved s s' m ((s.slot m).step c).2 := by
  obtain ⟨t, hcall', hmoved⟩ := call_moved h m c
  rw [hcall'] at hcall
  cases hcall
  exact hmoved

theorem outcome_of_call (h : Layout s nodes) {c : Call} {out : Outcome}
    (hcall : call m c s = some (out, s')) : out = ((s.slot m).step c).1 := by
  obtain ⟨t, hcall', -⟩ := call_moved h m c
  rw [hcall'] at hcall
  cases hcall
  rfl

theorem effect_of_call (h : Layout s nodes) {c : Call} {out : Outcome}
    (hcall : call m c s = some (out, s')) : Effect s nodes m c out s' := by
  obtain ⟨t, hcall', -, heffect⟩ := call_effect h m c
  rw [hcall'] at hcall
  cases hcall
  exact heffect

/-- A failed selection of a channel leaves none selected. -/
theorem Layout.curr_of_failed_ioctl (h : Layout s nodes) {kmalloc : Option Channel}
    {p : BitVec 64} {out : Outcome}
    (hcall : call m (.ioctl kmalloc MSG_SLOT_CHANNEL p) s = some (out, s'))
    (hfail : out.ret ≠ SUCCESS) : s'.curr m = none := by
  obtain ⟨⟨nodes', h'⟩, hslot, -⟩ := moved_of_call h hcall
  rw [outcome_of_call h hcall] at hfail
  rw [h'.curr_eq_none, hslot]
  exact Slot.deviceIoctl_selected_none hfail

/-- A run of calls on slots, one for each minor: the calls with their outcomes, and the slots
at the end. -/
def slotRun : List MinorCall → (BitVec 32 → Slot) →
    List (MinorCall × Outcome) × (BitVec 32 → Slot)
  | [], slots => ([], slots)
  | (m, c) :: calls, slots =>
    let rest := slotRun calls (Function.update slots m ((slots m).step c).2)
    (((m, c), ((slots m).step c).1) :: rest.1, rest.2)

/-- **The driver refines one slot for each minor, run by run.** Every run has a result. -/
theorem run_slots (h : Layout s nodes) (calls : List MinorCall) :
    ∃ s', run calls s = some ((slotRun calls s.slot).1, s') ∧ (∃ nodes, Layout s' nodes) ∧
      s'.slot = (slotRun calls s.slot).2 := by
  induction calls generalizing s nodes with
  | nil => exact ⟨s, rfl, ⟨nodes, h⟩, rfl⟩
  | cons x calls ih =>
    obtain ⟨m, c⟩ := x
    obtain ⟨s₁, hcall, ⟨nodes₁, h₁⟩, hslot, hothers⟩ := call_moved h m c
    have hslots : s₁.slot = Function.update s.slot m ((s.slot m).step c).2 := by
      funext m'
      by_cases hm : m' = m
      · rw [hm, hslot, Function.update_self]
      · rw [hothers m' hm, Function.update_of_ne hm]
    obtain ⟨s', hrun, hlayout, hfinal⟩ := ih h₁
    refine ⟨s', ?_, hlayout, ?_⟩
    · rw [run, hcall]
      simp [hrun, hslots, slotRun]
    · rw [hfinal, hslots]
      rfl

theorem slot_init : State.init.slot = fun _ => .unopened := by
  funext m
  exact Layout.init.slot_missing (by simp)

theorem Reachable.layout (h : Reachable s) : ∃ nodes, Layout s nodes := by
  obtain ⟨calls, trace, hrun⟩ := h
  obtain ⟨s', hrun', hlayout, -⟩ := run_slots Layout.init calls
  rw [hrun] at hrun'
  obtain rfl : s = s' := (Prod.mk.inj (Option.some.inj hrun')).2
  exact hlayout

/-- What every call keeps holds in every reachable state. -/
theorem Reachable.invariant {Inv : State → Prop} (h : Reachable s) (hinit : Inv .init)
    (hcall : ∀ {s nodes m c out s'}, Layout s nodes → Inv s → call m c s = some (out, s') →
      Inv s') : Inv s := by
  obtain ⟨calls, trace, hrun⟩ := h
  -- along the run, from any well-linked heap on
  have hall : ∀ (calls : List MinorCall) {s s' : State} {nodes trace}, Layout s nodes → Inv s →
      run calls s = some (trace, s') → Inv s' := by
    intro calls
    induction calls with
    | nil =>
      intro s s' nodes trace _ hs hrun
      cases hrun
      exact hs
    | cons x calls ih =>
      intro s s' nodes trace hlayout hs hrun
      obtain ⟨t, hx, ⟨nodes', ht⟩, -⟩ := call_moved hlayout x.1 x.2
      rw [run, hx, Option.bind_eq_bind, Option.bind_some] at hrun
      obtain ⟨⟨trace', t'⟩, hrest, heq⟩ := Option.bind_eq_some_iff.mp hrun
      cases heq
      exact ih ht (hcall hlayout hs hx) hrest
  exact hall calls Layout.init hinit hrun

/-! ## Minors are isolated -/

/-- The calls on other minors do not matter to the slot of a minor. -/
theorem slotRun_filter (calls : List MinorCall) {slots slots' : BitVec 32 → Slot}
    (hm : slots m = slots' m) :
    (slotRun calls slots).1.filter (fun x => x.1.1 == m) =
      (slotRun (calls.filter fun x => x.1 == m) slots').1 := by
  induction calls generalizing slots slots' with
  | nil => rfl
  | cons x calls ih =>
    obtain ⟨m', c⟩ := x
    by_cases hm' : m' = m
    · subst hm'
      simp only [slotRun, List.filter_cons, beq_self_eq_true, if_true, hm]
      have hsame : Function.update slots m' ((slots' m').step c).2 m' =
          Function.update slots' m' ((slots' m').step c).2 m' := by
        rw [Function.update_self, Function.update_self]
      rw [ih hsame]
    · have hne : (m' == m) = false := beq_eq_false_iff_ne.mpr hm'
      simp only [slotRun, List.filter_cons, hne, Bool.false_eq_true, if_false]
      apply ih
      rw [Function.update_of_ne (Ne.symm hm'), hm]

/-- **Isolation of minors.** For every run and every minor, the run of the calls on this minor
alone gives each of them the return value and the delivered bytes it has in the whole run. -/
theorem minors_isolated (calls : List MinorCall) (m : BitVec 32) :
    ∃ trace s trace' s', run calls .init = some (trace, s) ∧
      run (calls.filter fun x => x.1 == m) .init = some (trace', s') ∧
      trace.filter (fun x => x.1.1 == m) = trace' := by
  obtain ⟨s, hrun, -⟩ := run_slots Layout.init calls
  obtain ⟨s', hrun', -⟩ := run_slots Layout.init (calls.filter fun x => x.1 == m)
  exact ⟨_, s, _, s', hrun, hrun', slotRun_filter calls rfl⟩

end OsHw.Hw3
