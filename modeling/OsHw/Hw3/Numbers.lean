import OsHw.Hw3.Ownership

/-!
# OsHw — channel numbers of the message slot driver

A channel number is an `unsigned long`; a `Channel` keeps it in an `int`, which is converted back
where it is compared. Numbers that this round trip changes are not found again, and collide with
the number that it makes of them.

* **`call_curr`**, **`run_curr`** — calls on other minors leave the selection alone.
* **`Layout.ioctl_curr`** — a successful `ioctl` keeps the selection exactly when the selected
  channel answers to the number.
* **`same_channel`** — two `ioctl`s in a row select the same channel exactly when the second
  number is the first one as it is stored.
* **`numbers_apart_iff`** — when that says whether the numbers are the same.
-/

namespace OsHw.Hw3

open Heap (Ptr Chain load)

variable {s s' : State} {nodes : List (Nat × MinorList)} {m : BitVec 32} {c : Call} {out : Outcome}
  {kmalloc : Option Channel} {p q : BitVec 64} {b : Nat} {d : Channel}

/-! ## Calls on other minors -/

/-- A call on another minor leaves the selection alone. -/
theorem call_curr (h : Layout s nodes) (hcall : call m c s = some (out, s')) {m' : BitVec 32}
    (hne : m' ≠ m) : s'.curr m' = s.curr m' := by
  have hlayout := (moved_of_call h hcall).1
  have heffect := effect_of_call h hcall
  cases heffect with
  | read | unopened | refused | kept | wrote => rfl
  | opened kmalloc hopened => exact (hopened.pointers h m').2
  | selected kmalloc hsplit hm =>
    subst hsplit hm
    exact ((h.pointers_set hlayout rfl rfl m').2 hne).2
  | dropped hsplit hm =>
    subst hsplit hm
    exact ((h.pointers_set hlayout rfl rfl m').2 hne).2
  | first memory hsplit hm =>
    subst hsplit hm
    exact ((h.pointers_set hlayout rfl rfl m').2 hne).2
  | further memory hsplit hm =>
    subst hsplit hm
    exact ((h.pointers_set hlayout rfl rfl m').2 hne).2

/-- So does a run of such calls, and it leaves the selected channel as it was. -/
theorem run_curr (h : Layout s nodes) (calls : List MinorCall) {trace}
    (hrun : run calls s = some (trace, s')) (hne : ∀ x ∈ calls, x.1 ≠ m) :
    (∃ nodes, Layout s' nodes) ∧ s'.curr m = s.curr m ∧ s'.slot m = s.slot m := by
  induction calls generalizing s nodes trace with
  | nil =>
    cases hrun
    exact ⟨⟨nodes, h⟩, rfl, rfl⟩
  | cons x calls ih =>
    have hm : m ≠ x.1 := (hne x (List.mem_cons_self ..)).symm
    obtain ⟨t, hx, ⟨nodes', ht⟩, -, hothers⟩ := call_moved h x.1 x.2
    rw [run, hx, Option.bind_eq_bind, Option.bind_some] at hrun
    obtain ⟨⟨trace', t'⟩, hrest, heq⟩ := Option.bind_eq_some_iff.mp hrun
    cases heq
    obtain ⟨hlayout, hcurr, hslot⟩ := ih ht hrest fun y hy => hne y (List.mem_cons_of_mem _ hy)
    exact ⟨hlayout, hcurr.trans (call_curr h hx hm), hslot.trans (hothers m hm)⟩

/-! ## Selections -/

/-- A successful `ioctl` has selected a channel that answers to the number as it is stored. -/
theorem Layout.ioctl_selected (h : Layout s nodes)
    (hcall : call m (.ioctl kmalloc MSG_SLOT_CHANNEL p) s = some (out, s'))
    (hok : out.ret = SUCCESS) :
    ∃ d, (s'.slot m).selected = some d ∧ d.id.signExtend 64 = ChannelData.stored p := by
  obtain ⟨-, hslot, -⟩ := moved_of_call h hcall
  rw [outcome_of_call h hcall] at hok
  rw [hslot]
  exact Slot.deviceIoctl_stored hok

/-- The selected channel of the slot is what `curr` points to. -/
theorem Layout.exists_curr (h : Layout s nodes) {d : ChannelData}
    (hsel : (s.slot m).selected = some d) :
    ∃ b c, s.curr m = some b ∧ load s.channelHeap b = some c ∧ c.toChannelData = d := by
  rw [h.selected_eq] at hsel
  obtain ⟨c, hc, rfl⟩ := Option.map_eq_some_iff.mp hsel
  obtain ⟨b, hb, hload⟩ := Option.bind_eq_some_iff.mp hc
  exact ⟨b, c, hb, hload, rfl⟩

/-- The number of the selected channel. -/
theorem Layout.ioctl_same (h : Layout s nodes) (kmalloc : Option Channel) (hcurr : s.curr m = some b)
    (hb : load s.channelHeap b = some d) (hid : d.hasId p = true) :
    deviceIoctl kmalloc m MSG_SLOT_CHANNEL p s = some (SUCCESS, s) := by
  rcases node_cases nodes m with ⟨pre, a, n, post, rfl, rfl⟩ | hmissing
  · have hsel : n.curr = some b := (h.curr_found rfl).symm.trans hcurr
    have hselected : isSelected s n p = some true := by
      rw [isSelected, hsel]
      show (load s.channelHeap b).map _ = some true
      rw [hb, Option.map_some, hid]
    rw [deviceIoctl, if_neg (not_not.mpr rfl), h.findMinor_found rfl]
    simp only [Option.bind_eq_bind, Option.bind_some, h.load_node rfl, hselected, if_true]
    rfl
  · rw [h.curr_missing hmissing] at hcurr
    cases hcurr

/-- An `ioctl` that changes nothing, though another channel is selected, knows no channel with the
number. -/
theorem Layout.ioctl_misses (h : Layout s nodes)
    (hslot : s.slot m = ((s.slot m).deviceIoctl kmalloc MSG_SLOT_CHANNEL p).2)
    (hcurr : s.curr m = some b) (hb : load s.channelHeap b = some d) (hid : ¬ d.hasId p = true) :
    ¬ ∀ x ∈ nodes, x.2.minor = m → ¬ x.2.Misses s.channelHeap p := by
  intro hall
  have hsel : (s.slot m).selected = some d.toChannelData := h.selected_load hcurr hb
  rcases node_cases nodes m with ⟨pre, a, n, post, rfl, rfl⟩ | hmissing
  · have hncurr : n.curr = some b := (h.curr_found rfl).symm.trans hcurr
    apply hall (a, n) (by simp) rfl
    rintro b' e (hfirst | hown) he
    · -- the listed channel would have been selected
      by_contra hfound
      have hfid : e.hasId p = true := by simpa using hfound
      have hview := h.slot_found rfl
      rw [hfirst, viewSlot, he] at hview
      dsimp only at hview
      rw [Slot.deviceIoctl_eq, hsel, Option.any_some, if_neg hid, hview] at hslot
      simp only [Slot.selectChannel, hfid, if_true] at hslot
      rw [hview, hslot] at hsel
      rw [show e.toChannelData = d.toChannelData from Option.some.inj hsel] at hfid
      exact hid hfid
    · obtain rfl : b = b' := Option.some.inj (hncurr.symm.trans hown)
      obtain rfl : d = e := Option.some.inj (hb.symm.trans he)
      simpa using hid
  · rw [h.curr_missing hmissing] at hcurr
    cases hcurr

/-- **A successful `ioctl`** keeps the selection exactly when the selected channel answers to the
number. -/
theorem Layout.ioctl_curr (h : Layout s nodes)
    (hcall : call m (.ioctl kmalloc MSG_SLOT_CHANNEL p) s = some (out, s'))
    (hok : out.ret = SUCCESS) (hcurr : s.curr m = some b)
    (hb : load s.channelHeap b = some d) : s'.curr m = some b ↔ d.hasId p = true := by
  constructor
  · intro hsame
    by_contra hid
    have hmoved := moved_of_call h hcall
    have hlayout := hmoved.1
    have heffect := effect_of_call h hcall
    cases heffect with
    | kept _ ret hkept => exact h.ioctl_misses hmoved.2.1 hcurr hb hid (hkept rfl)
    | @selected pre post a f n e _ _ hsplit hm hchannels hf hfid =>
      subst hsplit hm
      have hnew := ((h.pointers_set hlayout rfl rfl n.minor).1 rfl).2
      obtain rfl : f = b := Option.some.inj (hnew.symm.trans hsame)
      obtain rfl : e = d := Option.some.inj (hf.symm.trans hb)
      exact hid hfid
    | dropped => exact absurd hok (show -ENOMEM ≠ SUCCESS by decide)
    | @first pre post a n _ memory hsplit hm =>
      subst hsplit hm
      have hnew := ((h.pointers_set hlayout rfl rfl n.minor).1 rfl).2
      have heq : s.channelHeap.length = b := Option.some.inj (hnew.symm.trans hsame)
      exact absurd (Heap.load_lt hb) (by omega)
    | @further pre post a f n e _ memory hsplit hm =>
      subst hsplit hm
      have hnew := ((h.pointers_set hlayout rfl rfl n.minor).1 rfl).2
      have heq : s.channelHeap.length = b := Option.some.inj (hnew.symm.trans hsame)
      exact absurd (Heap.load_lt hb) (by omega)
  · intro hid
    have hsame := h.ioctl_same kmalloc hcurr hb hid
    rw [call, hsame] at hcall
    cases hcall
    exact hcurr

/-! ## Numbers -/

section Numbers

variable {s₁ s₂ s₃ : State} {kmalloc' : Option Channel} {others : List MinorCall}
  {trace : List (MinorCall × Outcome)} {out₁ out₂ : Outcome}

/-- **Two `ioctl`s in a row** on a minor, with calls on other minors between them, select the
same channel exactly when the second number is the first one as it is stored. -/
theorem same_channel (hs : Reachable s)
    (hfirst : call m (.ioctl kmalloc MSG_SLOT_CHANNEL q) s = some (out₁, s₁))
    (hok₁ : out₁.ret = SUCCESS) (hothers : run others s₁ = some (trace, s₂))
    (hne : ∀ x ∈ others, x.1 ≠ m)
    (hnext : call m (.ioctl kmalloc' MSG_SLOT_CHANNEL p) s₂ = some (out₂, s₃))
    (hok₂ : out₂.ret = SUCCESS) : s₃.curr m = s₁.curr m ↔ p = ChannelData.stored q := by
  obtain ⟨nodes, h⟩ := hs.layout
  obtain ⟨⟨nodes₁, h₁⟩, -⟩ := moved_of_call h hfirst
  obtain ⟨d, hsel, hid⟩ := h.ioctl_selected hfirst hok₁
  obtain ⟨⟨nodes₂, h₂⟩, hcurr, hslot⟩ := run_curr h₁ others hothers hne
  rw [← hslot] at hsel
  obtain ⟨b, c, hb, hload, rfl⟩ := h₂.exists_curr hsel
  rw [← hcurr, hb, h₂.ioctl_curr hnext hok₂ hb hload, ChannelData.hasId, hid, beq_iff_eq, eq_comm]

/-- **The channel numbers are told apart** by two `ioctl`s exactly where the first number is stored
as it is, or the second one is neither the first number nor what is stored of it. -/
theorem numbers_apart_iff (hs : Reachable s)
    (hfirst : call m (.ioctl kmalloc MSG_SLOT_CHANNEL q) s = some (out₁, s₁))
    (hok₁ : out₁.ret = SUCCESS) (hothers : run others s₁ = some (trace, s₂))
    (hne : ∀ x ∈ others, x.1 ≠ m)
    (hnext : call m (.ioctl kmalloc' MSG_SLOT_CHANNEL p) s₂ = some (out₂, s₃))
    (hok₂ : out₂.ret = SUCCESS) :
    (s₃.curr m = s₁.curr m ↔ p = q) ↔
      ChannelData.stored q = q ∨ (p ≠ q ∧ p ≠ ChannelData.stored q) := by
  rw [same_channel hs hfirst hok₁ hothers hne hnext hok₂]
  constructor
  · intro hiff
    by_cases hround : ChannelData.stored q = q
    · exact Or.inl hround
    · refine Or.inr ⟨fun hpq => ?_, fun hps => ?_⟩
      · exact hround ((hiff.mpr hpq).symm.trans hpq)
      · exact hround (hps.symm.trans (hiff.mp hps))
  · rintro (hround | ⟨hpq, hps⟩)
    · rw [hround]
    · exact iff_of_false hps hpq

end Numbers

/-- The driver after one minor was opened. -/
def oneOpened : State := ⟨some 0, [some ⟨0, none, none, none, none⟩], []⟩

/-- And after the channel 1 was selected on it. -/
def oneSelected : State :=
  ⟨some 0, [some ⟨0, some 0, some 0, none, none⟩], [some { zeroed with id := 1 }]⟩

theorem reachable_oneOpened : Reachable oneOpened := ⟨[opens], _, rfl⟩

/-- The numbers 1 and 2 select different channels. -/
theorem numbers_apart :
    ∃ s₂, call 0 (selects 2).2 oneSelected = some (⟨SUCCESS, []⟩, s₂) ∧
      (s₂.curr 0 = oneSelected.curr 0 ↔ (2 : BitVec 64) = 1) := by
  have hfirst : call 0 (selects 1).2 oneOpened = some (⟨SUCCESS, []⟩, oneSelected) := rfl
  have hothers : run [] oneSelected = some ([], oneSelected) := rfl
  have hnext : call 0 (selects 2).2 oneSelected = some (⟨SUCCESS, []⟩, _) := rfl
  exact ⟨_, hnext, (numbers_apart_iff reachable_oneOpened hfirst rfl hothers (by simp) hnext
    rfl).mpr (Or.inl (by decide))⟩

/-- The number 2^32 is stored as 0, so that 0 selects the same channel. -/
theorem numbers_confused :
    ¬ ∀ (s s₁ s₂ s₃ : State) (m : BitVec 32) (p q : BitVec 64) (kmalloc kmalloc' : Option Channel)
      (others : List MinorCall) (trace : List (MinorCall × Outcome)) (out₁ out₂ : Outcome),
      Reachable s → call m (.ioctl kmalloc MSG_SLOT_CHANNEL q) s = some (out₁, s₁) →
      out₁.ret = SUCCESS → run others s₁ = some (trace, s₂) → (∀ x ∈ others, x.1 ≠ m) →
      call m (.ioctl kmalloc' MSG_SLOT_CHANNEL p) s₂ = some (out₂, s₃) → out₂.ret = SUCCESS →
      (s₃.curr m = s₁.curr m ↔ p = q) := by
  intro h
  have hiff := h _ _ _ _ 0 0 (2 ^ 32) (some zeroed) none [] _ _ _ reachable_oneOpened rfl rfl rfl
    (by simp) rfl rfl
  exact absurd (hiff.mp rfl) (by decide)

end OsHw.Hw3
