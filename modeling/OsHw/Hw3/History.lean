import OsHw.Hw3.Refinement
import Mathlib.Data.List.Induction

/-!
# OsHw — which messages the message slot driver keeps

A message slot is meant to be a map: every channel of a minor keeps the last message written
to it. `History` is this map for one minor, and what decides whether the driver implements it.

* **`History`** — the channels' last messages, with the channel selected now and the one
  selected first.
* **`Retains`** — after every successful `ioctl` of the run the selected channel holds the
  message that the map has for it.
* **`messages_retained_iff`** — a run retains its messages exactly if no successful `ioctl`
  goes back to a channel with a message that is neither the selected nor the first one.
* **`message_lost`** — a run of six calls that loses a message.
-/

namespace OsHw.Hw3

/-! ## The map -/

structure History where
  opened : Bool
  first : Option (BitVec 64)
  selected : Option (BitVec 64)
  message : BitVec 64 → List UInt8

namespace History

def empty : History := ⟨false, none, none, fun _ => []⟩

/-- What a successful call does. -/
def record (c : Call) (h : History) : History :=
  match c with
  | .open _ => { h with opened := true }
  | .ioctl _ _ p => { h with first := h.first <|> some p, selected := some p }
  | .write buff len =>
    match buff, h.selected with
    | some buff, some p =>
      { h with message := Function.update h.message p ((List.range len.toNat).map buff) }
    | _, _ => h
  | .read _ => h

theorem record_write {h : History} {p : BitVec 64} (hsel : h.selected = some p)
    (buff : Nat → UInt8) (len : BitVec 64) :
    h.record (.write (some buff) len) =
      { h with message := Function.update h.message p ((List.range len.toNat).map buff) } := by
  simp only [record, hsel]

/-- The history of a minor after a run: the calls on it that returned no error. -/
def ofTrace (m : BitVec 32) (trace : List (MinorCall × Outcome)) : History :=
  trace.foldl (fun h x => if x.1.1 = m ∧ 0 ≤ x.2.ret then h.record x.1.2 else h) empty

/-- The calls that succeed when memory is available, read off their arguments alone. -/
def Accepts (c : Call) (h : History) : Prop :=
  match c with
  | .open _ => True
  | .ioctl _ cmd _ => MSG_SLOT_CHANNEL = cmd ∧ h.opened = true
  | .write buff len =>
    buff.isSome = true ∧ 1 ≤ len.toNat ∧ len.toNat ≤ 128 ∧ h.selected.isSome = true
  | .read _ => True

instance (c : Call) (h : History) : Decidable (h.Accepts c) := by
  unfold Accepts
  cases c <;> infer_instance

/-- The history of a minor after a list of calls, read off the calls. -/
def ofCalls (m : BitVec 32) (calls : List MinorCall) : History :=
  calls.foldl (fun h x => if x.1 = m ∧ h.Accepts x.2 then h.record x.2 else h) empty

end History

/-- The channel stores exactly this message. -/
def ChannelData.Holds (c : ChannelData) (message : List UInt8) : Prop :=
  c.length.toNat = message.length ∧ c.contents = message

/-- If after the calls `pre` an `ioctl` that selects `p` on minor `m` succeeds, then the
selected channel holds the last message written to it. -/
def RetainsAt (pre : List MinorCall) (m : BitVec 32) (kmalloc : Option Channel)
    (p : BitVec 64) : Prop :=
  ∀ trace s s', run pre .init = some (trace, s) →
    deviceIoctl kmalloc m MSG_SLOT_CHANNEL p s = some (SUCCESS, s') →
    ∃ c, s'.selected m = some c ∧ c.Holds ((History.ofTrace m trace).message p)

/-- The channel is the selected one, or the first one, or has no message. -/
def History.Safe (h : History) (p : BitVec 64) : Prop :=
  h.selected = some p ∨ h.first = some p ∨ h.message p = []

/-- `Q` holds at every `ioctl` of a list of calls, for the calls before it. -/
def AtEveryIoctl (Q : List MinorCall → BitVec 32 → Option Channel → BitVec 64 → Prop)
    (calls : List MinorCall) : Prop :=
  ∀ pre post m kmalloc p, calls = pre ++ (m, .ioctl kmalloc MSG_SLOT_CHANNEL p) :: post →
    Q pre m kmalloc p

/-- Every successful `ioctl` of the run finds the last message of the channel it selects. -/
def Retains (calls : List MinorCall) : Prop :=
  AtEveryIoctl RetainsAt calls

/-- No `ioctl` on an opened minor goes back to a channel with a message, except to the selected
one and to the first one selected on the minor. -/
def GoesBackSafely (calls : List MinorCall) : Prop :=
  AtEveryIoctl (fun pre m _ p =>
    (History.ofCalls m pre).opened = true → (History.ofCalls m pre).Safe p) calls

/-- Memory is available, and channel numbers fit in an `int`. -/
def Call.Ideal : Call → Prop
  | .open kmalloc => kmalloc.isSome = true
  | .ioctl kmalloc _ p => kmalloc.isSome = true ∧ p.toNat < 2 ^ 31
  | _ => True

/-! ## A slot that agrees with a history -/

/-- The slot of a minor whose messages were all retained so far. -/
inductive Agrees : History → Slot → Prop where
  | unopened : Agrees .empty .unopened
  | empty : Agrees ⟨true, none, none, fun _ => []⟩ .empty
  | first {h : History} {f : ChannelData} {p : BitVec 64} (hp : p.toNat < 2 ^ 31)
      (hopened : h.opened = true) (hfirst : h.first = some p) (hsel : h.selected = some p)
      (hid : f.id = p.setWidth 32) (hf : f.Holds (h.message p)) :
      Agrees h (.started f .first)
  | unlisted {h : History} {f c : ChannelData} {p q : BitVec 64} (hp : p.toNat < 2 ^ 31)
      (hq : q.toNat < 2 ^ 31) (hpq : p ≠ q) (hopened : h.opened = true)
      (hfirst : h.first = some p) (hsel : h.selected = some q)
      (hid : f.id = p.setWidth 32) (hf : f.Holds (h.message p))
      (hid' : c.id = q.setWidth 32) (hc : c.Holds (h.message q)) :
      Agrees h (.started f (.unlisted c))

namespace Agrees

variable {h : History} {slot : Slot} {p : BitVec 64}

theorem selected_isSome (hag : Agrees h slot) :
    h.selected.isSome = true ↔ slot.selected.isSome = true := by
  cases hag <;> simp_all [History.empty, Slot.selected]

end Agrees

theorem ChannelData.put_holds {len : BitVec 64} (buff : Nat → UInt8) (c : ChannelData)
    (hlen : len.toNat ≤ 128) : (c.put buff len.toNat).Holds ((List.range len.toNat).map buff) := by
  have hB : BUFFER_LENGTH = 129 := rfl
  constructor
  · rw [put, BitVec.toNat_ofNat, List.length_map, List.length_range]
    omega
  · exact put_contents buff c (by omega)

theorem ChannelData.create_holds (p : BitVec 64) (memory : ChannelData) :
    (create p memory).Holds [] :=
  ⟨rfl, create_contents p memory⟩

namespace Agrees

variable {h : History} {slot : Slot} {p : BitVec 64}

theorem write (hag : Agrees h slot) (buff : Option (Nat → UInt8)) (len : BitVec 64) :
    (0 ≤ (slot.deviceWrite buff len).1 ↔ h.Accepts (.write buff len)) ∧
      Agrees (if h.Accepts (.write buff len) then h.record (.write buff len) else h)
        (slot.deviceWrite buff len).2 := by
  have hneg : ¬ (0 : Int) ≤ -EINVAL := by decide
  cases buff with
  | none =>
    have hrej : ¬ h.Accepts (.write none len) := by simp [History.Accepts]
    rw [if_neg hrej]
    exact ⟨iff_of_false hneg hrej, hag⟩
  | some buff =>
    by_cases hok : 1 ≤ len.toNat ∧ len.toNat ≤ 128 ∧ slot.selected.isSome = true
    · have hacc : h.Accepts (.write (some buff) len) :=
        ⟨rfl, hok.1, hok.2.1, hag.selected_isSome.mpr hok.2.2⟩
      rw [if_pos hacc, Slot.deviceWrite, if_pos hok]
      -- the write goes to the selected channel, which is the first or the unlisted one
      refine ⟨iff_of_true (Int.natCast_nonneg _) hacc, ?_⟩
      cases hag with
      | unopened => cases hok.2.2
      | empty => cases hok.2.2
      | first hp hopened hfirst hsel hid hf =>
        rw [History.record_write hsel]
        refine .first hp hopened hfirst hsel ((ChannelData.put_id ..).trans hid) ?_
        show ChannelData.Holds _ (Function.update h.message _ _ _)
        rw [Function.update_self]
        exact ChannelData.put_holds buff _ hok.2.1
      | unlisted hp hq hpq hopened hfirst hsel hid hf hid' hc =>
        rw [History.record_write hsel]
        refine .unlisted hp hq hpq hopened hfirst hsel hid ?_
          ((ChannelData.put_id ..).trans hid') ?_
        · show ChannelData.Holds _ (Function.update h.message _ _ _)
          rw [Function.update_of_ne hpq]
          exact hf
        · show ChannelData.Holds _ (Function.update h.message _ _ _)
          rw [Function.update_self]
          exact ChannelData.put_holds buff _ hok.2.1
    · have hrej : ¬ h.Accepts (.write (some buff) len) := fun hacc =>
        hok ⟨hacc.2.1, hacc.2.2.1, hag.selected_isSome.mp hacc.2.2.2⟩
      rw [if_neg hrej, Slot.deviceWrite, if_neg hok]
      exact ⟨iff_of_false hneg hrej, hag⟩

/-- The selected channel holds its last message. -/
theorem selected_holds (hag : Agrees h slot) (hsel : h.selected = some p) :
    ∃ c, slot.selected = some c ∧ c.Holds (h.message p) := by
  cases hag with
  | unopened => cases hsel
  | empty => cases hsel
  | first hp hopened hfirst hsel' hid hf =>
    obtain rfl : _ = p := Option.some.inj (hsel'.symm.trans hsel)
    exact ⟨_, rfl, hf⟩
  | unlisted hp hq hpq hopened hfirst hsel' hid hf hid' hc =>
    obtain rfl : _ = p := Option.some.inj (hsel'.symm.trans hsel)
    exact ⟨_, rfl, hc⟩

/-- An `ioctl` that selects neither the selected nor the first channel creates one. -/
theorem ioctl_creates (hag : Agrees h slot) (memory : Channel) (hopened : h.opened = true)
    (hsel : h.selected ≠ some p) (hfirst : h.first ≠ some p) :
    (slot.deviceIoctl (some memory) MSG_SLOT_CHANNEL p).1 = SUCCESS ∧
      (slot.deviceIoctl (some memory) MSG_SLOT_CHANNEL p).2.selected =
        some (.create p memory.toChannelData) := by
  rw [Slot.deviceIoctl_eq]
  cases hag with
  | unopened => cases hopened
  | empty => exact ⟨rfl, rfl⟩
  | first hp hopened hfirst' hsel' hid hf =>
    have hne := fun heq => hfirst (hfirst'.trans (congrArg some heq))
    have hmiss := mt (ChannelData.hasId_iff hp hid).mp hne
    simp [Slot.selectChannel, Slot.selected, hmiss]
  | unlisted hp hq hpq hopened hfirst' hsel' hid hf hid' hc =>
    have hne := fun heq => hfirst (hfirst'.trans (congrArg some heq))
    have hne' := fun heq => hsel (hsel'.trans (congrArg some heq))
    have hmiss := mt (ChannelData.hasId_iff hp hid).mp hne
    have hmiss' := mt (ChannelData.hasId_iff hq hid').mp hne'
    simp [Slot.selectChannel, Slot.selected, hmiss, hmiss']

theorem ioctl (hag : Agrees h slot) (memory : Channel) (hp : p.toNat < 2 ^ 31)
    (hsafe : h.opened = true → h.Safe p) :
    (0 ≤ (slot.deviceIoctl (some memory) MSG_SLOT_CHANNEL p).1 ↔ h.opened = true) ∧
      Agrees (if h.opened = true then
        { h with first := h.first <|> some p, selected := some p } else h)
        (slot.deviceIoctl (some memory) MSG_SLOT_CHANNEL p).2 := by
  have hok : (0 : Int) ≤ SUCCESS := by decide
  rw [Slot.deviceIoctl_eq]
  cases hag with
  | unopened => exact ⟨iff_of_false (show ¬ (0 : Int) ≤ -ENOENT by decide) nofun, .unopened⟩
  | empty =>
    exact ⟨iff_of_true hok rfl,
      .first hp rfl rfl rfl rfl (ChannelData.create_holds p memory.toChannelData)⟩
  | @first _ f q hq hopened hfirst hsel hid hf =>
    -- `p` is selected, or a new channel: `Safe` says that nothing was written to `p` then
    have hhit := ChannelData.hasId_iff (q := p) hq hid
    rw [if_pos hopened, hfirst]
    by_cases hqp : q = p
    · rw [if_pos (by simpa [Slot.selected] using hhit.mpr hqp)]
      exact ⟨iff_of_true hok hopened, .first hq hopened rfl (congrArg some hqp.symm) hid hf⟩
    · have hmiss := mt hhit.mp hqp
      have hnil : h.message p = [] := by
        rcases hsafe hopened with hs | hs | hs
        · exact absurd (Option.some.inj (hsel.symm.trans hs)) hqp
        · exact absurd (Option.some.inj (hfirst.symm.trans hs)) hqp
        · exact hs
      rw [if_neg (by simpa [Slot.selected] using hmiss), Slot.selectChannel, if_neg hmiss]
      refine ⟨iff_of_true hok hopened, .unlisted hq hp hqp hopened rfl rfl hid hf rfl ?_⟩
      show ChannelData.Holds _ (h.message p)
      rw [hnil]
      exact ChannelData.create_holds p memory.toChannelData
  | @unlisted _ f c q r hq hr hqr hopened hfirst hsel hid hf hid' hc =>
    have hhit := ChannelData.hasId_iff (q := p) hq hid
    have hhit' := ChannelData.hasId_iff (q := p) hr hid'
    rw [if_pos hopened, hfirst]
    by_cases hrp : r = p
    · rw [if_pos (by simpa [Slot.selected] using hhit'.mpr hrp)]
      exact ⟨iff_of_true hok hopened,
        .unlisted hq hr hqr hopened rfl (congrArg some hrp.symm) hid hf hid' hc⟩
    · rw [if_neg (by simpa [Slot.selected] using mt hhit'.mp hrp), Slot.selectChannel]
      -- the search finds the first channel only; going on forgets the unlisted one
      by_cases hqp : q = p
      · rw [if_pos (hhit.mpr hqp)]
        exact ⟨iff_of_true hok hopened, .first hq hopened rfl (congrArg some hqp.symm) hid hf⟩
      · have hnil : h.message p = [] := by
          rcases hsafe hopened with hs | hs | hs
          · exact absurd (Option.some.inj (hsel.symm.trans hs)) hrp
          · exact absurd (Option.some.inj (hfirst.symm.trans hs)) hqp
          · exact hs
        rw [if_neg (mt hhit.mp hqp)]
        refine ⟨iff_of_true hok hopened, .unlisted hq hp hqp hopened rfl rfl hid hf rfl ?_⟩
        show ChannelData.Holds _ (h.message p)
        rw [hnil]
        exact ChannelData.create_holds p memory.toChannelData

theorem opened_slot (hag : Agrees h slot) (memory : MinorList) :
    (slot.deviceOpen (some memory)).1 = SUCCESS ∧
      Agrees { h with opened := true } (slot.deviceOpen (some memory)).2 := by
  cases hag with
  | unopened => exact ⟨rfl, .empty⟩
  | empty => exact ⟨rfl, .empty⟩
  | first hp hopened hfirst hsel hid hf => exact ⟨rfl, .first hp rfl hfirst hsel hid hf⟩
  | unlisted hp hq hpq hopened hfirst hsel hid hf hid' hc =>
    exact ⟨rfl, .unlisted hp hq hpq rfl hfirst hsel hid hf hid' hc⟩

/-- **One call.** As long as no `ioctl` goes back to a channel unsafely, the slot keeps agreeing
with the history, and the calls that succeed are those that the history accepts. -/
theorem step (hag : Agrees h slot) {c : Call} (hideal : c.Ideal)
    (hsafe : ∀ kmalloc p, c = .ioctl kmalloc MSG_SLOT_CHANNEL p → h.opened = true → h.Safe p) :
    (if 0 ≤ (slot.step c).1.ret then h.record c else h) =
        (if h.Accepts c then h.record c else h) ∧
      Agrees (if h.Accepts c then h.record c else h) (slot.step c).2 := by
  cases c with
  | «open» kmalloc =>
    obtain ⟨memory, rfl⟩ := Option.isSome_iff_exists.mp hideal
    obtain ⟨hret, hslot⟩ := hag.opened_slot memory
    have hok : 0 ≤ (slot.step (.open (some memory))).1.ret := by
      show 0 ≤ (slot.deviceOpen (some memory)).1
      rw [hret]
      decide
    have hacc : h.Accepts (.open (some memory)) := trivial
    rw [if_pos hok, if_pos hacc]
    exact ⟨rfl, hslot⟩
  | ioctl kmalloc cmd p =>
    obtain ⟨hsome, hp⟩ := hideal
    obtain ⟨memory, rfl⟩ := Option.isSome_iff_exists.mp hsome
    by_cases hcmd : MSG_SLOT_CHANNEL = cmd
    · subst hcmd
      obtain ⟨hret, hslot⟩ := hag.ioctl memory hp (hsafe _ _ rfl)
      have hacc : h.Accepts (.ioctl (some memory) MSG_SLOT_CHANNEL p) ↔ h.opened = true :=
        and_iff_right rfl
      refine ⟨if_congr (hret.trans hacc.symm) rfl rfl, ?_⟩
      rw [if_congr hacc rfl rfl]
      exact hslot
    · have hrej : ¬ h.Accepts (.ioctl (some memory) cmd p) := fun hacc => hcmd hacc.1
      -- another command is refused before anything is touched
      have hslot : slot.deviceIoctl (some memory) cmd p = (-EINVAL, slot) := if_pos hcmd
      have hret : ¬ 0 ≤ (slot.step (.ioctl (some memory) cmd p)).1.ret := by
        show ¬ 0 ≤ (slot.deviceIoctl (some memory) cmd p).1
        rw [hslot]
        show ¬ (0 : Int) ≤ -EINVAL
        decide
      rw [if_neg hret, if_neg hrej]
      refine ⟨rfl, ?_⟩
      show Agrees h (slot.deviceIoctl (some memory) cmd p).2
      rw [hslot]
      exact hag
  | write buff len =>
    obtain ⟨hret, hslot⟩ := hag.write buff len
    exact ⟨if_congr hret rfl rfl, hslot⟩
  | read len =>
    rw [History.record, ite_self, ite_self]
    exact ⟨rfl, hag⟩

end Agrees

/-! ## Runs -/

section Runs

variable {calls pre : List MinorCall} {m : BitVec 32} {p : BitVec 64}

theorem slotRun_concat (calls : List MinorCall) (m : BitVec 32) (c : Call)
    (slots : BitVec 32 → Slot) :
    slotRun (calls ++ [(m, c)]) slots =
      ((slotRun calls slots).1 ++ [((m, c), (((slotRun calls slots).2 m).step c).1)],
        Function.update (slotRun calls slots).2 m (((slotRun calls slots).2 m).step c).2) := by
  induction calls generalizing slots with
  | nil => rfl
  | cons x calls ih => simp [slotRun, ih]

theorem atEveryIoctl_concat
    (Q : List MinorCall → BitVec 32 → Option Channel → BitVec 64 → Prop) (x : MinorCall) :
    AtEveryIoctl Q (calls ++ [x]) ↔ AtEveryIoctl Q calls ∧
      ∀ m kmalloc p, x = (m, .ioctl kmalloc MSG_SLOT_CHANNEL p) → Q calls m kmalloc p := by
  constructor
  · intro h
    constructor
    · intro pre post m kmalloc p hsplit
      exact h pre (post ++ [x]) m kmalloc p (by simp [hsplit])
    · intro m kmalloc p hx
      exact h calls [] m kmalloc p (by rw [hx])
  · rintro ⟨hcalls, hlast⟩ pre post m kmalloc p hsplit
    rcases List.eq_nil_or_concat' post with rfl | ⟨post, y, rfl⟩
    · obtain ⟨rfl, hx⟩ := List.append_inj' hsplit rfl
      exact hlast m kmalloc p (List.singleton_inj.mp hx)
    · rw [← List.cons_append, ← List.append_assoc] at hsplit
      obtain ⟨rfl, -⟩ := List.append_inj' hsplit rfl
      exact hcalls pre post m kmalloc p rfl

/-- The slots after a run that goes back safely, and what the return values say about it.
Induction on the run, its last call first. -/
theorem agrees_of_goesBackSafely (hideal : ∀ x ∈ calls, x.2.Ideal)
    (hsafe : GoesBackSafely calls) (m : BitVec 32) :
    History.ofTrace m (slotRun calls fun _ => .unopened).1 = History.ofCalls m calls ∧
      Agrees (History.ofCalls m calls) ((slotRun calls fun _ => .unopened).2 m) := by
  induction calls using List.reverseRecOn with
  | nil => exact ⟨rfl, .unopened⟩
  | append_singleton calls x ih =>
    obtain ⟨m', c⟩ := x
    obtain ⟨hsafe, hlast⟩ := (atEveryIoctl_concat _ _).mp hsafe
    obtain ⟨htrace, hag⟩ := ih (fun x hx => hideal x (by simp [hx])) hsafe
    rw [slotRun_concat]
    simp only [History.ofTrace, History.ofCalls, List.foldl_append, List.foldl_cons,
      List.foldl_nil] at htrace hag ⊢
    by_cases hm : m' = m
    · subst hm
      obtain ⟨hret, hstep⟩ := hag.step (hideal (m', c) (by simp))
        (fun kmalloc p hc => hlast m' kmalloc p (congrArg (Prod.mk m') hc))
      simp only [htrace, true_and, Function.update_self]
      exact ⟨hret, hstep⟩
    · simp only [hm, false_and, if_false, Function.update_of_ne (Ne.symm hm)]
      exact ⟨htrace, hag⟩

/-- After a run that went back safely, an `ioctl` finds the last message of its channel exactly
if it goes back safely itself. -/
theorem retainsAt_iff (hideal : ∀ x ∈ pre, x.2.Ideal) (hsafe : GoesBackSafely pre)
    (memory : Channel) (hp : p.toNat < 2 ^ 31) :
    RetainsAt pre m (some memory) p ↔
      ((History.ofCalls m pre).opened = true → (History.ofCalls m pre).Safe p) := by
  obtain ⟨htrace, hag⟩ := agrees_of_goesBackSafely hideal hsafe m
  obtain ⟨s, hrun, ⟨nodes, hlayout⟩, hslots⟩ := run_slots Layout.init pre
  rw [slot_init] at hrun hslots
  rw [← hslots] at hag
  obtain ⟨s', hioctl, ⟨⟨nodes', hlayout'⟩, hslot', -⟩, -⟩ :=
    deviceIoctl_effect hlayout (some memory) m MSG_SLOT_CHANNEL p
  have hselected := hlayout'.selected_eq m
  rw [hslot'] at hselected
  constructor
  · intro hretains hopened
    by_contra hunsafe
    unfold History.Safe at hunsafe
    push Not at hunsafe
    obtain ⟨hsel, hfirst, hmessage⟩ := hunsafe
    obtain ⟨hret, hcreated⟩ := hag.ioctl_creates memory hopened hsel hfirst
    rw [hret] at hioctl
    obtain ⟨c, hc, hlength, -⟩ := hretains _ s s' hrun hioctl
    rw [hcreated, hc, Option.map_some, Option.some.injEq] at hselected
    rw [htrace, ← hselected] at hlength
    exact hmessage (List.eq_nil_of_length_eq_zero hlength.symm)
  · intro hsafe' trace t t' hrun' hioctl'
    obtain ⟨rfl, rfl⟩ : _ = trace ∧ s = t := by simpa using hrun.symm.trans hrun'
    obtain ⟨hret, rfl⟩ : _ = SUCCESS ∧ s' = t' := by simpa using hioctl.symm.trans hioctl'
    obtain ⟨hopened, hag'⟩ := hag.ioctl memory hp hsafe'
    have hopen : (History.ofCalls m pre).opened = true := hopened.mp (by rw [hret]; decide)
    rw [if_pos hopen] at hag'
    obtain ⟨c, hc, hholds⟩ := hag'.selected_holds rfl
    rw [hselected] at hc
    obtain ⟨channel, hchannel, rfl⟩ := Option.map_eq_some_iff.mp hc
    rw [htrace]
    exact ⟨channel, hchannel, hholds⟩

/-- **When the driver keeps its messages.** Of all runs in which memory is available and channel
numbers fit in an `int`, those in which every successful `ioctl` finds the last message of the
channel it selects are exactly those that go back safely. -/
theorem messages_retained_iff (hideal : ∀ x ∈ calls, x.2.Ideal) :
    Retains calls ↔ GoesBackSafely calls := by
  induction calls using List.reverseRecOn with
  | nil => exact iff_of_true (by intro pre; simp) (by intro pre; simp)
  | append_singleton calls x ih =>
    have hcalls : ∀ y ∈ calls, y.2.Ideal := fun y hy => hideal y (by simp [hy])
    have hbefore : AtEveryIoctl RetainsAt calls ↔ GoesBackSafely calls := ih hcalls
    rw [Retains, GoesBackSafely, atEveryIoctl_concat, atEveryIoctl_concat, hbefore]
    apply and_congr_right
    intro hsafe
    apply forall₄_congr
    rintro m kmalloc p rfl
    obtain ⟨hsome, hp⟩ := hideal (m, .ioctl kmalloc MSG_SLOT_CHANNEL p) (by simp)
    obtain ⟨memory, rfl⟩ := Option.isSome_iff_exists.mp hsome
    exact retainsAt_iff hcalls hsafe memory hp

/-! ## Two runs on one minor -/

/-- Memory that happens to be zeroed. -/
def zeroed : Channel := ⟨⟨0, Vector.replicate BUFFER_LENGTH 0, 0⟩, none, none⟩

def opens : MinorCall := (0, .open (some ⟨0, none, none, none, none⟩))

def selects (p : BitVec 64) : MinorCall := (0, .ioctl (some zeroed) MSG_SLOT_CHANNEL p)

/-- Writes the message "a". -/
def writes : MinorCall := (0, .write (some fun _ => 97) 1)

/-- A client that comes back to its first channel finds its message. -/
theorem message_kept : Retains [opens, selects 1, writes, selects 2, selects 1] := by
  apply (messages_retained_iff _).mpr
  · have hopens : GoesBackSafely ([] ++ [opens]) :=
      (atEveryIoctl_concat _ _).mpr ⟨by intro pre; simp, nofun⟩
    have hselects : GoesBackSafely ([opens] ++ [selects 1]) :=
      (atEveryIoctl_concat _ _).mpr ⟨hopens, by rintro m kmalloc p ⟨⟩ -; exact Or.inr (Or.inr rfl)⟩
    have hwrites : GoesBackSafely ([opens, selects 1] ++ [writes]) :=
      (atEveryIoctl_concat _ _).mpr ⟨hselects, nofun⟩
    have hleaves : GoesBackSafely ([opens, selects 1, writes] ++ [selects 2]) :=
      (atEveryIoctl_concat _ _).mpr ⟨hwrites, by
        rintro m kmalloc p ⟨⟩ -
        exact Or.inr (Or.inr rfl)⟩
    have hagain : GoesBackSafely ([opens, selects 1, writes, selects 2] ++ [selects 1]) :=
      (atEveryIoctl_concat _ _).mpr ⟨hleaves, by
        rintro m kmalloc p ⟨⟩ -
        exact Or.inr (Or.inl rfl)⟩
    exact hagain
  · intro x hx
    simp only [List.mem_cons, List.not_mem_nil, or_false] at hx
    rcases hx with rfl | rfl | rfl | rfl | rfl <;> simp [Call.Ideal, opens, selects, writes]

/-- A client that selects channel 1, writes to channel 2, and selects 1 and then 2 again finds
channel 2 empty: the second channel of a minor is on no list, so it is created once more. -/
theorem message_lost :
    let calls := [opens, selects 1, selects 2, writes, selects 1, selects 2]
    (∀ x ∈ calls, x.2.Ideal) ∧ ¬ Retains calls := by
  intro calls
  constructor
  · intro x hx
    simp only [calls, List.mem_cons, List.not_mem_nil, or_false] at hx
    rcases hx with rfl | rfl | rfl | rfl | rfl | rfl <;>
      simp [Call.Ideal, opens, selects, writes]
  · intro h
    obtain ⟨c, hc, hlength, -⟩ := h (calls.take 5) [] 0 (some zeroed) 2 rfl _ _ _ rfl rfl
    have hzero : some (0 : BitVec 32) = some c.length :=
      congrArg (Option.map fun d : Channel => d.length) hc
    have hone : c.length.toNat = 1 := hlength
    rw [← Option.some.inj hzero] at hone
    exact absurd hone (by decide)

end Runs

end OsHw.Hw3
