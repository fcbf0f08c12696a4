import OsHw.Hw3.Cleanup
import OsHw.Hw3.Delivery

/-!
# OsHw — who owns the channels of the message slot driver

Every channel allocated for a minor should be on the minor's list, where `ioctl` finds it again
and `cleanup` frees it.

* **`noteChannel`** — a history variable: the channels allocated for each minor.
* **`AllLinked`**, **`FreesAll`** — the lists own all channels and are well linked; unloading
  the driver frees every channel.
* **`Owned`** — the invariant of runs that never add a channel to a list that has one.
* **`channels_owned_iff`** — of all runs, these are the ones in which the lists own the channels.
-/

namespace OsHw.Hw3

open Heap (Ptr Chain load)
open Runs

variable {s s' : State} {nodes : List (Nat × MinorList)} {m : BitVec 32} {c : Call} {out : Outcome}
  {allocated : BitVec 32 → List Nat}

/-! ## Ownership -/

/-- The channels allocated for each minor: a call that makes the heap grow has allocated the
new cell for its minor. -/
def noteChannel (x : MinorCall) (s : State) (allocated : BitVec 32 → List Nat) :
    BitVec 32 → List Nat :=
  match step x s with
  | none => allocated
  | some s' =>
    if s.channelHeap.length < s'.channelHeap.length then
      Function.update allocated x.1 (allocated x.1 ++ [s.channelHeap.length])
    else allocated

/-- `prev` leads from each channel of a list to the one before it. -/
def Backlinked : Ptr → List (Nat × Channel) → Prop
  | _, [] => True
  | prev, (a, c) :: rest => c.prev = prev ∧ Backlinked (some a) rest

/-- The list of a node has all channels allocated for it and the selected one, it is linked both
ways, and the numbers on it are distinct. -/
def Linked (ch : List (Option Channel)) (n : MinorList) (allocated : List Nat) : Prop :=
  ∃ l, Chain Channel.next ch n.channels l ∧ (∀ a ∈ allocated, a ∈ l.map Prod.fst) ∧
    (∀ a, n.curr = some a → a ∈ l.map Prod.fst) ∧ Backlinked none l ∧
    l.Pairwise fun x y => x.2.id ≠ y.2.id

/-- So are the lists of all nodes. -/
def AllLinked (s : State) (allocated : BitVec 32 → List Nat) : Prop :=
  ∃ nodes, Chain MinorList.next s.minorHeap s.minors nodes ∧
    ∀ x ∈ nodes, Linked s.channelHeap x.2 (allocated x.2.minor)

/-- Unloading the driver frees every channel. -/
def FreesAll (s : State) : Prop :=
  ∃ s', cleanup s = some s' ∧ ∀ b, load s'.channelHeap b = none

/-- An `ioctl` that creates a channel on a minor that has one. -/
def AddsChannel (x : MinorCall) (s : State) : Prop :=
  ∃ memory p n, x.2 = .ioctl (some memory) MSG_SLOT_CHANNEL p ∧ s.node x.1 = some n ∧
    n.channels ≠ none ∧ n.Misses s.channelHeap p

/-! ## The pointers of a minor -/

/-- A node of one minor is replaced. -/
theorem Layout.pointers_set {pre post : List (Nat × MinorList)} {a : Nat} {n n' : MinorList}
    {ch : List (Option Channel)} (h : Layout s (pre ++ (a, n) :: post))
    (h' : ∃ nodes, Layout { s with minorHeap := s.minorHeap.set a (some n'), channelHeap := ch }
      nodes) (hminor : n'.minor = n.minor) (hnext : n'.next = n.next) (m : BitVec 32) :
    let s' : State := { s with minorHeap := s.minorHeap.set a (some n'), channelHeap := ch }
    (m = n.minor → s'.channels m = n'.channels ∧ s'.curr m = n'.curr) ∧
      (m ≠ n.minor → s'.channels m = s.channels m ∧ s'.curr m = s.curr m) := by
  intro s'
  obtain ⟨nodes', h'⟩ := h'
  obtain rfl : nodes' = pre ++ (a, n') :: post := h'.chain.functional (h.chain.set hnext)
  constructor
  · rintro rfl
    have hnode := h'.node_found rfl
    rw [hminor] at hnode
    simp only [s', State.channels, State.curr, hnode, Option.bind_some, and_self]
  · intro hm
    -- the other nodes are the same
    have hnode : s'.node m = s.node m := by
      rcases node_cases (pre ++ (a, n) :: post) m with ⟨pre', a', x, post', hsplit, rfl⟩ | hmissing
      · have hx : (a', x) ∈ pre ++ (a, n) :: post := by simp [hsplit]
        have hne : (a', x) ≠ (a, n) := by
          intro heq
          cases heq
          exact hm rfl
        have hx' : (a', x) ∈ pre ++ (a, n') :: post := by
          simp only [List.mem_append, List.mem_cons] at hx ⊢
          rcases hx with hx | hx | hx
          · exact Or.inl hx
          · exact absurd hx hne
          · exact Or.inr (Or.inr hx)
        exact (h'.node_mem hx').trans (h.node_mem hx).symm
      · rw [h.node_missing hmissing]
        apply h'.node_missing
        intro x hx
        simp only [List.mem_append, List.mem_cons] at hx
        rcases hx with hx | rfl | hx
        · exact hmissing x (by simp [hx])
        · rw [hminor]
          exact hm.symm
        · exact hmissing x (by simp [hx])
    simp only [State.channels, State.curr, hnode, and_self]

/-- A node is added. -/
theorem Opened.pointers (h : Layout s nodes) (hopened : Opened s nodes m s') (m' : BitVec 32) :
    s'.channels m' = s.channels m' ∧ s'.curr m' = s.curr m' := by
  obtain ⟨⟨nodes₁, h'⟩, -⟩ := hopened.moved h
  obtain ⟨nodes', hchain, hentries⟩ := hopened.chain
  obtain rfl : nodes₁ = nodes' := h'.chain.functional hchain
  -- an entry decides the pointers
  have hpointers : ∀ {t : State} {n : MinorList}, t.node m' = some n →
      t.channels m' = n.entry.2.1 ∧ t.curr m' = n.entry.2.2 := by
    intro t n hn
    rw [State.channels, State.curr, hn]
    exact ⟨rfl, rfl⟩
  have hnone : ∀ {t : State}, t.node m' = none → t.channels m' = none ∧ t.curr m' = none := by
    intro t hn
    rw [State.channels, State.curr, hn]
    exact ⟨rfl, rfl⟩
  have hmem : ∀ e, e ∈ nodes₁.map (fun x => x.2.entry) ↔
      e ∈ nodes.map (fun x => x.2.entry) ∨ e = (m, none, none) := by
    intro e
    rw [hentries, List.mem_append, List.mem_singleton]
  cases hn : s.node m' with
  | some n =>
    obtain ⟨x, hx, rfl, hxm⟩ := h.exists_mem hn
    obtain ⟨y, hy, heq⟩ := List.mem_map.mp ((hmem _).mpr (Or.inl (List.mem_map_of_mem hx)))
    have hym : y.2.minor = m' := (congrArg Prod.fst heq).trans hxm
    have hny := h'.node_mem hy
    rw [hym] at hny
    rw [(hpointers hn).1, (hpointers hn).2, (hpointers hny).1, (hpointers hny).2, heq]
    exact ⟨rfl, rfl⟩
  | none =>
    rw [(hnone hn).1, (hnone hn).2]
    cases hn' : s'.node m' with
    | none => exact hnone hn'
    | some n =>
      obtain ⟨y, hy, rfl, hym⟩ := h'.exists_mem hn'
      rcases (hmem _).mp (List.mem_map_of_mem hy) with hold | hnew
      · obtain ⟨x, hx, heq⟩ := List.mem_map.mp hold
        have hxm : x.2.minor = m' := (congrArg Prod.fst heq).trans hym
        have hnx := h.node_mem hx
        rw [hxm, hn] at hnx
        cases hnx
      · rw [(hpointers hn').1, (hpointers hn').2, hnew]
        exact ⟨rfl, rfl⟩

/-! ## The invariant -/

/-- Every minor has at most one channel, which is on its list, and nothing else is selected. -/
structure Owned (s : State) (allocated : BitVec 32 → List Nat) : Prop where
  layout : ∃ nodes, Layout s nodes
  curr : ∀ m, s.curr m = none ∨ s.curr m = s.channels m
  allocated : ∀ m, ∀ a ∈ allocated m, s.channels m = some a
  prev : ∀ m a c, s.channels m = some a → load s.channelHeap a = some c → c.prev = none
  held : ∀ b c, load s.channelHeap b = some c → ∃ m, s.channels m = some b

theorem Owned.init : Owned .init fun _ => [] where
  layout := ⟨[], .init⟩
  curr _ := Or.inl rfl
  allocated _ _ ha := by cases ha
  prev _ _ _ ha := by cases ha
  held b c hb := by
    rw [State.init, load, List.getElem?_nil] at hb
    cases hb

theorem Owned.allLinked (h : Owned s allocated) : AllLinked s allocated := by
  obtain ⟨nodes, hlayout⟩ := h.layout
  refine ⟨nodes, hlayout.chain, fun x hx => ?_⟩
  have hnode := hlayout.node_mem hx
  have hchannels : s.channels x.2.minor = x.2.channels := by
    rw [State.channels, hnode, Option.bind_some]
  obtain ⟨hchain, hmem⟩ := (hlayout.pointers x hx).listed
  refine ⟨listed s.channelHeap x.2, hchain, ?_, ?_, ?_, ?_⟩
  · intro a ha
    rw [hmem, ← hchannels]
    exact h.allocated x.2.minor a ha
  · intro a ha
    rw [hmem, ← hchannels]
    rcases h.curr x.2.minor with hcurr | hcurr
    · rw [State.curr, hnode, Option.bind_some, ha] at hcurr
      cases hcurr
    · rw [← hcurr, State.curr, hnode, Option.bind_some, ha]
  · have hprev := h.prev x.2.minor
    rw [hchannels] at hprev
    unfold listed
    cases ha : x.2.channels with
    | none => trivial
    | some a =>
      cases hc : load s.channelHeap a with
      | none =>
        rw [Option.bind_some, hc]
        trivial
      | some c =>
        rw [Option.bind_some, hc]
        exact ⟨hprev a c ha hc, trivial⟩
  · -- a list of at most one channel
    unfold listed
    cases x.2.channels.bind fun a => (load s.channelHeap a).map fun c => (a, c) with
    | none => exact List.Pairwise.nil
    | some y => exact List.pairwise_singleton _ y

theorem Owned.freesAll (h : Owned s allocated) : FreesAll s := by
  obtain ⟨nodes, hlayout⟩ := h.layout
  obtain ⟨s', hcleanup, -, hfreed, hkept⟩ := cleanup_spec hlayout
  refine ⟨s', hcleanup, fun b => ?_⟩
  cases hb : load s.channelHeap b with
  | some c =>
    obtain ⟨m, hm⟩ := h.held b c hb
    exact hfreed b m hm
  | none =>
    by_cases hon : ∃ m, s.channels m = some b
    · obtain ⟨m, hm⟩ := hon
      exact hfreed b m hm
    · rw [hkept b (not_exists.mp hon), hb]

/-- Where the lists own the channels, only what is on a list is selected. -/
theorem AllLinked.curr (h : AllLinked s allocated) (hlayout : Layout s nodes) (m : BitVec 32) :
    s.curr m = none ∨ s.curr m = s.channels m := by
  obtain ⟨nodes', hchain, hlinked⟩ := h
  obtain rfl : nodes' = nodes := hchain.functional hlayout.chain
  cases hn : s.node m with
  | none =>
    left
    rw [State.curr, hn]
    rfl
  | some n =>
    obtain ⟨x, hx, rfl, -⟩ := hlayout.exists_mem hn
    obtain ⟨l, hl, -, hsel, -⟩ := hlinked x hx
    obtain ⟨hchain', hmem⟩ := (hlayout.pointers x hx).listed
    obtain rfl : l = listed s.channelHeap x.2 := hl.functional hchain'
    rw [State.curr, State.channels, hn, Option.bind_some, Option.bind_some]
    cases hcurr : x.2.curr with
    | none => exact Or.inl rfl
    | some a => exact Or.inr ((hmem a).mp (hsel a hcurr)).symm

/-! ## One call -/

theorem noteChannel_of_call (hcall : call m c s = some (out, s')) :
    noteChannel (m, c) s allocated =
      if s.channelHeap.length < s'.channelHeap.length then
        Function.update allocated m (allocated m ++ [s.channelHeap.length])
      else allocated := by
  have hstep : step (m, c) s = some s' := by
    rw [step, hcall]
    rfl
  rw [noteChannel, hstep]

/-- A call that only selects among what is on the lists. -/
theorem Owned.select (h : Owned s allocated) (hlayout : ∃ nodes, Layout s' nodes)
    (hheap : s'.channelHeap = s.channelHeap) (hchannels : ∀ m, s'.channels m = s.channels m)
    (hcurr : ∀ m, s'.curr m = s.curr m ∨ s'.curr m = none ∨ s'.curr m = s.channels m) :
    Owned s' allocated where
  layout := hlayout
  curr m := by
    rw [hchannels]
    rcases hcurr m with heq | heq
    · rw [heq]
      exact h.curr m
    · exact heq
  allocated m a ha := by
    rw [hchannels]
    exact h.allocated m a ha
  prev m a c ha hc := by
    rw [hchannels] at ha
    rw [hheap] at hc
    exact h.prev m a c ha hc
  held b c hb := by
    rw [hheap] at hb
    obtain ⟨m, hm⟩ := h.held b c hb
    exact ⟨m, (hchannels m).trans hm⟩

/-- A selection of the listed channel, or of none. -/
theorem Owned.reselect (h : Owned s allocated) {pre post : List (Nat × MinorList)} {a : Nat}
    {n : MinorList} {curr : Ptr} (hs : Layout s (pre ++ (a, n) :: post))
    (hcurr : curr = none ∨ curr = n.channels)
    (hlayout : ∃ nodes,
      Layout { s with minorHeap := s.minorHeap.set a (some { n with curr }) } nodes) :
    Owned { s with minorHeap := s.minorHeap.set a (some { n with curr }) } allocated := by
  have hpointers := hs.pointers_set hlayout rfl rfl
  have hnode : s.channels n.minor = n.channels := hs.channels_found rfl
  apply h.select hlayout rfl
  · intro m
    by_cases hm : m = n.minor
    · rw [((hpointers m).1 hm).1, hm, hnode]
    · exact ((hpointers m).2 hm).1
  · intro m
    by_cases hm : m = n.minor
    · rw [((hpointers m).1 hm).2, hm, hnode]
      exact Or.inr hcurr
    · exact Or.inl ((hpointers m).2 hm).2

/-- A write. -/
theorem Owned.write (h : Owned s allocated) {b : Nat} {d : Channel}
    (hb : load s.channelHeap b = some d) (f : ChannelData → ChannelData)
    (hlayout : ∃ nodes,
      Layout { s with channelHeap := s.channelHeap.set b (some (d.mapData f)) } nodes) :
    Owned { s with channelHeap := s.channelHeap.set b (some (d.mapData f)) } allocated := by
  have hload : ∀ a c, load (s.channelHeap.set b (some (d.mapData f))) a = some c →
      ∃ e, load s.channelHeap a = some e ∧ c.prev = e.prev := by
    intro a c hc
    by_cases hab : b = a
    · subst hab
      rw [Heap.load_set_self (Heap.load_lt hb)] at hc
      cases hc
      exact ⟨d, hb, rfl⟩
    · rw [Heap.load_set_of_ne hab] at hc
      exact ⟨c, hc, rfl⟩
  refine ⟨hlayout, h.curr, h.allocated, ?_, ?_⟩
  · intro m a c ha hc
    obtain ⟨e, he, hprev⟩ := hload a c hc
    rw [hprev]
    exact h.prev m a e ha he
  · intro a c hc
    obtain ⟨e, he, -⟩ := hload a c hc
    exact h.held a e he

/-- The first channel of a minor. -/
theorem Owned.first (h : Owned s allocated) {pre post : List (Nat × MinorList)} {a : Nat}
    {n : MinorList} (p : BitVec 64) (memory : Channel) (hs : Layout s (pre ++ (a, n) :: post))
    (hchannels : n.channels = none)
    (hlayout : ∃ nodes, Layout { s with
      minorHeap := s.minorHeap.set a (some
        { n with curr := some s.channelHeap.length, channels := some s.channelHeap.length })
      channelHeap := s.channelHeap ++ [some (memory.created p none)] } nodes) :
    Owned { s with
      minorHeap := s.minorHeap.set a (some
        { n with curr := some s.channelHeap.length, channels := some s.channelHeap.length })
      channelHeap := s.channelHeap ++ [some (memory.created p none)] }
      (Function.update allocated n.minor
        (allocated n.minor ++ [s.channelHeap.length])) := by
  have hpointers := hs.pointers_set hlayout rfl rfl
  have hempty : s.channels n.minor = none := (hs.channels_found rfl).trans hchannels
  constructor
  · exact hlayout
  · intro m
    by_cases hm : m = n.minor
    · rw [((hpointers m).1 hm).1, ((hpointers m).1 hm).2]
      exact Or.inr rfl
    · rw [((hpointers m).2 hm).1, ((hpointers m).2 hm).2]
      exact h.curr m
  · intro m d hd
    by_cases hm : m = n.minor
    · rw [((hpointers m).1 hm).1]
      subst hm
      rw [Function.update_self, List.mem_append, List.mem_singleton] at hd
      rcases hd with hd | rfl
      · -- nothing was allocated for the minor before
        have hold := h.allocated n.minor d hd
        rw [hempty] at hold
        cases hold
      · rfl
    · rw [((hpointers m).2 hm).1]
      rw [Function.update_of_ne hm] at hd
      exact h.allocated m d hd
  · intro m d e hd he
    by_cases hm : m = n.minor
    · rw [((hpointers m).1 hm).1] at hd
      cases hd
      have hnew := Heap.load_append_new (h := s.channelHeap) (c := memory.created p none)
      obtain rfl : memory.created p none = e := Option.some.inj (hnew.symm.trans he)
      rfl
    · rw [((hpointers m).2 hm).1] at hd
      obtain ⟨nodes, hlay⟩ := h.layout
      obtain ⟨k, hk, hkd⟩ := Option.bind_eq_some_iff.mp hd
      obtain ⟨x, hx, rfl, -⟩ := hlay.exists_mem hk
      obtain ⟨e', he'⟩ := (hlay.pointers x hx).load_of_owns (Or.inl hkd)
      have hkeep := Heap.load_append_of_load (c := memory.created p none) he'
      obtain rfl : e' = e := Option.some.inj (hkeep.symm.trans he)
      exact h.prev m d e' hd he'
  · intro b d hb
    by_cases hnew : b = s.channelHeap.length
    · refine ⟨n.minor, ?_⟩
      rw [((hpointers n.minor).1 rfl).1, hnew]
    · have hlt := Heap.load_lt hb
      rw [List.length_append, List.length_singleton] at hlt
      have hold : load s.channelHeap b = some d := by
        rw [← Heap.load_append_of_lt (c := memory.created p none) (by omega)]
        exact hb
      obtain ⟨m, hm⟩ := h.held b d hold
      have hne : m ≠ n.minor := by
        rintro rfl
        rw [hempty] at hm
        cases hm
      exact ⟨m, ((hpointers m).2 hne).1.trans hm⟩

/-- **One call** that adds no channel to a list keeps the invariant. -/
theorem Owned.next (h : Owned s allocated) (hcall : call m c s = some (out, s'))
    (hadds : ¬ AddsChannel (m, c) s) : Owned s' (noteChannel (m, c) s allocated) := by
  obtain ⟨nodes, hs⟩ := h.layout
  have hlayout := (moved_of_call hs hcall).1
  have heffect := effect_of_call hs hcall
  rw [noteChannel_of_call hcall]
  cases heffect with
  | read len =>
    rw [if_neg (lt_irrefl _)]
    exact h
  | unopened kmalloc ret =>
    rw [if_neg (lt_irrefl _)]
    exact h
  | refused buff len hret =>
    rw [if_neg (lt_irrefl _)]
    exact h
  | kept kmalloc ret hkept =>
    rw [if_neg (lt_irrefl _)]
    exact h
  | opened kmalloc hopened =>
    have hpointers := hopened.pointers hs
    rw [if_neg (by rw [hopened.channelHeap]; exact lt_irrefl _)]
    exact h.select hlayout hopened.channelHeap (fun m => (hpointers m).1)
      fun m => Or.inl (hpointers m).2
  | wrote hsplit hm hcurr hb hlen =>
    rw [if_neg (by rw [List.length_set]; exact lt_irrefl _)]
    exact h.write hb _ hlayout
  | selected kmalloc hsplit hm hchannels hf hid =>
    subst hsplit hm
    rw [if_neg (lt_irrefl _)]
    exact h.reselect hs (Or.inr hchannels.symm) hlayout
  | dropped hsplit hm hmiss =>
    subst hsplit hm
    rw [if_neg (lt_irrefl _)]
    exact h.reselect hs (Or.inl rfl) hlayout
  | @first pre post a n p memory hsplit hm hchannels hmiss =>
    subst hsplit hm
    rw [if_pos (by simp)]
    exact h.first p memory hs hchannels hlayout
  | @further pre post a f n e p memory hsplit hm hchannels hf hmiss =>
    subst hsplit hm
    exact absurd ⟨memory, p, n, rfl, hs.node_found rfl, by rw [hchannels]; simp, hmiss⟩ hadds

/-- **One call** that adds a channel to a list leaves it on none. -/
theorem not_allLinked_of_adds (hs : Layout s nodes) (hcall : call m c s = some (out, s'))
    (hadds : AddsChannel (m, c) s) (allocated : BitVec 32 → List Nat) :
    ¬ AllLinked s' allocated := by
  obtain ⟨memory, p, k, hc, hk, hchannels, hmiss⟩ := hadds
  obtain ⟨x, hx, rfl, hxm⟩ := hs.exists_mem hk
  have hlayout := (moved_of_call hs hcall).1
  have heffect := effect_of_call hs hcall
  dsimp only at hc hk hxm
  cases heffect with
  | read len => cases hc
  | unopened kmalloc ret => cases hc
  | refused buff len hret => cases hc
  | opened kmalloc hopened => cases hc
  | wrote hsplit hm hcurr hb hlen => cases hc
  | dropped hsplit hm hmiss' => cases hc
  | kept kmalloc ret hkept =>
    cases hc
    exact absurd hmiss (hkept rfl x hx hxm)
  | selected kmalloc hsplit hm hchannels' hf hid =>
    cases hc
    subst hsplit hm
    rw [hs.node_found rfl] at hk
    cases hk
    rw [hmiss _ _ (Or.inl hchannels') hf] at hid
    cases hid
  | first memory hsplit hm hchannels' hmiss' =>
    subst hsplit hm
    rw [hs.node_found rfl] at hk
    cases hk
    exact absurd hchannels' hchannels
  | @further pre post a f n e p memory hsplit hm hchannels' hf hmiss' =>
    subst hsplit hm
    intro hlinked
    obtain ⟨nodes', hlayout'⟩ := hlayout
    obtain ⟨hcs, hcr⟩ := (hs.pointers_set ⟨nodes', hlayout'⟩ rfl rfl n.minor).1 rfl
    have hlt := Heap.load_lt hf
    rcases hlinked.curr hlayout' n.minor with hcurr | hcurr
    · rw [hcr] at hcurr
      cases hcurr
    · rw [hcr, hcs] at hcurr
      have heq : s.channelHeap.length = f := Option.some.inj (hcurr.trans hchannels')
      omega

/-! ## Runs -/

/-- **Ownership.** The runs in which, after every call, the lists own all channels ever allocated
and unloading would free them are those that never add a channel to a list that has one. -/
theorem channels_owned_iff (calls : List MinorCall) :
    Throughout (withGhost step noteChannel)
        (fun x y => ∀ z, withGhost step noteChannel x y = some z →
          AllLinked z.1 z.2 ∧ FreesAll z.1) calls (State.init, fun _ => []) ↔
      Throughout step (fun x s => ¬ AddsChannel x s) calls .init := by
  rw [← throughout_withGhost noteChannel calls State.init fun _ => []]
  have hcases : ∀ x y z, withGhost step noteChannel x y = some z →
      ∃ out, call x.1 x.2 y.1 = some (out, z.1) ∧ z.2 = noteChannel x y.1 y.2 := by
    intro x y z hst
    obtain ⟨t, ht, rfl⟩ := Option.map_eq_some_iff.mp hst
    obtain ⟨⟨out, t⟩, hcall, rfl⟩ := Option.map_eq_some_iff.mp ht
    exact ⟨out, hcall, rfl⟩
  apply throughout_iff (I := fun y => Owned y.1 y.2)
  · rintro x y z howned hst
    obtain ⟨out, hcall, hnote⟩ := hcases x y z hst
    constructor
    · intro hlinked hadds
      obtain ⟨nodes, hs⟩ := howned.layout
      exact not_allLinked_of_adds hs hcall hadds z.2 (hlinked z hst).1
    · intro hadds z' hst'
      rw [hst] at hst'
      cases hst'
      have hnext := howned.next hcall hadds
      rw [hnote]
      exact ⟨hnext.allLinked, hnext.freesAll⟩
  · rintro x y z howned hadds hst
    obtain ⟨out, hcall, hnote⟩ := hcases x y z hst
    rw [hnote]
    exact howned.next hcall hadds
  · exact Owned.init

/-- The second channel of a minor is on no list: unloading the driver does not free it. -/
theorem channel_unowned :
    ¬ ∀ calls : List MinorCall, Throughout (withGhost step noteChannel)
      (fun x y => ∀ z, withGhost step noteChannel x y = some z →
        AllLinked z.1 z.2 ∧ FreesAll z.1) calls (State.init, fun _ => []) := by
  intro h
  obtain ⟨-, hopened⟩ := h [opens, selects 1, selects 2] _ rfl
  obtain ⟨-, hselected⟩ := hopened _ rfl
  obtain ⟨hlast, -⟩ := hselected _ rfl
  obtain ⟨-, s', hcleanup, hfreed⟩ := hlast _ rfl
  obtain rfl := Option.some.inj hcleanup
  have hsecond : some (0 : BitVec 32) = none :=
    congrArg (Option.map fun c : Channel => c.length) (hfreed 1)
  cases hsecond

end OsHw.Hw3
