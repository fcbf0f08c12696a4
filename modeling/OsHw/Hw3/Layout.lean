import OsHw.Hw3.Slot

/-!
# OsHw — the heap of the message slot driver

What the driver's pointers look like between two calls, and how a `Slot` is read off them.

* **`State.node`**, **`State.slot`** — the node of a minor and the `Slot` it stands for.
* **`Layout s nodes`** — the minors list of `s` visits exactly `nodes`, their minors are
  distinct, and their channels are allocated and not shared.
* **`Layout.update`** — the one way in which `ioctl` and `write` change the heap: the node of
  one minor and the channels it owns.
* **`Layout.extend`** — the one way in which `open` does: a node behind the last one.

Both come with what they do to `State.slot`: the minor of the call gets its new slot, and
every other minor keeps the one it had.
-/

namespace OsHw.Hw3

open Heap (Ptr Chain load)

variable {s : State} {nodes pre post : List (Nat × MinorList)} {n n' : MinorList}
  {ch ch' : List (Option Channel)} {m : BitVec 32} {a b : Nat} {c : Channel}

/-! ## Reading a slot off the heap -/

/-- What `curr` selects, in a minor whose channel list starts at `first`. -/
def viewSelected (ch : List (Option Channel)) (first : Nat) (curr : Ptr) : Selected :=
  match curr with
  | none => .nothing
  | some b =>
    if b = first then .first
    else
      match load ch b with
      | none => .nothing
      | some c => .unlisted c.toChannelData

/-- The slot of a node with the pointers `channels` and `curr`. -/
def viewSlot (ch : List (Option Channel)) (channels curr : Ptr) : Slot :=
  match channels with
  | none => .empty
  | some a =>
    match load ch a with
    | none => .empty
    | some c => .started c.toChannelData (viewSelected ch a curr)

/-- The node of a minor. -/
def State.node (s : State) (m : BitVec 32) : Option MinorList := do
  let (_, curr) ← findMinor s m
  let a ← curr
  load s.minorHeap a

def State.slot (s : State) (m : BitVec 32) : Slot :=
  match s.node m with
  | none => .unopened
  | some n => viewSlot s.channelHeap n.channels n.curr

/-- The pointer to the channel selected on a minor. -/
def State.curr (s : State) (m : BitVec 32) : Ptr := (s.node m).bind MinorList.curr

/-- The pointer to the channels of a minor. -/
def State.channels (s : State) (m : BitVec 32) : Ptr := (s.node m).bind MinorList.channels

/-- The channel selected on a minor. -/
def State.selected (s : State) (m : BitVec 32) : Option Channel :=
  (s.curr m).bind (load s.channelHeap)

theorem viewSlot_first (ha : load ch a = some c) :
    viewSlot ch (some a) (some a) = .started c.toChannelData .first := by
  simp [viewSlot, viewSelected, ha]

theorem viewSlot_nothing (ha : load ch a = some c) :
    viewSlot ch (some a) none = .started c.toChannelData .nothing := by
  simp [viewSlot, viewSelected, ha]

theorem viewSlot_unlisted {d : Channel} (ha : load ch a = some c) (hne : b ≠ a)
    (hb : load ch b = some d) :
    viewSlot ch (some a) (some b) = .started c.toChannelData (.unlisted d.toChannelData) := by
  simp [viewSlot, viewSelected, ha, hb, hne]

/-! ## Nodes -/

/-- The addresses of the channels a node points to. -/
def MinorList.Owns (n : MinorList) (a : Nat) : Prop := n.channels = some a ∨ n.curr = some a

/-- A node without its links. -/
def MinorList.entry (n : MinorList) : BitVec 32 × Ptr × Ptr := (n.minor, n.channels, n.curr)

/-- A node's pointers, in the shapes the driver gives them. The channel list never has a
second record. -/
inductive Pointers (ch : List (Option Channel)) : Ptr → Ptr → Prop where
  | empty : Pointers ch none none
  | nothing {a : Nat} {c : Channel} (ha : load ch a = some c) (hnext : c.next = none) :
      Pointers ch (some a) none
  | first {a : Nat} {c : Channel} (ha : load ch a = some c) (hnext : c.next = none) :
      Pointers ch (some a) (some a)
  | unlisted {a b : Nat} {c d : Channel} (ha : load ch a = some c) (hnext : c.next = none)
      (hne : b ≠ a) (hb : load ch b = some d) : Pointers ch (some a) (some b)

/-- A node depends only on the channels it owns. -/
theorem Pointers.congr (h : Pointers ch n.channels n.curr)
    (hsame : ∀ b c, n.Owns b → load ch b = some c → load ch' b = some c) :
    Pointers ch' n.channels n.curr ∧
      viewSlot ch' n.channels n.curr = viewSlot ch n.channels n.curr := by
  obtain ⟨minor, channels, curr, prev, next⟩ := n
  cases h with
  | empty => exact ⟨.empty, rfl⟩
  | nothing ha hnext =>
    have ha' := hsame _ _ (Or.inl rfl) ha
    exact ⟨.nothing ha' hnext, by rw [viewSlot_nothing ha, viewSlot_nothing ha']⟩
  | first ha hnext =>
    have ha' := hsame _ _ (Or.inl rfl) ha
    exact ⟨.first ha' hnext, by rw [viewSlot_first ha, viewSlot_first ha']⟩
  | unlisted ha hnext hne hb =>
    have ha' := hsame _ _ (Or.inl rfl) ha
    have hb' := hsame _ _ (Or.inr rfl) hb
    exact ⟨.unlisted ha' hnext hne hb',
      by rw [viewSlot_unlisted ha hne hb, viewSlot_unlisted ha' hne hb']⟩

theorem Pointers.load_of_owns (h : Pointers ch n.channels n.curr) (hb : n.Owns b) :
    ∃ c, load ch b = some c := by
  obtain ⟨minor, channels, curr, prev, next⟩ := n
  unfold MinorList.Owns at hb
  cases h <;> simp at hb <;> grind

/-! ## The whole heap -/

/-- The minors list visits exactly `nodes`, one node for a minor, and no channel belongs to two
of them. -/
structure Layout (s : State) (nodes : List (Nat × MinorList)) : Prop where
  chain : Chain MinorList.next s.minorHeap s.minors nodes
  nodup : (nodes.map fun x => x.2.minor).Nodup
  pointers : ∀ x ∈ nodes, Pointers s.channelHeap x.2.channels x.2.curr
  owners : ∀ x ∈ nodes, ∀ y ∈ nodes, ∀ a, x.2.Owns a → y.2.Owns a → x.2.minor = y.2.minor

theorem Layout.init : Layout .init [] where
  chain := rfl
  nodup := List.nodup_nil
  pointers := by simp
  owners := by simp

/-- A minor has a node, or none has it. -/
theorem node_cases (nodes : List (Nat × MinorList)) (m : BitVec 32) :
    (∃ pre a n post, nodes = pre ++ (a, n) :: post ∧ n.minor = m) ∨
      ∀ x ∈ nodes, x.2.minor ≠ m := by
  by_cases hm : ∃ x ∈ nodes, x.2.minor = m
  · left
    obtain ⟨⟨a, n⟩, hx, hxm⟩ := hm
    obtain ⟨pre, post, hsplit⟩ := List.append_of_mem hx
    exact ⟨pre, a, n, post, hsplit, hxm⟩
  · right
    intro x hx hxm
    exact hm ⟨x, hx, hxm⟩

namespace Layout

variable (h : Layout s nodes)

include h

/-- Nodes of the list with the same minor are the same node. -/
theorem minor_ne_of_split (hsplit : nodes = pre ++ (a, n) :: post) {x : Nat × MinorList}
    (hx : x ∈ pre ∨ x ∈ post) : x.2.minor ≠ n.minor := by
  have hnd := h.nodup
  rw [hsplit] at hnd
  simp only [List.map_append, List.map_cons, List.nodup_append, List.nodup_cons, List.mem_map,
    List.mem_cons] at hnd
  obtain ⟨-, ⟨hpost, -⟩, hpre⟩ := hnd
  rcases hx with hx | hx
  · exact hpre _ ⟨x, hx, rfl⟩ n.minor (Or.inl rfl)
  · exact fun heq => hpost ⟨x, hx, heq⟩

theorem findMinor_found (hsplit : nodes = pre ++ (a, n) :: post) :
    findMinor s n.minor = some (Heap.lastOf none pre, some a) := by
  apply Heap.search_found (hsplit ▸ h.chain)
  · intro x hx
    exact beq_eq_false_iff_ne.mpr (h.minor_ne_of_split hsplit (Or.inl hx))
  · exact beq_self_eq_true _

theorem findMinor_missing (hm : ∀ x ∈ nodes, x.2.minor ≠ m) :
    findMinor s m = some (Heap.lastOf none nodes, none) := by
  apply Heap.search_missing h.chain
  intro x hx
  exact beq_eq_false_iff_ne.mpr (hm x hx)

theorem minors_eq_some (hne : nodes ≠ []) : ∃ first, s.minors = some first := by
  cases nodes with
  | nil => exact absurd rfl hne
  | cons x nodes => exact ⟨x.1, h.chain.1⟩

theorem load_node (hsplit : nodes = pre ++ (a, n) :: post) : load s.minorHeap a = some n :=
  h.chain.mem_load (x := (a, n)) (by simp [hsplit])

theorem node_found (hsplit : nodes = pre ++ (a, n) :: post) : s.node n.minor = some n := by
  simp [State.node, h.findMinor_found hsplit, h.load_node hsplit]

theorem node_missing (hm : ∀ x ∈ nodes, x.2.minor ≠ m) : s.node m = none := by
  simp [State.node, h.findMinor_missing hm]

theorem curr_found (hsplit : nodes = pre ++ (a, n) :: post) : s.curr n.minor = n.curr := by
  rw [State.curr, h.node_found hsplit, Option.bind_some]

theorem channels_found (hsplit : nodes = pre ++ (a, n) :: post) :
    s.channels n.minor = n.channels := by
  rw [State.channels, h.node_found hsplit, Option.bind_some]

theorem curr_missing (hm : ∀ x ∈ nodes, x.2.minor ≠ m) : s.curr m = none := by
  rw [State.curr, h.node_missing hm, Option.bind_none]

theorem node_mem {x : Nat × MinorList} (hx : x ∈ nodes) : s.node x.2.minor = some x.2 := by
  obtain ⟨pre, post, hsplit⟩ := List.append_of_mem hx
  exact h.node_found (a := x.1) (n := x.2) hsplit

theorem slot_found (hsplit : nodes = pre ++ (a, n) :: post) :
    s.slot n.minor = viewSlot s.channelHeap n.channels n.curr := by
  rw [State.slot, h.node_found hsplit]

theorem slot_mem {x : Nat × MinorList} (hx : x ∈ nodes) :
    s.slot x.2.minor = viewSlot s.channelHeap x.2.channels x.2.curr := by
  obtain ⟨pre, post, hsplit⟩ := List.append_of_mem hx
  exact h.slot_found (a := x.1) (n := x.2) hsplit

theorem slot_missing (hm : ∀ x ∈ nodes, x.2.minor ≠ m) : s.slot m = .unopened := by
  rw [State.slot, h.node_missing hm]

theorem exists_mem (hn : s.node m = some n) : ∃ x ∈ nodes, x.2 = n ∧ n.minor = m := by
  rcases node_cases nodes m with ⟨pre, a, n', post, hsplit, rfl⟩ | hmissing
  · rw [h.node_found hsplit] at hn
    cases hn
    exact ⟨(a, n), by simp [hsplit], rfl, rfl⟩
  · rw [h.node_missing hmissing] at hn
    cases hn

end Layout

/-- `s'` is a well-linked heap in which `m` has the slot `slot`, and the other minors have the
slots they had in `s`. -/
def Moved (s s' : State) (m : BitVec 32) (slot : Slot) : Prop :=
  (∃ nodes, Layout s' nodes) ∧ s'.slot m = slot ∧ ∀ m', m' ≠ m → s'.slot m' = s.slot m'

namespace Layout

theorem moved_self (h : Layout s nodes) (m : BitVec 32) : Moved s s m (s.slot m) :=
  ⟨⟨nodes, h⟩, rfl, fun _ _ => rfl⟩

/-- **One node changes.** The node of one minor and the channel heap may change, as long as
the channels of other nodes stay, and the node gets no channel that was allocated before and
was not its own. -/
theorem update (h : Layout s (pre ++ (a, n) :: post)) (n' : MinorList)
    (ch' : List (Option Channel)) (hminor : n'.minor = n.minor) (hnext : n'.next = n.next)
    (hframe : ∀ b c, load s.channelHeap b = some c → ¬ n.Owns b → load ch' b = some c)
    (hpointers : Pointers ch' n'.channels n'.curr)
    (howns : ∀ b, n'.Owns b → n.Owns b ∨ load s.channelHeap b = none) :
    Moved s { s with minorHeap := s.minorHeap.set a (some n'), channelHeap := ch' } n.minor
      (viewSlot ch' n'.channels n'.curr) := by
  have hmem : (a, n) ∈ pre ++ (a, n) :: post := by simp
  have hne : ∀ x, x ∈ pre ∨ x ∈ post → x.2.minor ≠ n.minor := fun x hx =>
    h.minor_ne_of_split rfl hx
  have hold : ∀ x, x ∈ pre ∨ x ∈ post → x ∈ pre ++ (a, n) :: post := by
    intro x hx
    rcases hx with hx | hx <;> simp [hx]
  have hcases : ∀ x, x ∈ pre ++ (a, n') :: post → x = (a, n') ∨ (x ∈ pre ∨ x ∈ post) := by
    intro x hx
    simp only [List.mem_append, List.mem_cons] at hx
    grind
  -- the channels of another node are not those of `n`, so they stay
  have hother : ∀ x, x ∈ pre ∨ x ∈ post → ∀ b, x.2.Owns b → ¬ n.Owns b := by
    intro x hx b hxb hnb
    exact hne x hx (h.owners x (hold x hx) (a, n) hmem b hxb hnb)
  have hkeep : ∀ x, x ∈ pre ∨ x ∈ post → Pointers ch' x.2.channels x.2.curr ∧
      viewSlot ch' x.2.channels x.2.curr = viewSlot s.channelHeap x.2.channels x.2.curr := by
    intro x hx
    apply (h.pointers x (hold x hx)).congr
    intro b c hxb hb
    exact hframe b c hb (hother x hx b hxb)
  have hnew : ∀ x, x ∈ pre ∨ x ∈ post → ∀ b, x.2.Owns b → ¬ n'.Owns b := by
    intro x hx b hxb hnb
    rcases howns b hnb with hnb | hfree
    · exact hother x hx b hxb hnb
    · obtain ⟨c, hc⟩ := (h.pointers x (hold x hx)).load_of_owns hxb
      rw [hfree] at hc
      cases hc
  have hlayout : Layout { s with minorHeap := s.minorHeap.set a (some n'), channelHeap := ch' }
      (pre ++ (a, n') :: post) := by
    constructor
    · exact h.chain.set hnext
    · have hnd := h.nodup
      simpa [hminor] using hnd
    · intro x hx
      rcases hcases x hx with rfl | hx
      · exact hpointers
      · exact (hkeep x hx).1
    · intro x hx y hy b hxb hyb
      rcases hcases x hx with rfl | hx <;> rcases hcases y hy with rfl | hy
      · rfl
      · exact absurd hxb (hnew y hy b hyb)
      · exact absurd hyb (hnew x hx b hxb)
      · exact h.owners x (hold x hx) y (hold y hy) b hxb hyb
  refine ⟨⟨_, hlayout⟩, ?_, ?_⟩
  · rw [← hminor]
    exact hlayout.slot_found rfl
  · intro m' hm'
    rcases node_cases (pre ++ (a, n) :: post) m' with ⟨pre', a', x, post', hsplit, rfl⟩ | hmissing
    · have hx : (a', x) ∈ pre ∨ (a', x) ∈ post := by
        have hx : (a', x) ∈ pre ++ (a, n) :: post := by simp [hsplit]
        simp only [List.mem_append, List.mem_cons, Prod.mk.injEq] at hx
        grind
      have hx' : (a', x) ∈ pre ++ (a, n') :: post := by
        rcases hx with hx | hx <;> simp [hx]
      rw [hlayout.slot_mem hx', h.slot_mem (hold _ hx)]
      exact (hkeep (a', x) hx).2
    · rw [h.slot_missing hmissing]
      apply hlayout.slot_missing
      intro x hx
      rcases hcases x hx with rfl | hx
      · show n'.minor ≠ m'
        rw [hminor]
        exact hm'.symm
      · exact hmissing x (hold x hx)

/-- **A node is added.** The list gets a node for a new minor behind the others, of which only
the links change. -/
theorem extend (h : Layout s nodes) (hm : ∀ x ∈ nodes, x.2.minor ≠ m) {s' : State}
    (nodes' : List (Nat × MinorList))
    (hchain : Chain MinorList.next s'.minorHeap s'.minors nodes')
    (hheap : s'.channelHeap = s.channelHeap)
    (hentries : nodes'.map (fun x => x.2.entry) =
      nodes.map (fun x => x.2.entry) ++ [(m, none, none)]) :
    Moved s s' m .empty := by
  -- the entries tie the new nodes to the old ones, whatever became of their links
  have hold : ∀ x ∈ nodes, ∃ y ∈ nodes', y.2.entry = x.2.entry := by
    intro x hx
    have hmem : x.2.entry ∈ nodes'.map fun y => y.2.entry := by
      rw [hentries]
      simp only [List.mem_append, List.mem_map]
      exact Or.inl ⟨x, hx, rfl⟩
    obtain ⟨y, hy, heq⟩ := List.mem_map.mp hmem
    exact ⟨y, hy, heq⟩
  have hcases : ∀ y ∈ nodes', y.2.entry = (m, none, none) ∨ ∃ x ∈ nodes, x.2.entry = y.2.entry := by
    intro y hy
    have hmem : y.2.entry ∈ nodes'.map fun y => y.2.entry := List.mem_map_of_mem hy
    rw [hentries] at hmem
    simp only [List.mem_append, List.mem_map, List.mem_singleton] at hmem
    exact hmem.symm
  have hlayout : Layout s' nodes' := by
    constructor
    · exact hchain
    · have hminors : nodes'.map (fun x => x.2.minor) = nodes.map (fun x => x.2.minor) ++ [m] := by
        have hfst := congrArg (List.map Prod.fst) hentries
        simpa [MinorList.entry, Function.comp_def] using hfst
      rw [hminors, List.nodup_append]
      refine ⟨h.nodup, List.nodup_singleton m, ?_⟩
      intro a ha b hb
      obtain ⟨x, hx, rfl⟩ := List.mem_map.mp ha
      obtain rfl := List.mem_singleton.mp hb
      exact hm x hx
    · intro y hy
      rw [hheap]
      rcases hcases y hy with hy | ⟨x, hx, hxy⟩
      · simp only [MinorList.entry, Prod.mk.injEq] at hy
        rw [hy.2.1, hy.2.2]
        exact .empty
      · simp only [MinorList.entry, Prod.mk.injEq] at hxy
        rw [← hxy.2.1, ← hxy.2.2]
        exact h.pointers x hx
    -- the new node owns no channel, and the others own what they owned
    · intro x hx y hy a hxa hya
      simp only [MinorList.entry, Prod.mk.injEq] at hcases
      unfold MinorList.Owns at hxa hya
      rcases hcases x hx with hx | ⟨x', hx', hxx⟩
      · simp [hx.2.1, hx.2.2] at hxa
      · rcases hcases y hy with hy | ⟨y', hy', hyy⟩
        · simp [hy.2.1, hy.2.2] at hya
        · rw [← hxx.1, ← hyy.1]
          apply h.owners x' hx' y' hy' a
          · unfold MinorList.Owns
            rwa [hxx.2.1, hxx.2.2]
          · unfold MinorList.Owns
            rwa [hyy.2.1, hyy.2.2]
  refine ⟨⟨nodes', hlayout⟩, ?_, ?_⟩
  · have hmem : (m, none, none) ∈ nodes'.map fun y => y.2.entry := by
      rw [hentries]
      simp
    obtain ⟨y, hy, heq⟩ := List.mem_map.mp hmem
    simp only [MinorList.entry, Prod.mk.injEq] at heq
    rw [← heq.1, hlayout.slot_mem hy, heq.2.1]
    rfl
  · intro m' hm'
    rcases node_cases nodes m' with ⟨pre, a, n, post, hsplit, rfl⟩ | hmissing
    · obtain ⟨y, hy, heq⟩ := hold (a, n) (by simp [hsplit])
      simp only [MinorList.entry, Prod.mk.injEq] at heq
      rw [h.slot_found hsplit, ← heq.1, hlayout.slot_mem hy, heq.2.1, heq.2.2, hheap]
    · rw [h.slot_missing hmissing]
      apply hlayout.slot_missing
      intro y hy
      simp only [MinorList.entry, Prod.mk.injEq] at hcases
      rcases hcases y hy with hy | ⟨x, hx, hxy⟩
      · rw [hy.1]
        exact hm'.symm
      · rw [← hxy.1]
        exact hmissing x hx

end Layout

end OsHw.Hw3
