import OsHw.Hw3.Ownership
import OsHw.Hw3.Unload

/-!
# OsHw — the channels that unloading the message slot driver leaves allocated

`cleanup` frees what the lists of the minors lead to. A channel created on a minor that has a list
already is put on no list, so nothing ever frees it.

* **`noteLost`** — a history variable: the channels created on a minor that had a list.
* **`Accounted`** — every channel is on a list, or it is one of them, and never both.
* **`leaked_channels`** — after every run, unloading the driver frees every channel but these.
-/

namespace OsHw.Hw3

open Heap (Ptr load)
open Runs

variable {s s' : State} {nodes : List (Nat × MinorList)} {m : BitVec 32} {c : Call} {out : Outcome}
  {lost : List Nat}

/-- The channels created on a minor that had a list: a call that makes the heap grow has created
the channel behind it. -/
def noteLost (x : MinorCall) (s : State) (lost : List Nat) : List Nat :=
  match step x s with
  | none => lost
  | some s' =>
    if s.channelHeap.length < s'.channelHeap.length ∧ s.channels x.1 ≠ none then
      lost ++ [s.channelHeap.length]
    else lost

theorem noteLost_of_call (hcall : call m c s = some (out, s')) :
    noteLost (m, c) s lost =
      if s.channelHeap.length < s'.channelHeap.length ∧ s.channels m ≠ none then
        lost ++ [s.channelHeap.length]
      else lost := by
  have hstep : step (m, c) s = some s' := by
    rw [step, hcall]
    rfl
  rw [noteLost, hstep]

/-- Where a channel can be found. -/
structure Accounted (s : State) (lost : List Nat) : Prop where
  layout : ∃ nodes, Layout s nodes
  held : ∀ b c, load s.channelHeap b = some c → (∃ m, s.channels m = some b) ∨ b ∈ lost
  apart : ∀ b ∈ lost, (∃ c, load s.channelHeap b = some c) ∧ ∀ m, s.channels m ≠ some b
  nodup : lost.Nodup

theorem Accounted.init : Accounted .init [] where
  layout := ⟨[], .init⟩
  held b c hb := by
    rw [State.init, load, List.getElem?_nil] at hb
    cases hb
  apart b hb := by cases hb
  nodup := List.nodup_nil

/-- A call that creates no channel and keeps the lists. -/
theorem Accounted.keep (h : Accounted s lost) (hlayout : ∃ nodes, Layout s' nodes)
    (hchannels : ∀ m, s'.channels m = s.channels m)
    (hload : ∀ b, (∃ c, load s'.channelHeap b = some c) ↔ ∃ c, load s.channelHeap b = some c) :
    Accounted s' lost where
  layout := hlayout
  held b c hb := by
    obtain ⟨c', hc'⟩ := (hload b).mp ⟨c, hb⟩
    simp only [hchannels]
    exact h.held b c' hc'
  apart b hb := by
    simp only [hchannels]
    exact ⟨(hload b).mpr (h.apart b hb).1, (h.apart b hb).2⟩
  nodup := h.nodup

/-- A lost channel is none of the cells that are still to come. -/
theorem Accounted.not_mem (h : Accounted s lost) : s.channelHeap.length ∉ lost := by
  intro hmem
  obtain ⟨⟨c, hc⟩, -⟩ := h.apart _ hmem
  exact absurd (Heap.load_lt hc) (lt_irrefl _)

/-- A list leads to a channel that is there. -/
theorem Layout.channels_load (h : Layout s nodes) {b : Nat} (hb : s.channels m = some b) :
    ∃ c, load s.channelHeap b = some c := by
  obtain ⟨n, hn, hnb⟩ := Option.bind_eq_some_iff.mp hb
  obtain ⟨x, hx, rfl, -⟩ := h.exists_mem hn
  exact (h.pointers x hx).load_of_owns (Or.inl hnb)

/-- What is there when a cell is added. -/
theorem exists_load_concat {ch : List (Option Channel)} {d : Channel} {b : Nat} :
    (∃ c, load (ch ++ [some d]) b = some c) ↔ (∃ c, load ch b = some c) ∨ b = ch.length := by
  constructor
  · rintro ⟨c, hc⟩
    by_cases hlt : b < ch.length
    · rw [Heap.load_append_of_lt hlt] at hc
      exact Or.inl ⟨c, hc⟩
    · have hbound := Heap.load_lt hc
      rw [List.length_append, List.length_singleton] at hbound
      right
      omega
  · rintro (⟨c, hc⟩ | rfl)
    · exact ⟨c, Heap.load_append_of_load hc⟩
    · exact ⟨d, Heap.load_append_new⟩

/-- What is there when a record changes. -/
theorem exists_load_set {ch : List (Option Channel)} {d e : Channel} {a b : Nat}
    (ha : load ch a = some d) :
    (∃ c, load (ch.set a (some e)) b = some c) ↔ ∃ c, load ch b = some c := by
  by_cases hab : a = b
  · subst hab
    exact iff_of_true ⟨e, Heap.load_set_self (Heap.load_lt ha)⟩ ⟨d, ha⟩
  · rw [Heap.load_set_of_ne hab]

/-- A node whose list stays. -/
theorem Layout.channels_kept {pre post : List (Nat × MinorList)} {a : Nat} {n n' : MinorList}
    {ch : List (Option Channel)} (h : Layout s (pre ++ (a, n) :: post))
    (h' : ∃ nodes, Layout { s with minorHeap := s.minorHeap.set a (some n'), channelHeap := ch }
      nodes) (hminor : n'.minor = n.minor) (hnext : n'.next = n.next)
    (hchannels : n'.channels = n.channels) (m : BitVec 32) :
    ({ s with minorHeap := s.minorHeap.set a (some n'), channelHeap := ch } : State).channels m =
      s.channels m := by
  have hpointers := h.pointers_set h' hminor hnext m
  by_cases hm : m = n.minor
  · rw [(hpointers.1 hm).1, hchannels, hm, h.channels_found rfl]
  · exact (hpointers.2 hm).1

/-- The first channel of a minor is on its list. -/
theorem Accounted.first (h : Accounted s lost) (hlayout : ∃ nodes, Layout s' nodes)
    (hnone : s.channels m = none) (hnew : s'.channels m = some s.channelHeap.length)
    (hchannels : ∀ m', m' ≠ m → s'.channels m' = s.channels m')
    (hload : ∀ b, (∃ c, load s'.channelHeap b = some c) ↔
      (∃ c, load s.channelHeap b = some c) ∨ b = s.channelHeap.length) :
    Accounted s' lost where
  layout := hlayout
  held b c hb := by
    rcases (hload b).mp ⟨c, hb⟩ with ⟨c', hc'⟩ | rfl
    · rcases h.held b c' hc' with ⟨m', hm'⟩ | hmem
      · have hne : m' ≠ m := by
          rintro rfl
          rw [hnone] at hm'
          cases hm'
        exact Or.inl ⟨m', (hchannels m' hne).trans hm'⟩
      · exact Or.inr hmem
    · exact Or.inl ⟨m, hnew⟩
  apart b hb := by
    refine ⟨(hload b).mpr (Or.inl (h.apart b hb).1), fun m' hm' => ?_⟩
    by_cases hne : m' = m
    · subst hne
      rw [hnew] at hm'
      cases hm'
      exact h.not_mem hb
    · rw [hchannels m' hne] at hm'
      exact (h.apart b hb).2 m' hm'
  nodup := h.nodup

/-- A further channel is lost. -/
theorem Accounted.further (h : Accounted s lost) (hlayout : ∃ nodes, Layout s' nodes)
    (hchannels : ∀ m, s'.channels m = s.channels m)
    (hload : ∀ b, (∃ c, load s'.channelHeap b = some c) ↔
      (∃ c, load s.channelHeap b = some c) ∨ b = s.channelHeap.length) :
    Accounted s' (lost ++ [s.channelHeap.length]) where
  layout := hlayout
  held b c hb := by
    rw [List.mem_append, List.mem_singleton]
    simp only [hchannels]
    rcases (hload b).mp ⟨c, hb⟩ with ⟨c', hc'⟩ | hnew
    · rcases h.held b c' hc' with hon | hmem
      · exact Or.inl hon
      · exact Or.inr (Or.inl hmem)
    · exact Or.inr (Or.inr hnew)
  apart b hb := by
    simp only [hchannels]
    rcases List.mem_append.mp hb with hb | hb
    · exact ⟨(hload b).mpr (Or.inl (h.apart b hb).1), (h.apart b hb).2⟩
    · obtain rfl := List.mem_singleton.mp hb
      refine ⟨(hload _).mpr (Or.inr rfl), fun m hm => ?_⟩
      -- no list led to the cell before it was allocated
      obtain ⟨nodes, hs⟩ := h.layout
      obtain ⟨c, hc⟩ := hs.channels_load hm
      exact absurd (Heap.load_lt hc) (lt_irrefl _)
  nodup := by
    refine List.nodup_append.mpr ⟨h.nodup, List.nodup_singleton _, ?_⟩
    rintro b hb _ hnew rfl
    obtain rfl := List.mem_singleton.mp hnew
    exact h.not_mem hb

/-- **One call** keeps the channels accounted for. -/
theorem Accounted.next (h : Accounted s lost) (hcall : call m c s = some (out, s')) :
    Accounted s' (noteLost (m, c) s lost) := by
  obtain ⟨nodes, hs⟩ := h.layout
  have hlayout := (moved_of_call hs hcall).1
  rw [noteLost_of_call hcall]
  cases effect_of_call hs hcall with
  | read | unopened | refused | kept =>
    rw [if_neg fun hgrow => lt_irrefl _ hgrow.1]
    exact h
  | opened kmalloc hopened =>
    rw [if_neg (by rw [hopened.channelHeap]; exact fun hgrow => lt_irrefl _ hgrow.1)]
    exact h.keep hlayout (fun m => (hopened.pointers hs m).1) (by rw [hopened.channelHeap]; simp)
  | wrote hsplit hm hcurr hb hlen =>
    rw [if_neg (by rw [List.length_set]; exact fun hgrow => lt_irrefl _ hgrow.1)]
    exact h.keep hlayout (fun m => rfl) fun _ => exists_load_set hb
  | selected kmalloc hsplit hm hchannels hf hid =>
    subst hsplit hm
    rw [if_neg fun hgrow => lt_irrefl _ hgrow.1]
    exact h.keep hlayout (hs.channels_kept hlayout rfl rfl rfl) fun _ => Iff.rfl
  | dropped hsplit hm hmiss =>
    subst hsplit hm
    rw [if_neg fun hgrow => lt_irrefl _ hgrow.1]
    exact h.keep hlayout (hs.channels_kept hlayout rfl rfl rfl) fun _ => Iff.rfl
  | first memory hsplit hm hchannels hmiss =>
    subst hsplit hm
    have hnone := (hs.channels_found rfl).trans hchannels
    have hpointers := hs.pointers_set hlayout rfl rfl
    rw [if_neg fun hgrow => hgrow.2 hnone]
    exact h.first hlayout hnone ((hpointers _).1 rfl).1 (fun m hm => ((hpointers m).2 hm).1)
      fun _ => exists_load_concat
  | further memory hsplit hm hchannels hf hmiss =>
    subst hsplit hm
    have hsome := (hs.channels_found rfl).trans hchannels
    rw [if_pos (by simp [hsome])]
    refine h.further hlayout (hs.channels_kept hlayout rfl rfl rfl) fun b => ?_
    rw [exists_load_concat, exists_load_set hf, List.length_set]

/-- **Every run** keeps the channels accounted for, and every node of a minor on the list. -/
theorem accounted_of_reaches
    (h : Reaches (withGhost step noteLost) (fun _ _ => True) (State.init, []) (s, lost)) :
    Accounted s lost ∧ AllListed s := by
  refine h.invariant (I := fun x => Accounted x.1 x.2 ∧ AllListed x.1) ⟨.init, .init⟩ ?_
  rintro ⟨m, c⟩ ⟨s, lost⟩ ⟨s', lost'⟩ ⟨haccounted, hlisted⟩ - hst
  obtain ⟨t, ht, heq⟩ := Option.map_eq_some_iff.mp hst
  obtain ⟨⟨out, t⟩, hcall, rfl⟩ := Option.map_eq_some_iff.mp ht
  cases heq
  obtain ⟨nodes, hs⟩ := haccounted.layout
  exact ⟨haccounted.next hcall, hlisted.next hs hcall⟩

/-- **The leak, exactly.** After every run, unloading the driver has a result: no node of a minor
is allocated behind it, and of the channels just those created on a minor that had a list. -/
theorem leaked_channels
    (hrun : Reaches (withGhost step noteLost) (fun _ _ => True) (State.init, []) (s, lost)) :
    ∃ s', cleanup s = some s' ∧ (∀ a, load s'.minorHeap a = none) ∧ lost.Nodup ∧
      ∀ b, (∃ c, load s'.channelHeap b = some c) ↔ b ∈ lost := by
  obtain ⟨h, hlisted⟩ := accounted_of_reaches hrun
  obtain ⟨nodes, hs⟩ := h.layout
  obtain ⟨nodes', hchain, hlen⟩ := hlisted
  obtain rfl : nodes' = nodes := hchain.functional hs.chain
  obtain ⟨s', hcleanup, hminors, hfreed, hkept⟩ := cleanup_spec hs
  refine ⟨s', hcleanup, fun a => ?_, h.nodup, fun b => ⟨?_, ?_⟩⟩
  · rw [hminors]
    by_cases ha : a < s.minorHeap.length
    · exact if_pos (hs.chain.mem_of_lt hlen ha)
    · rw [load, List.getElem?_eq_none (by omega)]
      exact ite_self none
  · rintro ⟨c, hc⟩
    have hoff : ∀ m, s.channels m ≠ some b := by
      intro m hm
      rw [hfreed b m hm] at hc
      cases hc
    rw [hkept b hoff] at hc
    exact (h.held b c hc).resolve_left (not_exists.mpr hoff)
  · intro hb
    rw [hkept b (h.apart b hb).2]
    exact (h.apart b hb).1

/-- Of three channels of one minor, the second and the third are left. -/
theorem leaked_two :
    ∃ s s', Reachable s ∧ cleanup s = some s' ∧
      ∀ b, (∃ c, load s'.channelHeap b = some c) ↔ b ∈ [1, 2] := by
  have hrun : Runs.run (withGhost step noteLost) [opens, selects 1, selects 2, selects 3]
      (State.init, []) = some _ := rfl
  have hreaches := reaches_of_run (P := fun _ _ => True) (fun _ _ _ => trivial) hrun
  obtain ⟨s', hcleanup, -, -, hleft⟩ := leaked_channels hreaches
  exact ⟨_, s', ⟨[opens, selects 1, selects 2, selects 3], _, rfl⟩, hcleanup, hleft⟩

end OsHw.Hw3
