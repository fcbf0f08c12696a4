import OsHw.Hw3.History

/-!
# OsHw — failing calls of the message slot driver

A call that returns an error should leave the driver as it was. Of the error exits only one has
stored something before: `ioctl` stores the result of `kmalloc` into `curr` and checks it then.

* **`Unchanged`** — the minors list, the selections and the data of the channels are the same.
* **`Drops`** — a call that needs memory for a channel and gets none, while one is selected.
* **`failure_unchanged_iff`** — from every reachable state, a failing call leaves the driver
  unchanged exactly if it does not drop a selection.
-/

namespace OsHw.Hw3

open Heap (Ptr load)

variable {s s' : State} {nodes : List (Nat × MinorList)} {m : BitVec 32} {c : Call} {out : Outcome}

/-- The minors list with its nodes, every selection, and the data of every channel are what they
were. -/
structure Unchanged (s s' : State) : Prop where
  minors : s'.minors = s.minors
  nodes : ∀ a, (load s'.minorHeap a).map (fun n => { n with curr := none }) =
    (load s.minorHeap a).map (fun n => { n with curr := none })
  curr : ∀ m, s'.curr m = s.curr m
  channels : ∀ a, (load s'.channelHeap a).map Channel.toChannelData =
    (load s.channelHeap a).map Channel.toChannelData

theorem Unchanged.self (s : State) : Unchanged s s :=
  ⟨rfl, fun _ => rfl, fun _ => rfl, fun _ => rfl⟩

/-- An `ioctl` without memory, on a minor with a selected channel, for a number that neither the
selected nor the listed channel has. -/
def Drops (m : BitVec 32) (c : Call) (s : State) : Prop :=
  ∃ p, c = .ioctl none MSG_SLOT_CHANNEL p ∧ s.curr m ≠ none ∧
    ∀ n, s.node m = some n → n.Misses s.channelHeap p

/-- A selection is one of a node of the list. -/
theorem Layout.exists_node (h : Layout s nodes) (hcurr : s.curr m ≠ none) :
    ∃ x ∈ nodes, x.2.minor = m ∧ s.node m = some x.2 := by
  rcases node_cases nodes m with ⟨pre, a, n, post, rfl, rfl⟩ | hmissing
  · exact ⟨(a, n), by simp, rfl, h.node_found rfl⟩
  · exact absurd (h.curr_missing hmissing) hcurr

/-- **Failing calls.** A call that fails leaves the driver unchanged exactly if it does not drop
a selection. -/
theorem failure_unchanged_iff (hs : Reachable s) (hcall : call m c s = some (out, s'))
    (hfail : out.ret < 0) : Unchanged s s' ↔ ¬ Drops m c s := by
  obtain ⟨nodes, h⟩ := hs.layout
  have hpos : ¬ SUCCESS < 0 := by decide
  have heffect := effect_of_call h hcall
  cases heffect with
  | read len =>
    refine iff_of_true (.self s) ?_
    rintro ⟨p, hc, -⟩
    cases hc
  | unopened kmalloc ret =>
    refine iff_of_true (.self s) ?_
    rintro ⟨p, hc, -⟩
    cases hc
  | refused buff len hret =>
    refine iff_of_true (.self s) ?_
    rintro ⟨p, hc, -⟩
    cases hc
  | kept kmalloc ret hkept =>
    refine iff_of_true (.self s) ?_
    rintro ⟨p, hc, hcurr, hmiss⟩
    cases hc
    obtain ⟨x, hx, hxm, hnode⟩ := h.exists_node hcurr
    exact hkept rfl x hx hxm (hmiss x.2 hnode)
  | opened kmalloc hopened => exact absurd hfail hpos
  | @wrote pre post a b n d buff len hsplit hm hcurr hb hlen =>
    exact absurd hfail (not_lt.mpr (Int.natCast_nonneg len.toNat))
  | selected kmalloc hsplit hm hchannels hf hid => exact absurd hfail hpos
  | first memory hsplit hm hchannels hmiss => exact absurd hfail hpos
  | further memory hsplit hm hchannels hf hmiss => exact absurd hfail hpos
  | @dropped pre post a n p hsplit hm hmiss =>
    subst hsplit hm
    have hnode := h.node_found rfl
    cases hcurr : n.curr with
    | none =>
      -- `NULL` is stored over `NULL`
      have hsame : ({ n with curr := none } : MinorList) = n := by rw [← hcurr]
      rw [hsame, Heap.set_eq_self (h.load_node rfl)]
      refine iff_of_true (.self s) ?_
      rintro ⟨q, -, hsome, -⟩
      exact hsome ((h.curr_found rfl).trans hcurr)
    | some b =>
      have hsome : s.curr n.minor = some b := (h.curr_found rfl).trans hcurr
      have hnone := h.curr_of_failed_ioctl hcall (by decide)
      refine iff_of_false ?_ ?_
      · intro hsame
        have hkeep := hsame.curr n.minor
        rw [hnone, hsome] at hkeep
        cases hkeep
      · intro hkeep
        refine hkeep ⟨p, rfl, by rw [hsome]; simp, fun n' hn' => ?_⟩
        rw [hnode] at hn'
        cases hn'
        exact hmiss

/-- A message is stored in the selected channel, and a `write` of 129 bytes behind it is
refused. -/
theorem failure_unchanged : ∃ s s', Reachable s ∧
    (s.selected 0).map (fun c => c.contents) = some [97] ∧
    call 0 (.write (some fun _ => 98) 129) s = some (⟨-EINVAL, []⟩, s') ∧ Unchanged s s' := by
  obtain ⟨s, s', hreach, hstored, hcall⟩ : ∃ s s', Reachable s ∧
      (s.selected 0).map (fun c => c.contents) = some [97] ∧
      call 0 (.write (some fun _ => 98) 129) s = some (⟨-EINVAL, []⟩, s') :=
    ⟨_, _, ⟨[opens, selects 1, writes], _, rfl⟩, rfl, rfl⟩
  refine ⟨s, s', hreach, hstored, hcall, (failure_unchanged_iff hreach hcall (by decide)).mpr ?_⟩
  rintro ⟨p, hc, -⟩
  cases hc

/-- A client that has selected channel 1 asks for channel 2, and there is no memory for it: now
nothing is selected. -/
theorem selection_dropped :
    ¬ ∀ (s s' : State) (m : BitVec 32) (c : Call) (out : Outcome), Reachable s →
      call m c s = some (out, s') → out.ret < 0 → Unchanged s s' := by
  intro h
  have hsame := h _ _ 0 (.ioctl none MSG_SLOT_CHANNEL 2) _ ⟨[opens, selects 1], _, rfl⟩ rfl
    (by decide)
  have hcurr : (none : Ptr) = some 0 := hsame.curr 0
  cases hcurr

end OsHw.Hw3
