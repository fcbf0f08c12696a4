import OsHw.Hw3.Cleanup
import OsHw.Hw3.Refinement

/-!
# OsHw — unloading the message slot driver after any run

`cleanup` has a result only if every `kfree` gets a live node and every field is read from one,
and if its loops end. Here it has one in every reachable state, and then no minor is left.

* **`AllListed`** — the minors list is as long as the heap of its nodes, so no node is lost.
* **`unload_safe`** — what unloading frees.
-/

namespace OsHw.Hw3

open Heap (Ptr Chain load)

variable {s s' : State} {nodes : List (Nat × MinorList)} {m : BitVec 32} {c : Call} {out : Outcome}

/-- Every node that was ever allocated is on the minors list. -/
def AllListed (s : State) : Prop :=
  ∃ nodes, Chain MinorList.next s.minorHeap s.minors nodes ∧ s.minorHeap.length ≤ nodes.length

theorem initMinor_length {prev : Ptr} {curr : Nat} {ret : Int}
    (h : initMinor m prev curr s = some (ret, s')) :
    s'.minorHeap.length = s.minorHeap.length := by
  obtain ⟨minorHeap, hmodify, heq⟩ := Option.bind_eq_some_iff.mp h
  cases heq
  exact Heap.length_modify hmodify

/-- A call allocates at most one node. -/
theorem deviceOpen_length {kmalloc : Option MinorList} {ret : Int}
    (h : deviceOpen kmalloc m s = some (ret, s')) :
    s'.minorHeap.length ≤ s.minorHeap.length + 1 := by
  have hle := Heap.length_kmalloc_le s.minorHeap kmalloc
  unfold deviceOpen at h
  split at h
  · obtain ⟨⟨prev, curr⟩, -, h⟩ := Option.bind_eq_some_iff.mp h
    dsimp only at h
    split at h
    · cases h
      exact Nat.le_succ _
    · obtain ⟨last, -, h⟩ := Option.bind_eq_some_iff.mp h
      obtain ⟨minorHeap, hmodify, h⟩ := Option.bind_eq_some_iff.mp h
      rw [← Heap.length_modify hmodify] at hle
      split at h
      · cases h
        exact hle
      · rw [initMinor_length h]
        exact hle
  · dsimp only at h
    split at h
    · cases h
      exact hle
    · rw [initMinor_length h]
      exact hle

theorem AllListed.init : AllListed .init := ⟨[], rfl, Nat.le_refl 0⟩

/-- A node changes, but not its link. -/
theorem AllListed.set {pre post : List (Nat × MinorList)} {a : Nat} {n n' : MinorList}
    (h : AllListed s) (hs : Layout s (pre ++ (a, n) :: post)) (hnext : n'.next = n.next)
    (ch : List (Option Channel)) :
    AllListed { s with minorHeap := s.minorHeap.set a (some n'), channelHeap := ch } := by
  obtain ⟨nodes, hchain, hlen⟩ := h
  obtain rfl : nodes = pre ++ (a, n) :: post := hchain.functional hs.chain
  refine ⟨pre ++ (a, n') :: post, hs.chain.set hnext, ?_⟩
  rw [List.length_set, List.length_append, List.length_cons]
  rw [List.length_append, List.length_cons] at hlen
  exact hlen

/-- **One call** leaves every node on the list. -/
theorem AllListed.next (hs : Layout s nodes) (h : AllListed s)
    (hcall : call m c s = some (out, s')) : AllListed s' := by
  have heffect := effect_of_call hs hcall
  cases heffect with
  | read | unopened | refused | kept | wrote => exact h
  | opened kmalloc hopened =>
    obtain ⟨nodes₀, hchain, hlen⟩ := h
    obtain rfl : nodes₀ = nodes := hchain.functional hs.chain
    obtain ⟨nodes', hchain', hentries⟩ := hopened.chain
    obtain ⟨⟨ret, t⟩, hopen, heq⟩ := Option.map_eq_some_iff.mp hcall
    cases heq
    have hgrow := deviceOpen_length hopen
    have hlen' := congrArg List.length hentries
    rw [List.length_append, List.length_map, List.length_map, List.length_singleton] at hlen'
    refine ⟨nodes', hchain', ?_⟩
    show t.minorHeap.length ≤ nodes'.length
    omega
  | selected kmalloc hsplit =>
    subst hsplit
    apply h.set hs
    rfl
  | dropped hsplit =>
    subst hsplit
    apply h.set hs
    rfl
  | first memory hsplit =>
    subst hsplit
    apply h.set hs
    rfl
  | further memory hsplit =>
    subst hsplit
    apply h.set hs
    rfl

/-- **Unloading is safe** in every reachable state: `cleanup` ends, having passed only live nodes
to `kfree` and read only live nodes; no node of a minor is left, and of the channels it has freed
those on the lists and no other one. -/
theorem unload_safe (hs : Reachable s) :
    ∃ s', cleanup s = some s' ∧ (∀ a, load s'.minorHeap a = none) ∧
      (∀ b m, s.channels m = some b → load s'.channelHeap b = none) ∧
      ∀ b, (∀ m, s.channels m ≠ some b) → load s'.channelHeap b = load s.channelHeap b := by
  obtain ⟨nodes, hlayout⟩ := hs.layout
  obtain ⟨nodes', hchain, hlen⟩ := hs.invariant AllListed.init AllListed.next
  obtain rfl : nodes' = nodes := hchain.functional hlayout.chain
  obtain ⟨s', hcleanup, hminors, hfreed, hkept⟩ := cleanup_spec hlayout
  refine ⟨s', hcleanup, fun a => ?_, hfreed, hkept⟩
  rw [hminors]
  split
  · rfl
  · next hnot =>
    cases ha : load s.minorHeap a with
    | none => rfl
    | some n => exact absurd (hchain.mem_of_lt hlen (Heap.load_lt ha)) hnot

/-- Two minors and a channel are freed. -/
theorem unload_two_minors :
    ∃ s', cleanup (⟨some 0, [some ⟨0, some 0, some 0, none, some 1⟩,
        some ⟨1, none, none, some 0, none⟩],
        [some ⟨⟨7, Vector.replicate BUFFER_LENGTH 0, 0⟩, none, none⟩]⟩ : State) = some s' ∧
      ∀ a, load s'.minorHeap a = none := by
  obtain ⟨s', hcleanup, hminors, -⟩ := unload_safe (s := ⟨some 0,
      [some ⟨0, some 0, some 0, none, some 1⟩, some ⟨1, none, none, some 0, none⟩],
      [some ⟨⟨7, Vector.replicate BUFFER_LENGTH 0, 0⟩, none, none⟩]⟩)
    ⟨[(0, .open (some ⟨9, none, none, none, none⟩)),
      (0, .ioctl (some ⟨⟨9, Vector.replicate BUFFER_LENGTH 0, 9⟩, none, none⟩)
        MSG_SLOT_CHANNEL 7),
      (1, .open (some ⟨9, none, none, none, none⟩))], _, rfl⟩
  exact ⟨s', hcleanup, hminors⟩

end OsHw.Hw3
