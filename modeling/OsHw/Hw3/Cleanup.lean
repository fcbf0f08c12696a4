import OsHw.Hw3.Layout

/-!
# OsHw — unloading the message slot driver

`cleanup` walks the minors list and frees every node, each one behind the channels on its list.

* **`freeMinorsLoop_chain`** — the walk frees the nodes of a minors list and the channels on their
  lists, if the lists do not meet.
* **`cleanup_spec`** — so it does from every well-linked heap; what is on no list stays.
-/

namespace OsHw.Hw3

open Heap (Ptr Chain load)

def freeList (channelList : Ptr) (channelHeap : List (Option Channel)) :
    Option (List (Option Channel)) :=
  match channelList with
  | none => some channelHeap
  | some first => do
    let _ ← load channelHeap first
    Heap.freeLoop Channel.next (channelHeap.length + 1) (some first) channelHeap

/-- The loop of `freeMinors`, from `prev` on. -/
def freeMinorsLoop : Nat → Ptr → State → Option State
  | 0, _, _ => none
  | _ + 1, none, s => some s
  | fuel + 1, some prev, s => do
    let node ← load s.minorHeap prev
    let channelHeap ← freeList node.channels s.channelHeap
    let minorHeap ← Heap.kfree s.minorHeap prev
    freeMinorsLoop fuel node.next { s with minorHeap, channelHeap }

def freeMinors (s : State) : Option State :=
  match s.minors with
  | none => some s
  | some first => do
    let _ ← load s.minorHeap first
    freeMinorsLoop (s.minorHeap.length + 1) (some first) s

/-- The driver's memory after it was unloaded. -/
def cleanup (s : State) : Option State := freeMinors s

variable {s : State} {nodes : List (Nat × MinorList)} {p : Ptr} {fuel : Nat}

theorem freeList_chain {ch : List (Option Channel)} {l : List (Nat × Channel)}
    (hc : Chain Channel.next ch p l) :
    ∃ ch', freeList p ch = some ch' ∧ ch'.length = ch.length ∧
      ∀ b, load ch' b = if b ∈ l.map Prod.fst then none else load ch b := by
  cases l with
  | nil =>
    obtain rfl : p = none := hc
    exact ⟨ch, rfl, rfl, fun b => by simp⟩
  | cons x l =>
    obtain ⟨ch', hfree, hch'⟩ := Heap.freeLoop_chain hc (Nat.lt_succ_of_le hc.length_le)
    obtain ⟨rfl, hload, -⟩ := hc
    refine ⟨ch', ?_, hch'⟩
    rw [freeList, hload]
    exact hfree

/-- The addresses of the channels on the lists of some nodes. -/
def addresses (lists : Nat × MinorList → List (Nat × Channel)) (nodes : List (Nat × MinorList)) :
    List Nat :=
  nodes.flatMap fun x => (lists x).map Prod.fst

/-- **The walk.** Induction on the nodes: their lists stay, as they do not meet the list just
freed. -/
theorem freeMinorsLoop_chain (lists : Nat × MinorList → List (Nat × Channel))
    (hc : Chain MinorList.next s.minorHeap p nodes)
    (hlists : ∀ x ∈ nodes, Chain Channel.next s.channelHeap x.2.channels (lists x))
    (hapart : nodes.Pairwise fun x y => ∀ b ∈ (lists x).map Prod.fst,
      b ∉ (lists y).map Prod.fst) (hf : nodes.length < fuel) :
    ∃ s', freeMinorsLoop fuel p s = some s' ∧
      (∀ a, load s'.minorHeap a = if a ∈ nodes.map Prod.fst then none else load s.minorHeap a) ∧
      ∀ b, load s'.channelHeap b =
        if b ∈ addresses lists nodes then none else load s.channelHeap b := by
  induction nodes generalizing s p fuel with
  | nil =>
    obtain rfl : p = none := hc
    cases fuel with
    | zero => exact absurd hf (by simp)
    | succ fuel => exact ⟨s, rfl, fun a => by simp, fun b => by simp [addresses]⟩
  | cons x nodes ih =>
    obtain ⟨a, n⟩ := x
    cases fuel with
    | zero => exact absurd hf (by simp)
    | succ fuel =>
      have hnd := hc.nodup
      rw [List.map_cons, List.nodup_cons] at hnd
      obtain ⟨hfirst, hapart⟩ := List.pairwise_cons.mp hapart
      obtain ⟨rfl, hload, hrest⟩ := hc
      obtain ⟨ch', hfree, -, hch'⟩ := freeList_chain (hlists (a, n) (by simp))
      have hrest' : Chain MinorList.next (s.minorHeap.set a none) n.next nodes := by
        refine hrest.congr fun y hy => ?_
        have hne : y.1 ≠ a := fun heq => hnd.1 (List.mem_map.mpr ⟨y, hy, heq⟩)
        rw [Heap.load_set_none, if_neg hne]
        exact hrest.mem_load hy
      have hlists' : ∀ y ∈ nodes, Chain Channel.next ch' y.2.channels (lists y) := by
        intro y hy
        have hcy := hlists y (by simp [hy])
        refine hcy.congr fun z hz => ?_
        have hz' : z.1 ∉ (lists (a, n)).map Prod.fst := fun hmem =>
          hfirst y hy z.1 hmem (List.mem_map_of_mem hz)
        rw [hch', if_neg hz']
        exact hcy.mem_load hz
      obtain ⟨s', hloop, hminors, hchannels⟩ :=
        ih (s := { s with minorHeap := s.minorHeap.set a none, channelHeap := ch' }) hrest' hlists'
          hapart (by simpa using hf)
      refine ⟨s', ?_, fun d => ?_, fun b => ?_⟩
      · rw [freeMinorsLoop, hload, Option.bind_eq_bind, Option.bind_some, hfree,
          Option.bind_eq_bind, Option.bind_some, Heap.kfree_eq hload]
        exact hloop
      · simp only [hminors, Heap.load_set_none, List.map_cons, List.mem_cons]
        by_cases hd : d = a
        · simp only [hd, true_or, if_true, ite_self]
        · simp only [hd, false_or, if_false]
      · simp only [hchannels, hch', addresses, List.flatMap_cons, List.mem_append]
        by_cases hb : b ∈ (lists (a, n)).map Prod.fst
        · simp only [hb, true_or, if_true, ite_self]
        · simp only [hb, false_or, if_false]

/-- The channels on the list of a node that has at most one of them. -/
def listed (ch : List (Option Channel)) (n : MinorList) : List (Nat × Channel) :=
  (n.channels.bind fun a => (load ch a).map fun c => (a, c)).toList

theorem Pointers.listed {ch : List (Option Channel)} {n : MinorList}
    (h : Pointers ch n.channels n.curr) : Chain Channel.next ch n.channels (listed ch n) ∧
      ∀ b, b ∈ (Hw3.listed ch n).map Prod.fst ↔ n.channels = some b := by
  have hone : ∀ a c, n.channels = some a → load ch a = some c → c.next = none →
      Chain Channel.next ch n.channels (Hw3.listed ch n) ∧
        ∀ b, b ∈ (Hw3.listed ch n).map Prod.fst ↔ n.channels = some b := by
    intro a c hchannels ha hnext
    have hlist : Hw3.listed ch n = [(a, c)] := by
      rw [Hw3.listed, hchannels, Option.bind_some, ha]
      rfl
    rw [hlist, hchannels]
    refine ⟨⟨rfl, ha, hnext⟩, fun b => ?_⟩
    simp [eq_comm]
  obtain ⟨minor, channels, curr, prev, next⟩ := n
  cases h with
  | empty =>
    refine ⟨rfl, fun b => ?_⟩
    simp [Hw3.listed]
  | nothing ha hnext => exact hone _ _ rfl ha hnext
  | first ha hnext => exact hone _ _ rfl ha hnext
  | unlisted ha hnext => exact hone _ _ rfl ha hnext

/-- **Unloading** frees the nodes of the minors list and the channels on their lists, each one
once, and nothing else. -/
theorem cleanup_spec (h : Layout s nodes) :
    ∃ s', cleanup s = some s' ∧
      (∀ a, load s'.minorHeap a = if a ∈ nodes.map Prod.fst then none else load s.minorHeap a) ∧
      (∀ b m, s.channels m = some b → load s'.channelHeap b = none) ∧
      ∀ b, (∀ m, s.channels m ≠ some b) → load s'.channelHeap b = load s.channelHeap b := by
  have hlisted := fun x hx => (h.pointers x hx).listed
  have hapart : nodes.Pairwise fun x y => ∀ b ∈ (listed s.channelHeap x.2).map Prod.fst,
      b ∉ (listed s.channelHeap y.2).map Prod.fst := by
    have hminors : nodes.Pairwise fun x y => x.2.minor ≠ y.2.minor := List.pairwise_map.mp h.nodup
    refine hminors.imp_of_mem fun {x y} hx hy hne b hxb hyb => ?_
    exact hne (h.owners x hx y hy b (Or.inl (((hlisted x hx).2 b).mp hxb))
      (Or.inl (((hlisted y hy).2 b).mp hyb)))
  obtain ⟨s', hloop, hminors, hchannels⟩ := freeMinorsLoop_chain
    (fun x => listed s.channelHeap x.2) h.chain (fun x hx => (hlisted x hx).1) hapart
    (Nat.lt_succ_of_le h.chain.length_le)
  have hmem : ∀ b, b ∈ addresses (fun x => listed s.channelHeap x.2) nodes ↔
      ∃ m, s.channels m = some b := by
    intro b
    simp only [addresses, List.mem_flatMap]
    constructor
    · rintro ⟨x, hx, hb⟩
      refine ⟨x.2.minor, ?_⟩
      rw [State.channels, h.node_mem hx]
      exact ((hlisted x hx).2 b).mp hb
    · rintro ⟨m, hb⟩
      obtain ⟨n, hn, hb⟩ := Option.bind_eq_some_iff.mp hb
      obtain ⟨x, hx, rfl, -⟩ := h.exists_mem hn
      exact ⟨x, hx, ((hlisted x hx).2 b).mpr hb⟩
  refine ⟨s', ?_, hminors, ?_, ?_⟩
  · rw [cleanup, freeMinors]
    cases nodes with
    | nil =>
      have hnil : s.minors = none := h.chain
      rw [hnil] at hloop ⊢
      exact hloop
    | cons x nodes =>
      obtain ⟨hfirst, hload, -⟩ := h.chain
      rw [hfirst] at hloop ⊢
      dsimp only
      rw [hload]
      exact hloop
  · intro b m hb
    rw [hchannels, if_pos ((hmem b).mpr ⟨m, hb⟩)]
  · intro b hb
    rw [hchannels, if_neg]
    intro hin
    obtain ⟨m, hm⟩ := (hmem b).mp hin
    exact hb m hm

end OsHw.Hw3
