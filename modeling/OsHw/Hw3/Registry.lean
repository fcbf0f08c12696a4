import OsHw.Hw3.Refinement

/-!
# OsHw — the minors list of the message slot driver

`deviceOpen` keeps a registry of the minors that were opened, a doubly linked list of
`MinorList` nodes, and stores the result of `kmalloc` right into the last link of it.

* **`successfulOpens`** — the minors on which an `open` has succeeded, read off a trace.
* **`Registered s opens nodes`** — the list is linked both ways and holds each minor of `opens`
  once, in the order of first occurrence.
* **`registry_exact`** — this holds after every run, with any answers of `kmalloc`.
-/

namespace OsHw.Hw3

open Heap (Ptr Chain Doubly load lastOf)

variable {s s' : State} {nodes pre post : List (Nat × MinorList)} {m : BitVec 32} {c : Call}
  {out : Outcome} {opens : List (BitVec 32)}

/-! ## Successful opens -/

/-- The minor, if the call is an `open` that returned `SUCCESS`. -/
def successfulOpen (x : MinorCall × Outcome) : Option (BitVec 32) :=
  match x with
  | ((m, .open _), out) => if out.ret = SUCCESS then some m else none
  | _ => none

/-- The minors of the successful opens of a run, once for each of them. -/
def successfulOpens (trace : List (MinorCall × Outcome)) : List (BitVec 32) :=
  trace.filterMap successfulOpen

theorem successfulOpen_open (kmalloc : Option MinorList) (hret : out.ret = SUCCESS) :
    successfulOpen ((m, .open kmalloc), out) = some m :=
  if_pos hret

theorem successfulOpen_failed (kmalloc : Option MinorList) (hret : out.ret ≠ SUCCESS) :
    successfulOpen ((m, .open kmalloc), out) = none :=
  if_neg hret

theorem eraseDups_concat_of_mem (hm : m ∈ opens) :
    (opens ++ [m]).eraseDups = opens.eraseDups := by
  have hgone : [m].removeAll opens = [] := by simp [List.removeAll, hm]
  rw [List.eraseDups_append, hgone, List.eraseDups_nil, List.append_nil]

theorem eraseDups_concat_of_not_mem (hm : m ∉ opens) :
    (opens ++ [m]).eraseDups = opens.eraseDups ++ [m] := by
  have hkept : [m].removeAll opens = [m] := by simp [List.removeAll, hm]
  rw [List.eraseDups_append, hkept]
  rfl

/-! ## The registry -/

/-- The minors list visits `nodes` in both directions, and these are the nodes of the minors in
`opens`, in the order in which they occur there first. -/
structure Registered (s : State) (opens : List (BitVec 32)) (nodes : List (Nat × MinorList)) :
    Prop where
  layout : Layout s nodes
  linked : Doubly MinorList.next MinorList.prev s.minorHeap s.minors nodes
  minors : nodes.map (fun x => x.2.minor) = opens.eraseDups

namespace Registered

theorem init : Registered .init [] [] :=
  ⟨.init, ⟨rfl, rfl⟩, rfl⟩

/-- A minor is registered if it was opened. -/
theorem exists_iff (h : Registered s opens nodes) :
    (∃ x ∈ nodes, x.2.minor = m) ↔ m ∈ opens := by
  rw [← List.mem_eraseDups, ← h.minors, List.mem_map]

/-- Opening a registered minor again changes nothing, whatever `kmalloc` would answer. -/
theorem reopen (h : Registered s opens nodes) {x : Nat × MinorList} (hx : x ∈ nodes)
    (kmalloc : Option MinorList) :
    call x.2.minor (.open kmalloc) s = some (⟨SUCCESS, []⟩, s) := by
  have hopened : s.slot x.2.minor ≠ .unopened := by
    rw [h.layout.slot_mem hx]
    exact viewSlot_ne_unopened _ _ _
  rw [call, deviceOpen_opened h.layout hopened]
  rfl

/-- A node changes, but not its links and not its minor. -/
theorem set {a : Nat} {n n' : MinorList} {ch : List (Option Channel)}
    (h : Registered s opens (pre ++ (a, n) :: post))
    (hlayout : ∃ nodes,
      Layout { s with minorHeap := s.minorHeap.set a (some n'), channelHeap := ch } nodes)
    (hminor : n'.minor = n.minor) (hnext : n'.next = n.next) (hprev : n'.prev = n.prev) :
    Registered { s with minorHeap := s.minorHeap.set a (some n'), channelHeap := ch } opens
      (pre ++ (a, n') :: post) := by
  obtain ⟨nodes, hlayout⟩ := hlayout
  have hlinked := h.linked.set hnext hprev
  obtain rfl : nodes = pre ++ (a, n') :: post := hlayout.chain.functional hlinked.forward
  refine ⟨hlayout, hlinked, ?_⟩
  rw [← h.minors]
  simp [hminor]

/-- A node is added behind the others. -/
theorem add (h : Registered s opens nodes) (hm : m ∉ opens) {nodes' : List (Nat × MinorList)}
    (hlayout : ∃ nodes, Layout s' nodes)
    (hlinked : Doubly MinorList.next MinorList.prev s'.minorHeap s'.minors nodes')
    (hminors : nodes'.map (fun x => x.2.minor) = nodes.map (fun x => x.2.minor) ++ [m]) :
    Registered s' (opens ++ [m]) nodes' := by
  obtain ⟨nodes₁, hlayout⟩ := hlayout
  obtain rfl : nodes₁ = nodes' := hlayout.chain.functional hlinked.forward
  refine ⟨hlayout, hlinked, ?_⟩
  rw [hminors, h.minors, eraseDups_concat_of_not_mem hm]

/-- **`deviceOpen`** registers a new minor last, or fails and changes nothing. -/
theorem open_next (h : Registered s opens nodes) {kmalloc : Option MinorList}
    (hcall : call m (.open kmalloc) s = some (out, s')) :
    ∃ nodes', Registered s'
      (opens ++ (successfulOpen ((m, .open kmalloc), out)).toList) nodes' := by
  by_cases hm : m ∈ opens
  · -- a hit
    obtain ⟨x, hx, rfl⟩ := h.exists_iff.mpr hm
    rw [h.reopen hx] at hcall
    cases hcall
    refine ⟨nodes, h.layout, h.linked, ?_⟩
    rw [successfulOpen_open kmalloc rfl, Option.toList_some, eraseDups_concat_of_mem hm]
    exact h.minors
  · have hmissing : ∀ x ∈ nodes, x.2.minor ≠ m := by
      intro x hx hxm
      exact hm (h.exists_iff.mp ⟨x, hx, hxm⟩)
    cases kmalloc with
    | none =>
      rw [call, deviceOpen_failed h.layout hmissing] at hcall
      cases hcall
      refine ⟨nodes, ?_⟩
      rw [successfulOpen_failed none (show -ENOMEM ≠ SUCCESS by decide), Option.toList_none, List.append_nil]
      exact h
    | some memory =>
      rcases List.eq_nil_or_concat' nodes with rfl | ⟨pre, ⟨a, n⟩, rfl⟩
      · -- an empty list
        rw [call, deviceOpen_first h.layout] at hcall
        cases hcall
        have hlayout := ((opened_first s m).moved h.layout).1
        exact ⟨_, h.add hm hlayout (.singleton Heap.load_append_new rfl rfl) rfl⟩
      · rw [call, deviceOpen_behind h.layout hmissing] at hcall
        cases hcall
        have hlayout := ((opened_behind h.layout hmissing).moved h.layout).1
        refine ⟨_, h.add hm hlayout (h.linked.snoc rfl rfl rfl rfl) ?_⟩
        simp

/-- Only `open` changes the registry. -/
theorem keep (h : Registered s opens nodes) (hcall : call m c s = some (out, s'))
    (hc : ∀ kmalloc, c ≠ .open kmalloc) : ∃ nodes', Registered s' opens nodes' := by
  obtain ⟨hlayout, -⟩ := moved_of_call h.layout hcall
  have heffect := effect_of_call h.layout hcall
  cases heffect with
  | read | refused | kept => exact ⟨nodes, h⟩
  | unopened kmalloc ret => exact absurd rfl (hc kmalloc)
  | opened kmalloc hopened => exact absurd rfl (hc kmalloc)
  | wrote hsplit hm hcurr hb hlen =>
    obtain ⟨nodes', hlayout⟩ := hlayout
    obtain rfl : nodes' = nodes := hlayout.chain.functional h.linked.forward
    exact ⟨nodes', hlayout, h.linked, h.minors⟩
  | selected kmalloc hsplit hm hchannels hf hid =>
    subst hsplit
    exact ⟨_, h.set hlayout rfl rfl rfl⟩
  | dropped hsplit hm hmiss =>
    subst hsplit
    exact ⟨_, h.set hlayout rfl rfl rfl⟩
  | first memory hsplit hm hchannels hmiss =>
    subst hsplit
    exact ⟨_, h.set hlayout rfl rfl rfl⟩
  | further memory hsplit hm hchannels hf hmiss =>
    subst hsplit
    exact ⟨_, h.set hlayout rfl rfl rfl⟩

/-- **One call.** -/
theorem next (h : Registered s opens nodes) (hcall : call m c s = some (out, s')) :
    ∃ nodes', Registered s' (opens ++ (successfulOpen ((m, c), out)).toList) nodes' := by
  cases c with
  | «open» kmalloc => exact h.open_next hcall
  | read len | write buff len | ioctl kmalloc cmd p =>
    show ∃ nodes', Registered s' (opens ++ []) nodes'
    rw [List.append_nil]
    exact h.keep hcall nofun

/-- **A run** goes on with the registry it finds. -/
theorem run_next (h : Registered s opens nodes) {calls : List MinorCall}
    {trace : List (MinorCall × Outcome)} (hrun : run calls s = some (trace, s')) :
    ∃ nodes', Registered s' (opens ++ successfulOpens trace) nodes' := by
  induction calls generalizing s opens nodes trace with
  | nil =>
    cases hrun
    exact ⟨nodes, by simpa [successfulOpens] using h⟩
  | cons x calls ih =>
    obtain ⟨m, c⟩ := x
    obtain ⟨⟨out, t⟩, hcall, hrest⟩ := Option.bind_eq_some_iff.mp hrun
    obtain ⟨⟨trace', t'⟩, hrest, heq⟩ := Option.bind_eq_some_iff.mp hrest
    cases heq
    obtain ⟨nodes₁, h₁⟩ := h.next hcall
    obtain ⟨nodes', h'⟩ := ih h₁ hrest
    refine ⟨nodes', ?_⟩
    rw [List.append_assoc] at h'
    cases hopen : successfulOpen ((m, c), out) with
    | none => simpa [successfulOpens, hopen] using h'
    | some m' => simpa [successfulOpens, hopen] using h'

end Registered

/-- **The registry is exact.** Every run of calls, whatever `kmalloc` answers, ends with a minors
list of finitely many nodes that visits no address twice. Its `prev` pointers visit it backwards,
and are inverse to its `next` pointers. Its minors are distinct, and they are those on which some
`open` of the run has returned `SUCCESS`, in the order of the first one. Opening one of them again
succeeds and leaves the whole driver as it is. -/
theorem registry_exact (calls : List MinorCall) :
    ∃ trace s nodes, run calls .init = some (trace, s) ∧
      Chain MinorList.next s.minorHeap s.minors nodes ∧ (nodes.map Prod.fst).Nodup ∧
      Chain MinorList.prev s.minorHeap (lastOf none nodes) nodes.reverse ∧
      (∀ x ∈ nodes, ∀ y ∈ nodes, x.2.next = some y.1 ↔ y.2.prev = some x.1) ∧
      (nodes.map fun x => x.2.minor).Nodup ∧
      (nodes.map fun x => x.2.minor) = (successfulOpens trace).eraseDups ∧
      ∀ x ∈ nodes, ∀ kmalloc, call x.2.minor (.open kmalloc) s = some (⟨SUCCESS, []⟩, s) := by
  obtain ⟨s, hrun, -⟩ := run_slots Layout.init calls
  obtain ⟨nodes, h⟩ := Registered.init.run_next hrun
  exact ⟨_, s, nodes, hrun, h.linked.forward, h.linked.forward.nodup, h.linked.backward,
    fun x hx y hy => h.linked.next_iff hx hy, h.layout.nodup, h.minors, fun x hx => h.reopen hx⟩

end OsHw.Hw3
