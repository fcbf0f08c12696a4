import Mathlib.Data.List.Nodup
import Mathlib.Data.List.NodupEquivFin
import Mathlib.Tactic.Common

/-!
# OsHw — heaps of records and singly linked lists in them

A heap of records of one type, addressed by position, and the lists that a field of the
records links up. Nothing here knows what the records are.

* **`Ptr`** — an address or `NULL` (`none`).
* **`load` / `modify` / `kmalloc`** — reading a record, changing one through a pointer, and
  allocating one that the allocator may refuse. A dangling address has no result.
* **`Chain next h p l`** — from `p`, the field `next` visits exactly the records of `l`, in
  this order, and ends in `NULL`. Such a list never visits an address twice.
* **`search`** — the loop `while (curr != NULL) { if (test) break; prev = curr; curr =
  curr->next; }`, and what it finds in a chain.
* **`Doubly next prev h p l`** — the list is linked both ways: `prev` visits it backwards.
* **`freeLoop`** — the loop `while (prev != NULL) { curr = prev->next; kfree(prev); prev = curr;
  }`, which frees a chain and nothing else.
-/

namespace Heap

/-- A pointer: an address, or `none` for `NULL`. -/
abbrev Ptr := Option Nat

variable {α : Type*}

/-- The record at an address; a cell that holds `none` has been freed. -/
def load (h : List (Option α)) (a : Nat) : Option α := h[a]?.join

/-- Change the record at an address. -/
def modify (h : List (Option α)) (a : Nat) (f : α → α) : Option (List (Option α)) :=
  (load h a).map fun c => h.set a (some (f c))

/-- An allocation: the allocator refuses (`none`) or hands out a fresh cell with the contents
it happens to have. -/
def kmalloc (h : List (Option α)) : Option α → Ptr × List (Option α)
  | none => (none, h)
  | some c => (some h.length, h ++ [some c])

variable {h h' : List (Option α)} {a b : Nat} {c d : α}

theorem load_lt (hl : load h a = some c) : a < h.length := by
  unfold load at hl
  by_contra hge
  rw [List.getElem?_eq_none (by omega)] at hl
  cases hl

theorem load_set_self (ha : a < h.length) : load (h.set a (some c)) a = some c := by
  simp [load, ha]

theorem load_set_of_ne (hne : a ≠ b) : load (h.set a (some c)) b = load h b := by
  simp [load, hne]

theorem load_append_of_lt (hlt : a < h.length) : load (h ++ [some c]) a = load h a := by
  rw [load, load, List.getElem?_append_left hlt]

theorem load_append_new : load (h ++ [some c]) h.length = some c := by
  simp [load]

/-- What was allocated stays as it is when another record is. -/
theorem load_append_of_load (hl : load h a = some d) : load (h ++ [some c]) a = some d := by
  rw [load_append_of_lt (load_lt hl), hl]

/-- Free a record; a record that was freed before has no result. -/
def kfree (h : List (Option α)) (a : Nat) : Option (List (Option α)) :=
  (load h a).map fun _ => h.set a none

theorem kfree_eq (hl : load h a = some c) : kfree h a = some (h.set a none) := by
  rw [kfree, hl, Option.map_some]

theorem load_set_none (h : List (Option α)) (a b : Nat) :
    load (h.set a none) b = if b = a then none else load h b := by
  unfold load
  by_cases hab : a = b
  · subst hab
    rw [if_pos rfl]
    by_cases hlt : a < h.length
    · rw [List.getElem?_set_self hlt]
      rfl
    · rw [List.getElem?_eq_none (by rw [List.length_set]; omega)]
      rfl
  · rw [List.getElem?_set_ne hab, if_neg (Ne.symm hab)]

theorem modify_eq (hl : load h a = some c) (f : α → α) :
    modify h a f = some (h.set a (some (f c))) := by
  simp [modify, hl]

theorem length_modify {f : α → α} (hm : modify h a f = some h') : h'.length = h.length := by
  obtain ⟨c, -, rfl⟩ := Option.map_eq_some_iff.mp hm
  exact List.length_set

theorem length_kmalloc_le (h : List (Option α)) (answer : Option α) :
    (kmalloc h answer).2.length ≤ h.length + 1 := by
  cases answer with
  | none => exact Nat.le_succ _
  | some c => exact List.length_append.le

/-- Storing what is there already. -/
theorem set_eq_self (hl : load h a = some c) : h.set a (some c) = h := by
  apply List.ext_getElem?
  intro i
  by_cases hi : a = i
  · subst hi
    have hlt := load_lt hl
    have hcell : h[a]? = some (some c) := by
      simpa [load, Option.join_eq_some_iff] using hl
    rw [List.getElem?_set_self hlt, hcell]
  · rw [List.getElem?_set_ne hi]

/-- Every record of the heap satisfies `P`. -/
def Every (P : α → Prop) (h : List (Option α)) : Prop :=
  ∀ a c, load h a = some c → P c

namespace Every

variable {P : α → Prop}

theorem set (hh : Every P h) (hd : P d) : Every P (h.set a (some d)) := by
  intro b c hb
  by_cases hab : a = b
  · subst hab
    have hlt := load_lt hb
    rw [load_set_self (by simpa using hlt)] at hb
    exact Option.some.inj hb ▸ hd
  · rw [load_set_of_ne hab] at hb
    exact hh b c hb

theorem append (hh : Every P h) (hd : P d) : Every P (h ++ [some d]) := by
  intro b c hb
  have hlt := load_lt hb
  rw [List.length_append, List.length_singleton] at hlt
  by_cases hnew : b = h.length
  · rw [hnew, load_append_new] at hb
    exact Option.some.inj hb ▸ hd
  · rw [load_append_of_lt (by omega)] at hb
    exact hh b c hb

end Every

/-! ## Chains -/

variable {next : α → Ptr} {p : Ptr} {l pre post : List (Nat × α)}

/-- The list that `next` links up from `p`, each record with its address. -/
def Chain (next : α → Ptr) (h : List (Option α)) : Ptr → List (Nat × α) → Prop
  | p, [] => p = none
  | p, (a, c) :: rest => p = some a ∧ load h a = some c ∧ Chain next h (next c) rest

namespace Chain

theorem mem_load (hc : Chain next h p l) {x : Nat × α} (hx : x ∈ l) : load h x.1 = some x.2 := by
  induction l generalizing p with
  | nil => cases hx
  | cons y l ih =>
    obtain ⟨-, hload, hrest⟩ := hc
    rcases List.mem_cons.mp hx with rfl | hx
    · exact hload
    · exact ih hrest hx

/-- **Frame.** A chain depends only on its own records. -/
theorem congr (hc : Chain next h p l) (hsame : ∀ x ∈ l, load h' x.1 = some x.2) :
    Chain next h' p l := by
  induction l generalizing p with
  | nil => exact hc
  | cons y l ih =>
    obtain ⟨hp, -, hrest⟩ := hc
    exact ⟨hp, hsame y (by simp), ih hrest fun x hx => hsame x (by simp [hx])⟩

/-- From a pointer there is at most one chain. -/
theorem functional (hc : Chain next h p l) {l' : List (Nat × α)} (hc' : Chain next h p l') :
    l = l' := by
  induction l generalizing p l' with
  | nil =>
    cases l' with
    | nil => rfl
    | cons y l' =>
      have hp : p = none := hc
      rw [hp] at hc'
      cases hc'.1
  | cons x l ih =>
    obtain ⟨a, c⟩ := x
    obtain ⟨rfl, hload, hrest⟩ := hc
    cases l' with
    | nil => cases (hc' : some a = none)
    | cons y l' =>
      obtain ⟨b, d⟩ := y
      obtain ⟨hab, hload', hrest'⟩ := hc'
      obtain rfl : a = b := by simpa using hab
      obtain rfl : c = d := by simpa [hload] using hload'
      rw [ih hrest hrest']

/-- The part of a chain behind a record is a chain from the record's `next`. -/
theorem tail (hc : Chain next h p (pre ++ (a, c) :: post)) :
    load h a = some c ∧ Chain next h (next c) post := by
  induction pre generalizing p with
  | nil => exact hc.2
  | cons x pre ih => exact ih hc.2.2

/-- **No cycles.** A chain that ends visits no address twice: behind a second visit the list
would have to be as long as behind the first. -/
theorem nodup (hc : Chain next h p l) : (l.map Prod.fst).Nodup := by
  induction l generalizing p with
  | nil => simp
  | cons x l ih =>
    obtain ⟨a, c⟩ := x
    obtain ⟨-, hload, hrest⟩ := hc
    simp only [List.map_cons, List.nodup_cons]
    refine ⟨?_, ih hrest⟩
    intro hmem
    obtain ⟨⟨b, d⟩, hx, hb⟩ := List.mem_map.mp hmem
    obtain rfl : b = a := hb
    obtain ⟨pre, post, rfl⟩ := List.append_of_mem hx
    obtain ⟨hload', hrest'⟩ := hrest.tail
    obtain rfl : c = d := by simpa [hload] using hload'
    have hlen := congrArg List.length (hrest.functional hrest')
    simp at hlen
    omega

/-- A chain is no longer than the heap. -/
theorem length_le (hc : Chain next h p l) : l.length ≤ h.length := by
  have hsub : l.map Prod.fst ⊆ List.range h.length := by
    intro a ha
    obtain ⟨x, hx, rfl⟩ := List.mem_map.mp ha
    exact List.mem_range.mpr (load_lt (hc.mem_load hx))
  have hle := (List.subperm_of_subset hc.nodup hsub).length_le
  simpa using hle

/-- A chain as long as the heap visits every cell of it. -/
theorem mem_of_lt (hc : Chain next h p l) (hlen : h.length ≤ l.length) (ha : a < h.length) :
    a ∈ l.map Prod.fst := by
  have hsub : l.map Prod.fst ⊆ List.range h.length := by
    intro b hb
    obtain ⟨x, hx, rfl⟩ := List.mem_map.mp hb
    exact List.mem_range.mpr (load_lt (hc.mem_load hx))
  have hperm := (List.subperm_of_subset hc.nodup hsub).perm_of_length_le (by simpa using hlen)
  exact hperm.mem_iff.mpr (List.mem_range.mpr ha)

theorem not_mem_of_split (hc : Chain next h p (pre ++ (a, c) :: post)) :
    (∀ x ∈ pre, x.1 ≠ a) ∧ (∀ x ∈ post, x.1 ≠ a) := by
  have hnd := hc.nodup
  simp only [List.map_append, List.map_cons, List.nodup_append, List.nodup_cons, List.mem_map,
    List.mem_cons] at hnd
  obtain ⟨-, ⟨hpost, -⟩, hpre⟩ := hnd
  constructor
  · intro x hx
    exact hpre _ ⟨x, hx, rfl⟩ a (Or.inl rfl)
  · intro x hx hxa
    exact hpost ⟨x, hx, hxa⟩

/-- Changing a record without its `next` field keeps the chain. -/
theorem set (hc : Chain next h p (pre ++ (a, c) :: post)) (hnext : next d = next c) :
    Chain next (h.set a (some d)) p (pre ++ (a, d) :: post) := by
  obtain ⟨hpre, hpost⟩ := hc.not_mem_of_split
  induction pre generalizing p with
  | nil =>
    obtain ⟨hp, hload, hrest⟩ := hc
    refine ⟨hp, load_set_self (load_lt hload), ?_⟩
    rw [hnext]
    apply hrest.congr
    intro x hx
    rw [load_set_of_ne (hpost x hx).symm]
    exact hrest.mem_load hx
  | cons y pre ih =>
    obtain ⟨hp, hload, hrest⟩ := hc
    refine ⟨hp, ?_, ih hrest fun x hx => hpre x (by simp [hx])⟩
    rw [load_set_of_ne (hpre y (by simp)).symm, hload]

/-- Allocating a record keeps the chain. -/
theorem append (hc : Chain next h p l) : Chain next (h ++ [some d]) p l :=
  hc.congr fun _ hx => load_append_of_load (hc.mem_load hx)

/-- Linking a record behind the last one of a chain. -/
theorem snoc (hc : Chain next h p (pre ++ [(a, c)])) (hb : load h b = some d)
    (hnew : ∀ x ∈ pre ++ [(a, c)], x.1 ≠ b) {c' : α} (hc' : next c' = some b)
    (hd : next d = none) :
    Chain next (h.set a (some c')) p (pre ++ [(a, c'), (b, d)]) := by
  obtain ⟨hpre, -⟩ := hc.not_mem_of_split
  induction pre generalizing p with
  | nil =>
    obtain ⟨hp, hload, -⟩ := hc
    refine ⟨hp, load_set_self (load_lt hload), hc', ?_, hd⟩
    rw [load_set_of_ne (hnew (a, c) (by simp)), hb]
  | cons y pre ih =>
    obtain ⟨hp, hload, hrest⟩ := hc
    refine ⟨hp, ?_, ih hrest (fun x hx => hnew x (by simp [hx])) fun x hx => hpre x (by simp [hx])⟩
    rw [load_set_of_ne (hpre y (by simp)).symm, hload]

end Chain

/-! ## The search loop -/

/-- One round of the loop after another: `prev` and `curr` as the loop leaves them. There is no
result when `curr` is dangling or the fuel runs out. -/
def walk (test : α → Bool) (next : α → Ptr) (h : List (Option α)) :
    Nat → Ptr → Ptr → Option (Ptr × Ptr)
  | 0, _, _ => none
  | _ + 1, prev, none => some (prev, none)
  | fuel + 1, prev, some a =>
    (load h a).bind fun c =>
      if test c then some (prev, some a) else walk test next h fuel (some a) (next c)

/-- The search loop from `p`. A list of this heap has no more records than the heap, so the
fuel is enough. -/
def search (test : α → Bool) (next : α → Ptr) (h : List (Option α)) (p : Ptr) :
    Option (Ptr × Ptr) :=
  walk test next h (h.length + 1) none p

/-- The address of the last record of a list, `prev` when it is empty. -/
def lastOf (prev : Ptr) : List (Nat × α) → Ptr
  | [] => prev
  | x :: l => lastOf (some x.1) l

theorem lastOf_concat (prev : Ptr) (l : List (Nat × α)) (x : Nat × α) :
    lastOf prev (l ++ [x]) = some x.1 := by
  induction l generalizing prev with
  | nil => rfl
  | cons y l ih => exact ih (some y.1)

variable {test : α → Bool} {fuel : Nat} {prev : Ptr}

theorem walk_missing (hc : Chain next h p l) (hl : ∀ x ∈ l, test x.2 = false)
    (hf : l.length < fuel) : walk test next h fuel prev p = some (lastOf prev l, none) := by
  induction l generalizing p prev fuel with
  | nil =>
    obtain rfl : p = none := hc
    cases fuel with
    | zero => exact absurd hf (by simp)
    | succ fuel => rfl
  | cons y l ih =>
    obtain ⟨rfl, hload, hrest⟩ := hc
    cases fuel with
    | zero => exact absurd hf (by simp)
    | succ fuel =>
      have hy : test y.2 = false := hl y (by simp)
      simp only [List.length_cons] at hf
      have hrec : walk test next h fuel (some y.1) (next y.2) = some (lastOf (some y.1) l, none) :=
        ih hrest (fun x hx => hl x (by simp [hx])) (by omega)
      simpa [walk, hload, hy, lastOf] using hrec

theorem walk_found (hc : Chain next h p (pre ++ (a, c) :: post))
    (hpre : ∀ x ∈ pre, test x.2 = false) (ha : test c = true) (hf : pre.length < fuel) :
    walk test next h fuel prev p = some (lastOf prev pre, some a) := by
  induction pre generalizing p prev fuel with
  | nil =>
    obtain ⟨rfl, hload, -⟩ := hc
    cases fuel with
    | zero => exact absurd hf (by simp)
    | succ fuel => simp [walk, hload, ha, lastOf]
  | cons y pre ih =>
    obtain ⟨rfl, hload, hrest⟩ := hc
    cases fuel with
    | zero => exact absurd hf (by simp)
    | succ fuel =>
      have hy : test y.2 = false := hpre y (by simp)
      simp only [List.length_cons] at hf
      have hrec :
          walk test next h fuel (some y.1) (next y.2) = some (lastOf (some y.1) pre, some a) :=
        ih hrest (fun x hx => hpre x (by simp [hx])) (by omega)
      simpa [walk, hload, hy, lastOf] using hrec

/-- **Search, nothing found.** The loop ends with `prev` at the last record. -/
theorem search_missing (hc : Chain next h p l) (hl : ∀ x ∈ l, test x.2 = false) :
    search test next h p = some (lastOf none l, none) :=
  walk_missing hc hl (by have := hc.length_le; omega)

/-- **Search, found.** The loop ends at the first record that passes the test. -/
theorem search_found (hc : Chain next h p (pre ++ (a, c) :: post))
    (hpre : ∀ x ∈ pre, test x.2 = false) (ha : test c = true) :
    search test next h p = some (lastOf none pre, some a) :=
  walk_found hc hpre ha (by
    have hle := hc.length_le
    simp only [List.length_append, List.length_cons] at hle
    omega)

/-! ## Doubly linked lists -/

theorem lastOf_append (prev : Ptr) (l l' : List (Nat × α)) :
    lastOf prev (l ++ l') = lastOf (lastOf prev l) l' := by
  induction l generalizing prev with
  | nil => rfl
  | cons x l ih => exact ih (some x.1)

variable {prev : α → Ptr} {q : Ptr} {c' : α} {x y : Nat × α}

/-- From `p`, the field `next` visits `l`, and from its last record the field `prev` visits it
backwards. -/
structure Doubly (next prev : α → Ptr) (h : List (Option α)) (p : Ptr) (l : List (Nat × α)) :
    Prop where
  forward : Chain next h p l
  backward : Chain prev h (lastOf none l) l.reverse

/-- Where one field leads from `x` to `y`, the other one leads back. -/
theorem Chain.prev_of_next (hn : Chain next h p l) (hp : Chain prev h q l.reverse)
    (hx : x ∈ l) (hy : y ∈ l) (hxy : next x.2 = some y.1) : prev y.2 = some x.1 := by
  have hload := hn.mem_load hy
  obtain ⟨pre, post, rfl⟩ := List.append_of_mem hx
  have htail : Chain next h (some y.1) post := hxy ▸ hn.tail.2
  cases post with
  | nil => cases (htail : some y.1 = none)
  | cons z post =>
    -- `y` is the record behind `x`
    obtain rfl : y = z := by
      obtain ⟨hyz, hz, -⟩ := htail
      obtain ⟨b, d⟩ := y
      obtain rfl : b = z.1 := Option.some.inj hyz
      obtain rfl : d = z.2 := Option.some.inj (hload.symm.trans hz)
      rfl
    have hback : Chain prev h q (post.reverse ++ y :: x :: pre.reverse) := by
      simpa using hp
    exact hback.tail.2.1

namespace Doubly

/-- **`next` and `prev` are inverse to each other.** -/
theorem next_iff (hd : Doubly next prev h p l) (hx : x ∈ l) (hy : y ∈ l) :
    next x.2 = some y.1 ↔ prev y.2 = some x.1 := by
  constructor
  · exact hd.forward.prev_of_next hd.backward hx hy
  · have hforward : Chain next h p l.reverse.reverse := by
      rw [List.reverse_reverse]
      exact hd.forward
    exact hd.backward.prev_of_next hforward (List.mem_reverse.mpr hy) (List.mem_reverse.mpr hx)

/-- Changing a record without its links keeps the list. -/
theorem set (hd : Doubly next prev h p (pre ++ (a, c) :: post)) (hnext : next d = next c)
    (hprev : prev d = prev c) :
    Doubly next prev (h.set a (some d)) p (pre ++ (a, d) :: post) where
  forward := hd.forward.set hnext
  backward := by
    have hback := hd.backward
    rw [lastOf_append, List.reverse_append, List.reverse_cons, List.append_assoc] at hback ⊢
    exact hback.set hprev

theorem singleton (hload : load h a = some c) (hnext : next c = none) (hprev : prev c = none) :
    Doubly next prev h (some a) [(a, c)] :=
  ⟨⟨rfl, hload, hnext⟩, ⟨rfl, hload, hprev⟩⟩

/-- Allocating a record behind the last one. -/
theorem snoc (hd : Doubly next prev h p (pre ++ [(a, c)])) (hnext : next c' = some h.length)
    (hprev : prev c' = prev c) (hlast : next d = none) (hback : prev d = some a) :
    Doubly next prev ((h ++ [some d]).set a (some c')) p
      (pre ++ [(a, c'), (h.length, d)]) where
  forward := by
    refine hd.forward.append.snoc load_append_new ?_ hnext hlast
    intro x hx hxa
    have hlt := load_lt (hd.forward.mem_load hx)
    omega
  backward := by
    have hlt := load_lt (hd.forward.mem_load (x := (a, c)) (by simp))
    have hnew : load ((h ++ [some d]).set a (some c')) h.length = some d := by
      rw [load_set_of_ne (by omega), load_append_new]
    -- what was allocated is first on the way back
    have hold : Chain prev h (some a) ([] ++ (a, c) :: pre.reverse) := by
      have hrev := hd.backward
      rw [lastOf_concat, List.reverse_append] at hrev
      exact hrev
    have hrest : Chain prev ((h ++ [some d]).set a (some c')) (some a)
        ([] ++ (a, c') :: pre.reverse) := hold.append.set hprev
    rw [lastOf_append, List.reverse_append]
    exact ⟨rfl, hnew, hback ▸ hrest⟩

end Doubly

/-! ## Freeing a list -/

/-- The loop from `prev`. There is no result when it reads a record that was freed, frees one
twice, or does not end. -/
def freeLoop (next : α → Ptr) : Nat → Ptr → List (Option α) → Option (List (Option α))
  | 0, _, _ => none
  | _ + 1, none, h => some h
  | fuel + 1, some prev, h => do
    let c ← load h prev
    let h ← kfree h prev
    freeLoop next fuel (next c) h

/-- **The loop frees a chain**, each record once, and leaves the others. -/
theorem freeLoop_chain (hc : Chain next h p l) (hf : l.length < fuel) :
    ∃ h', freeLoop next fuel p h = some h' ∧ h'.length = h.length ∧
      ∀ b, load h' b = if b ∈ l.map Prod.fst then none else load h b := by
  induction l generalizing h p fuel with
  | nil =>
    obtain rfl : p = none := hc
    cases fuel with
    | zero => exact absurd hf (by simp)
    | succ fuel => exact ⟨h, rfl, rfl, fun b => by simp⟩
  | cons x l ih =>
    obtain ⟨a, c⟩ := x
    cases fuel with
    | zero => exact absurd hf (by simp)
    | succ fuel =>
      have hnd := hc.nodup
      rw [List.map_cons, List.nodup_cons] at hnd
      obtain ⟨rfl, hload, hrest⟩ := hc
      -- what is behind the first record does not go through it
      have hrest' : Chain next (h.set a none) (next c) l := by
        refine hrest.congr fun y hy => ?_
        have hne : y.1 ≠ a := fun heq => hnd.1 (List.mem_map.mpr ⟨y, hy, heq⟩)
        rw [load_set_none, if_neg hne]
        exact hrest.mem_load hy
      obtain ⟨h', hloop, hlen, hloads⟩ := ih hrest' (by simpa using hf)
      refine ⟨h', ?_, by rw [hlen, List.length_set], fun b => ?_⟩
      · rw [freeLoop, hload, Option.bind_eq_bind, Option.bind_some, kfree_eq hload]
        exact hloop
      · simp only [hloads, load_set_none, List.map_cons, List.mem_cons]
        by_cases hb : b = a
        · simp only [hb, true_or, if_true, ite_self]
        · simp only [hb, false_or, if_false]

end Heap
