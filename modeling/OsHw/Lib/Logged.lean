import Mathlib.Tactic.Common

/-!
# OsHw — computations that log what they do

A computation that may stop without a result keeps the events up to there, so that something can
be said about every step that it has taken.

* **`Logged ε α`** — the events in their order, and the result if there is one; a monad.
* **`result_bind`**, **`All.bind`** — the results and the events of one computation behind another.
* **`All P x`** — every event of `x` satisfies `P`.
-/

/-- The events of a computation and its result. -/
structure Logged (ε α : Type*) where
  events : List ε
  result : Option α

namespace Logged

universe u

variable {ε α β : Type*} {P : ε → Prop}

/-- The computation `f` goes on with the result, if there is one. -/
def andThen (x : Logged ε α) (f : α → Logged ε β) : Logged ε β :=
  match x.result with
  | none => ⟨x.events, none⟩
  | some a => ⟨x.events ++ (f a).events, (f a).result⟩

instance : Monad (Logged ε) where
  pure a := ⟨[], some a⟩
  bind := andThen

/-- Log an event. -/
def emit (e : ε) (a : α) : Logged ε α := ⟨[e], some a⟩

/-- A computation without events. -/
def ofOption (a : Option α) : Logged ε α := ⟨[], a⟩

/-- Every event satisfies `P`. -/
def All (P : ε → Prop) (x : Logged ε α) : Prop := ∀ e ∈ x.events, P e

/-! ## Results -/

section Results

variable {α β : Type u} {x : Logged ε α} {f : α → Logged ε β}

@[simp] theorem result_pure (a : α) : (pure a : Logged ε α).result = some a := rfl

@[simp] theorem result_emit (e : ε) (a : α) : (emit e a).result = some a := rfl

@[simp] theorem result_ofOption (a : Option α) : (ofOption a : Logged ε α).result = a := rfl

/-- Without its events a computation is a partial function. -/
@[simp] theorem result_bind : (x >>= f).result = x.result >>= fun a => (f a).result := by
  show (andThen x f).result = _
  unfold andThen
  cases x.result <;> rfl

@[simp] theorem result_ite {p : Prop} [Decidable p] (y : Logged ε α) :
    (if p then x else y).result = if p then x.result else y.result :=
  apply_ite result p x y

/-- The second condition counts if the first one holds. -/
@[simp] theorem result_and (x y : Logged ε Bool) :
    (x <&&> y).result = x.result >>= fun b => if b then y.result else some false := by
  unfold andM
  rw [result_bind]
  congr 1
  funext b
  cases b <;> rfl

@[simp] theorem result_or (x y : Logged ε Bool) :
    (x <||> y).result = x.result >>= fun b => if b then some true else y.result := by
  unfold orM
  rw [result_bind]
  congr 1
  funext b
  cases b <;> rfl

end Results

/-! ## Events -/

namespace All

variable {α β : Type u} {x : Logged ε α} {f : α → Logged ε β}

theorem pure (a : α) : All P (Pure.pure a : Logged ε α) := nofun

theorem ofOption (a : Option α) : All P (Logged.ofOption a : Logged ε α) := nofun

theorem emit {e : ε} (h : P e) (a : α) : All P (Logged.emit e a) := by
  intro e' he
  rw [List.mem_singleton.mp he]
  exact h

/-- **One computation behind another.** The second one is only entered with a result of the
first. -/
theorem bind (hx : All P x) (hf : ∀ a, x.result = some a → All P (f a)) : All P (x >>= f) := by
  show All P (andThen x f)
  unfold andThen
  cases hresult : x.result with
  | none => exact hx
  | some a => exact List.forall_mem_append.mpr ⟨hx, hf a hresult⟩

theorem and {x y : Logged ε Bool} (hx : All P x) (hy : x.result = some true → All P y) :
    All P (x <&&> y) := by
  unfold andM
  refine hx.bind fun b hb => ?_
  cases b with
  | true => exact hy hb
  | false => exact pure false

theorem or {x y : Logged ε Bool} (hx : All P x) (hy : x.result = some false → All P y) :
    All P (x <||> y) := by
  unfold orM
  refine hx.bind fun b hb => ?_
  cases b with
  | true => exact pure true
  | false => exact hy hb

end All

end Logged
