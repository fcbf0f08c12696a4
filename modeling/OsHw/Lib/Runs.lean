import Mathlib.Logic.Basic

/-!
# OsHw — runs of an event-driven system

A system is given by a partial step function `step : ε → σ → Option σ`: `step e s = none`
says that event `e` cannot happen in state `s` (a thread that is blocked, a call that is not
the next one). Everything here is about an arbitrary such function.

* **`Reaches step P s t`** — `t` is reached from `s` by steps whose events `P` allows in the
  state they are taken in. `P` carries the assumptions on the environment (no spurious
  wake-up, no signal) and, for a result that holds only while some branch is avoided, the
  condition on the step.
* **`Reaches.invariant`** — the induction rule: what holds at the start and is kept by every
  allowed step holds in every reached state.
* **`exists_stuck`** — a measure that every allowed step decreases gives, from every state, a
  reached state in which no allowed step is possible.
* **`run`** — the executable side: a list of events, run from the left.
* **`Throughout`** — a property of the steps of one run; `throughout_iff` compares two of them
  along an invariant, and `withGhost` adds a history variable to the states.
* **`length_le_of_measure`** — such a measure bounds the length of every run.
-/

namespace Runs

variable {σ ε : Type*} {step : ε → σ → Option σ} {P Q : ε → σ → Prop} {s t u : σ}

/-- `t` is reached from `s` by finitely many steps of `step`, each one an event that `P`
allows in the state where it is taken. -/
inductive Reaches (step : ε → σ → Option σ) (P : ε → σ → Prop) (s : σ) : σ → Prop where
  | refl : Reaches step P s s
  | tail {t u : σ} {e : ε} (h : Reaches step P s t) (hP : P e t) (hst : step e t = some u) :
      Reaches step P s u

/-- No event that `P` allows can happen in `s`. -/
def Stuck (step : ε → σ → Option σ) (P : ε → σ → Prop) (s : σ) : Prop :=
  ∀ e, P e s → step e s = none

namespace Reaches

/-- One allowed step. -/
theorem single {e : ε} (hP : P e s) (hst : step e s = some t) : Reaches step P s t :=
  .tail .refl hP hst

theorem trans (h₁ : Reaches step P s t) (h₂ : Reaches step P t u) : Reaches step P s u := by
  induction h₂ with
  | refl => exact h₁
  | tail _ hP hst ih => exact .tail ih hP hst

/-- Weakening what is allowed keeps every run. -/
theorem mono (hPQ : ∀ e s, P e s → Q e s) (h : Reaches step P s t) : Reaches step Q s t := by
  induction h with
  | refl => exact .refl
  | tail _ hP hst ih => exact .tail ih (hPQ _ _ hP) hst

/-- **The invariant rule.** Induction on the run, its last step first. -/
theorem invariant {I : σ → Prop} (h : Reaches step P s t) (h₀ : I s)
    (hstep : ∀ e t u, I t → P e t → step e t = some u → I u) : I t := by
  induction h with
  | refl => exact h₀
  | tail _ hP hst ih => exact hstep _ _ _ ih hP hst

end Reaches

/-! ## Measures

A measure that every allowed step decreases, on the states that satisfy an invariant of the
allowed steps, bounds every run and leads every run to a stuck state. -/

/-- **Runs end.** If every allowed step keeps `I` and decreases `μ`, then from every state
satisfying `I` a stuck state satisfying `I` is reached. Induction on the value of `μ`. -/
theorem exists_stuck {I : σ → Prop} (μ : σ → Nat)
    (hkeep : ∀ e t u, I t → P e t → step e t = some u → I u)
    (hdec : ∀ e t u, I t → P e t → step e t = some u → μ u < μ t) (hI : I s) :
    ∃ t, Reaches step P s t ∧ I t ∧ Stuck step P t := by
  induction hn : μ s using Nat.strongRecOn generalizing s with
  | ind n ih =>
    by_cases hstuck : Stuck step P s
    · exact ⟨s, .refl, hI, hstuck⟩
    · simp only [Stuck, not_forall] at hstuck
      obtain ⟨e, hP, hne⟩ := hstuck
      obtain ⟨t, hst⟩ := Option.ne_none_iff_exists'.mp hne
      have hlt : μ t < n := hn ▸ hdec e s t hI hP hst
      obtain ⟨u, hreach, hIu, hu⟩ := ih (μ t) hlt (hkeep e s t hI hP hst) rfl
      exact ⟨u, (Reaches.single hP hst).trans hreach, hIu, hu⟩

/-! ## Executing a list of events -/

/-- Run a list of events, the head first. -/
def run (step : ε → σ → Option σ) : List ε → σ → Option σ
  | [], s => some s
  | e :: es, s => (step e s).bind (run step es)

/-- A list of events that runs through is a run, as long as `P` allows each of its events in
every state. -/
theorem reaches_of_run {es : List ε} (hP : ∀ e ∈ es, ∀ s, P e s)
    (h : run step es s = some t) : Reaches step P s t := by
  induction es generalizing s with
  | nil =>
    obtain rfl : s = t := by simpa [run] using h
    exact .refl
  | cons e es ih =>
    simp only [run, Option.bind_eq_some_iff] at h
    obtain ⟨u, hst, hrun⟩ := h
    have hrest := ih (fun e' he' => hP e' (by simp [he'])) hrun
    exact (Reaches.single (hP e (by simp) s) hst).trans hrest

/-- A list of events that runs through, each one allowed where it is taken. -/
theorem reaches_of_run_allowed [∀ e s, Decidable (P e s)] {es : List ε}
    (h : run (fun e s => if P e s then step e s else none) es s = some t) :
    Reaches step P s t := by
  induction es generalizing s with
  | nil =>
    obtain rfl : s = t := by simpa [run] using h
    exact .refl
  | cons e es ih =>
    simp only [run, Option.bind_eq_some_iff] at h
    obtain ⟨u, hst, hrun⟩ := h
    split at hst
    · next hP => exact (Reaches.single hP hst).trans (ih hrun)
    · cases hst

/-! ## Properties of the steps of a run -/

/-- Each step that `es` takes from `s` is taken where `Q` holds. The run ends at the first event
that cannot happen. -/
def Throughout (step : ε → σ → Option σ) (Q : ε → σ → Prop) : List ε → σ → Prop
  | [], _ => True
  | e :: es, s => ∀ t, step e s = some t → Q e s ∧ Throughout step Q es t

/-- A step of the run. -/
theorem Throughout.at_step {e : ε} {es rest : List ε} (h : Throughout step Q (es ++ e :: rest) s)
    (hrun : run step es s = some t) (hst : step e t = some u) : Q e t := by
  induction es generalizing s with
  | nil =>
    obtain rfl : s = t := Option.some.inj hrun
    exact (h u hst).1
  | cons e' es ih =>
    obtain ⟨r, hr, hrun⟩ := Option.bind_eq_some_iff.mp hrun
    exact ih (h r hr).2 hrun

/-- Two properties that agree on every step from an invariant state hold throughout the same
runs, if the steps with the second one keep the invariant. -/
theorem throughout_iff {I : σ → Prop}
    (hagree : ∀ e s t, I s → step e s = some t → (P e s ↔ Q e s))
    (hkeep : ∀ e s t, I s → Q e s → step e s = some t → I t) (hI : I s) (es : List ε) :
    Throughout step P es s ↔ Throughout step Q es s := by
  induction es generalizing s with
  | nil => rfl
  | cons e es ih =>
    constructor
    · intro h t hst
      obtain ⟨hP, hrest⟩ := h t hst
      have hQ := (hagree e s t hI hst).mp hP
      exact ⟨hQ, (ih (hkeep e s t hI hQ hst)).mp hrest⟩
    · intro h t hst
      obtain ⟨hQ, hrest⟩ := h t hst
      exact ⟨(hagree e s t hI hst).mpr hQ, (ih (hkeep e s t hI hQ hst)).mpr hrest⟩

/-- The steps with a history variable, which `next` updates from the step and the state before
it. -/
def withGhost {γ : Type*} (step : ε → σ → Option σ) (next : ε → σ → γ → γ) (e : ε)
    (x : σ × γ) : Option (σ × γ) :=
  (step e x.1).map fun t => (t, next e x.1 x.2)

/-- A history variable does not matter to what is said without it. -/
theorem throughout_withGhost {γ : Type*} (next : ε → σ → γ → γ) (es : List ε) (s : σ) (g : γ) :
    Throughout (withGhost step next) (fun e x => Q e x.1) es (s, g) ↔
      Throughout step Q es s := by
  induction es generalizing s g with
  | nil => rfl
  | cons e es ih =>
    simp only [Throughout, withGhost, Option.map_eq_some_iff]
    constructor
    · intro h t hst
      obtain ⟨hQ, hrest⟩ := h _ ⟨t, hst, rfl⟩
      exact ⟨hQ, (ih t _).mp hrest⟩
    · rintro h _ ⟨t, hst, rfl⟩
      obtain ⟨hQ, hrest⟩ := h t hst
      exact ⟨hQ, (ih t _).mpr hrest⟩

/-- Every run is at most as long as a measure that every allowed step decreases allows. -/
theorem length_le_of_allowed {I : σ → Prop} (μ : σ → Nat)
    (hkeep : ∀ e t u, I t → P e t → step e t = some u → I u)
    (hdec : ∀ e t u, I t → P e t → step e t = some u → μ u < μ t) {es : List ε}
    (hP : ∀ e ∈ es, ∀ s, P e s) (hI : I s) (h : run step es s = some t) : es.length ≤ μ s := by
  induction es generalizing s with
  | nil => exact Nat.zero_le _
  | cons e es ih =>
    simp only [run, Option.bind_eq_some_iff] at h
    obtain ⟨u, hst, hrun⟩ := h
    have he := hP e List.mem_cons_self s
    have hrest : es.length ≤ μ u :=
      ih (fun e' he' => hP e' (List.mem_cons_of_mem _ he')) (hkeep e s u hI he hst) hrun
    have hlt : μ u < μ s := hdec e s u hI he hst
    rw [List.length_cons]
    omega

/-- The same where every step is allowed. -/
theorem length_le_of_measure {I : σ → Prop} (μ : σ → Nat)
    (hkeep : ∀ e t u, I t → step e t = some u → I u)
    (hdec : ∀ e t u, I t → step e t = some u → μ u < μ t) {es : List ε} (hI : I s)
    (h : run step es s = some t) : es.length ≤ μ s :=
  length_le_of_allowed (P := fun _ _ => True) μ (fun e t u hI _ => hkeep e t u hI)
    (fun e t u hI _ => hdec e t u hI) (fun _ _ _ => trivial) hI h

end Runs
