import OsHw.Hw4.Stalls

/-!
# OsHw — the size that `hw4` reports

`main` prints `total_size`, an `int` to which every closed level adds its `lengthToWrite`.

* **`Totalled`** — `total_size` is the number of bytes written, wrapped at 32 bits. Every level
  is added and written in the same action, so this holds in every run, spurious returns included.
* **`JoinedBelow`** — the workers that the main thread has joined are gone. At the `printf` all
  of them are, and the output is as long as the longest input (`output_length_of_joined`).
* **`reported_size_iff`** — the printed size is the number of bytes written exactly when the
  longest input is shorter than `2 ^ 31` bytes.
-/

namespace OsHw.Hw4

open Runs Family

/-! ## What `total_size` adds up -/

/-- An `int` holds a count below `2 ^ 31`, and no other. -/
theorem wrap32_eq_self_iff (n : Nat) : wrap32 n = n ↔ n < 2 ^ 31 := by
  have hpow : (2 ^ 32 : Nat) = 4294967296 := by decide
  rw [wrap32, hpow]
  constructor
  · intro h
    have hlt := Int.bmod_lt (x := n) (m := 4294967296) (by decide)
    rw [h] at hlt
    omega
  · intro h
    exact Int.bmod_eq_of_le (by omega) (by omega)

theorem hw4_addSize_wrap32 (m n : Nat) : hw4.addSize (wrap32 m) n = wrap32 (m + n : Nat) := by
  simp only [hw4, wrap32, Int.natCast_add, Int.bmod_add_bmod]

/-- `total_size` is the number of bytes written so far, as far as an `int` can hold it. -/
def Totalled (g : Globals) : Prop := g.totalSize = wrap32 g.output.length

/-- Closing a level adds up what it writes. -/
theorem Totalled.flush {g : Globals} {out : List UInt8} (h : Totalled g)
    (hout : hw4.Writes g out) : Totalled (flushed hw4 out g) := by
  have hlength : (flushed hw4 out g).output.length = g.output.length + g.lengthToWrite := by
    rw [hw4_writes hout, ← length_levelBytes g, ← List.length_append]
    rfl
  show hw4.addSize g.totalSize g.lengthToWrite = _
  rw [h, hw4_addSize_wrap32, hlength]

theorem Acts.totalled {g g' : Globals} {w w' : Worker} {b : Bool} (hact : Acts hw4 g w g' w' b)
    (h : Totalled g) : Totalled g' := by
  cases hact with
  | countFlush hph heq hout => exact Totalled.flush (g := counted g w) h hout
  | retireFlush hat heq hout => exact Totalled.flush (g := retired g) h hout
  | _ => exact h

/-- No step of the program, a spurious return included, breaks the sum. -/
theorem step_totalled {e : Event} {s s' : State} (h : Totalled s.globals)
    (hst : step hw4 e s = some s') : Totalled s'.globals := by
  cases e with
  | main =>
    rw [mainStep_globals hst]
    exact h
  | worker i short =>
    obtain ⟨w, g', w', b, -, hact, rfl⟩ := step_worker hst
    exact (workerMain_acts hact).totalled h
  | spurious i =>
    obtain ⟨w, -, -, rfl⟩ := step_spurious hst
    exact h

/-- **`total_size` is the wrapped number of bytes written**, in every state of every run. -/
theorem totalled_of_reaches {P : Event → State → Prop} {inputs : List (List UInt8)} {s : State}
    (h : Reaches (step hw4) P (init inputs) s) : Totalled s.globals := by
  have hinit : Totalled (init inputs).globals := by
    show (0 : Int) = wrap32 0
    decide
  exact h.invariant (I := fun s => Totalled s.globals) hinit fun _ _ _ hI _ hst =>
    step_totalled hI hst

/-- So it is exact as long as fewer than `2 ^ 31` bytes were written. -/
theorem total_size_eq_iff {P : Event → State → Prop} {inputs : List (List UInt8)} {s : State}
    (h : Reaches (step hw4) P (init inputs) s) :
    s.globals.totalSize = s.globals.output.length ↔ s.globals.output.length < 2 ^ 31 := by
  rw [totalled_of_reaches h]
  exact wrap32_eq_self_iff _

/-! ## What `waitForThreads` waits for -/

/-- Worker `j` has terminated. -/
def Gone (ws : List Worker) (j : Nat) : Prop := ws[j]?.map Worker.phase = some .terminated

theorem gone_iff {ws : List Worker} {j : Nat} (hj : j < ws.length) :
    Gone ws j ↔ ws[j].phase = .terminated := by
  simp [Gone, List.getElem?_eq_getElem hj]

theorem Gone.wakeIf {b : Bool} {ws : List Worker} {j : Nat} (h : Gone ws j) :
    Gone (wakeIf b ws) j := by
  cases b with
  | false => exact h
  | true =>
    obtain ⟨w, hw, hph⟩ := Option.map_eq_some_iff.mp h
    simp [Gone, hw, Worker.wake, hph]

/-- Who has terminated stays so, whoever acts. -/
theorem Acts.gone {p : Program} {g g' : Globals} {pre post : List Worker} {w w' : Worker}
    {b : Bool} {j : Nat} (hact : Acts p g w g' w' b) (h : Gone (pre ++ w :: post) j) :
    Gone (Hw4.wakeIf b (pre ++ w' :: post)) j := by
  refine Gone.wakeIf ?_
  -- the worker that acts is not worker `j`
  have hne : j ≠ pre.length := by
    intro hj
    have hph : w.phase = .terminated := by simpa [Gone, hj] using h
    exact hact.unblocked (.inr (.inr (.inr hph)))
  have hset : pre ++ w' :: post = (pre ++ w :: post).set pre.length w' := by simp
  rw [hset, Gone, List.getElem?_set_ne hne.symm]
  exact h

/-- The main thread has joined every worker in front of its index. -/
def JoinedBelow (s : State) : Prop :=
  match s.main with
  | .createTest _ | .create _ => True
  | .joinTest i | .join i => ∀ j, j < i → Gone s.workers j
  | .joined => ∀ j, j < s.workers.length → Gone s.workers j

theorem mainStep_joinedBelow {s s' : State} (h : JoinedBelow s)
    (hst : mainStep hw4 s = some s') : JoinedBelow s' := by
  unfold mainStep at hst
  cases hm : s.main with
  | createTest i =>
    simp only [hm] at hst
    split at hst
    · cases hst
      exact trivial
    · cases hst
      exact fun j hj => absurd hj (Nat.not_lt_zero j)
  | create i =>
    simp only [hm, Option.map_eq_some_iff] at hst
    obtain ⟨w, -, rfl⟩ := hst
    exact trivial
  | joinTest i =>
    simp only [hm] at hst
    simp only [JoinedBelow, hm] at h
    split at hst
    · cases hst
      exact h
    · next hend =>
      cases hst
      -- the loop of `hw4.c` runs up to the number of workers
      have hle : s.workers.length ≤ i := Int.ofNat_le.mp (not_lt.mp hend)
      exact fun j hj => h j (Nat.lt_of_lt_of_le hj hle)
  | join i =>
    simp only [hm] at hst
    simp only [JoinedBelow, hm] at h
    split at hst
    · next hgone =>
      cases hst
      intro j hj
      rcases Nat.lt_succ_iff_lt_or_eq.mp hj with hlt | rfl
      · exact h j hlt
      · exact hgone
    · cases hst
  | joined => simp [hm] at hst

theorem moves_joinedBelow {s s' : State} (h : JoinedBelow s) (hst : Moves hw4 s s') :
    JoinedBelow s' := by
  cases hst with
  | main hst => exact mainStep_joinedBelow h hst
  | @worker pre post w w' g' b hs hact =>
    have hgone : ∀ j, Gone s.workers j → Gone (wakeIf b (pre ++ w' :: post)) j := by
      intro j hj
      rw [hs] at hj
      exact hact.gone hj
    have hlength : (wakeIf b (pre ++ w' :: post)).length = s.workers.length := by
      cases b <;> simp [hs]
    cases hm : s.main with
    | createTest i | create i => exact trivial
    | joinTest i | join i =>
      simp only [JoinedBelow, hm] at h ⊢
      exact fun j hj => hgone j (h j hj)
    | joined =>
      simp only [JoinedBelow, hm] at h ⊢
      rw [hlength]
      exact fun j hj => hgone j (h j hj)

/-- Behind `waitForThreads` every worker has terminated. -/
theorem terminated_of_joined {inputs : List (List UInt8)} {s : State}
    (h : Reachable hw4 inputs s) (hm : s.main = .joined) :
    ∀ w ∈ s.workers, w.phase = .terminated := by
  have hjoined : JoinedBelow s :=
    h.invariant (I := JoinedBelow) trivial fun _ _ _ hI he hst =>
      moves_joinedBelow hI (step_moves he hst)
  simp only [JoinedBelow, hm] at hjoined
  intro w hw
  obtain ⟨j, hj, rfl⟩ := List.mem_iff_getElem.mp hw
  exact (gone_iff hj).mp (hjoined j hj)

/-! ## The printed size -/

/-- Behind `waitForThreads` the output is complete. -/
theorem output_length_of_joined {inputs : List (List UInt8)} {s : State}
    (h : Reachable hw4 inputs s) (hm : s.main = .joined) :
    s.globals.output.length = maxLength inputs := by
  have hlevels := maxLength_le_of_terminated (reachable_inv h) (terminated_of_joined h hm)
  rw [hw4_whole h, Nat.min_eq_right hlevels]
  simp

/-- **When `hw4` reports the size it wrote.** However the threads are interleaved and however
short the reads and writes are: the `total_size` that `main` prints is the length of the output
exactly when the longest input is shorter than `2 ^ 31` bytes. -/
theorem reported_size_iff {inputs : List (List UInt8)} {s : State}
    (h : Reachable hw4 inputs s) (hm : s.main = .joined) :
    s.globals.totalSize = s.globals.output.length ↔ maxLength inputs < 2 ^ 31 := by
  rw [total_size_eq_iff h, output_length_of_joined h hm]

/-- Two workers, one action at a time, and then the joins. -/
def oneByOne : List Event :=
  let worker i : Event := .worker i fun _ => 1
  List.replicate 5 .main ++
    [worker 0, worker 1, worker 0, worker 1, worker 0, worker 1, worker 0, worker 1,
      worker 0, worker 1, worker 0, worker 1] ++ List.replicate 5 .main

theorem oneByOne_proper : ∀ e ∈ oneByOne, e.Proper := by simp [oneByOne, Event.Proper]

theorem run_oneByOne : ∃ s, run (step hw4) oneByOne (init [[1, 2], [4]]) = some s ∧
    s.main = .joined := by
  have hrun : (run (step hw4) oneByOne (init [[1, 2], [4]])).map State.main = some .joined := by
    decide
  obtain ⟨s, hs, hm⟩ := Option.map_eq_some_iff.mp hrun
  exact ⟨s, hs, hm⟩

/-- Two inputs, run one worker action at a time and then joined: both bytes are reported. -/
theorem reported_size_two : ∃ s, Reachable hw4 [[1, 2], [4]] s ∧ s.main = .joined ∧
    s.globals.totalSize = s.globals.output.length := by
  obtain ⟨s, hs, hm⟩ := run_oneByOne
  have hreach : Reachable hw4 [[1, 2], [4]] s :=
    reaches_of_run (fun e he _ => oneByOne_proper e he) hs
  exact ⟨s, hreach, hm, (reported_size_iff hreach hm).mpr (by decide)⟩

/-! ## Every input is reported on -/

/-- When all workers are gone, the main thread joins them one after the other. Induction on
their number. -/
theorem reachable_joinTest {inputs : List (List UInt8)} {s : State} (h : Reachable hw4 inputs s)
    (hm : s.main = .joinTest 0) (hgone : ∀ j, j < s.workers.length → Gone s.workers j) :
    ∀ i, i ≤ s.workers.length → Reachable hw4 inputs { s with main := .joinTest i }
  | 0, _ => by
    rw [← hm]
    exact h
  | i + 1, hi => by
    have ih := reachable_joinTest h hm hgone i (by omega)
    have htest : step hw4 .main { s with main := .joinTest i }
        = some { s with main := .join i } := if_pos (Int.ofNat_lt.mpr hi)
    have hjoin : step hw4 .main { s with main := .join i }
        = some { s with main := .joinTest (i + 1) } := if_pos (hgone i hi)
    exact (ih.next htest trivial).next hjoin trivial

/-- On every input some run gets to the `printf`: create all workers first, and then let them
come to rest. -/
theorem exists_joined (inputs : List (List UInt8)) :
    ∃ s, Reachable hw4 inputs s ∧ s.main = .joined := by
  obtain ⟨s, hcreated, hm, hphase⟩ := exists_all_created hw4 inputs
  obtain ⟨t, hrest, hstuck, htm, hflags, -⟩ := exists_rest true s
  have ht : Reachable hw4 inputs t :=
    hcreated.reachable.trans (hrest.mono fun _ _ he => he.1)
  have hborn : ∀ u ∈ unbornFlags t.workers, u = false := by
    rw [hflags]
    intro u hu
    obtain ⟨w, hw, rfl⟩ := List.mem_map.mp hu
    simp [hphase w hw]
  -- nobody can act, so nobody is left
  have hterm : ∀ w ∈ t.workers, w.phase = .terminated := by
    by_contra hlive
    simp only [not_forall] at hlive
    obtain ⟨w, hw, hne⟩ := hlive
    obtain ⟨v, hv, hblocked⟩ := exists_unblocked (reachable_inv ht) hborn ⟨w, hw, hne⟩
    obtain ⟨i, -, hsome⟩ := exists_worker_step hw4 hv hblocked
    have hnone := hstuck (.worker i fun _ => 1) ⟨i, _, rfl, nofun⟩
    simpa [hnone] using hsome fun _ => 1
  have hjoined := reachable_joinTest ht (htm.trans hm)
    (fun j hj => (gone_iff hj).mpr (hterm _ (List.getElem_mem hj))) _ (Nat.le_refl _)
  have hlast : step hw4 .main { t with main := .joinTest t.workers.length }
      = some { t with main := .joined } := if_neg (Int.lt_irrefl _)
  exact ⟨_, hjoined.next hlast trivial, rfl⟩

/-- What is printed for one input of `n` zeros. -/
theorem exists_printed_zeros (n : Nat) : ∃ s, Reachable hw4 [List.replicate n 0] s ∧
    s.main = .joined ∧ s.globals.output.length = n ∧ s.globals.totalSize = wrap32 n := by
  have hmax : maxLength [List.replicate n 0] = n := by simp [maxLength]
  obtain ⟨s, hreach, hm⟩ := exists_joined [List.replicate n 0]
  have hlength : s.globals.output.length = n := (output_length_of_joined hreach hm).trans hmax
  have htotal : s.globals.totalSize = wrap32 s.globals.output.length :=
    totalled_of_reaches hreach
  rw [hlength] at htotal
  exact ⟨s, hreach, hm, hlength, htotal⟩

/-- One input of `2 ^ 31` bytes: some run reaches the `printf`, and a negative size is
printed. -/
theorem reports_negative_size : ∃ s, Reachable hw4 [List.replicate 2147483648 0] s ∧
    s.main = .joined ∧ s.globals.output.length = 2147483648 ∧
    s.globals.totalSize = -2147483648 := by
  have hneg : wrap32 (2147483648 : Nat) = -2147483648 := by decide
  rw [← hneg]
  exact exists_printed_zeros 2147483648

end OsHw.Hw4
