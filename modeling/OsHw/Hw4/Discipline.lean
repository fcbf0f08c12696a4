import OsHw.Hw4.Actions

/-!
# OsHw — the level discipline of the XOR workers

The barrier of `hw4` is spread over `xorWithOutput`, `xorAndWrite`, the end of `workerMain`
and `writeToOutputFileAndCleanBuffer`. What ties them together is **`Disciplined`**:

* `numThreads` counts the workers that have not retired, `workersDone` those of them whose
  `current_level` is already behind the global `level`;
* every worker is at the level or one ahead of it (`Worker.InLevel`): one that waits without
  a broadcast is ahead, one that was woken or is XORing is at the level;
* the level is open: unless everyone has retired, someone has not contributed to it yet.

The last clause is the reason why a wait without a loop suffices when waits return only after
a broadcast: while one worker is at the level, nobody can close it.
-/

namespace OsHw.Hw4

/-- `w` is counted in `numThreads`. -/
def Worker.active (w : Worker) : Bool :=
  match w.phase with
  | .exiting | .terminated => false
  | _ => true

/-- `w` is counted in `workersDone`: it has contributed to the current level. -/
def Worker.doneAt (level : Nat) (w : Worker) : Bool := w.active && w.currentLevel == level + 1

/-- Where the worker's level may be, relative to the global one. -/
def Worker.InLevel (level : Nat) (w : Worker) : Prop :=
  match w.phase with
  | .unborn => w.currentLevel = 0 ∧ level = 0
  | .reading | .xorLock | .retireLock => w.currentLevel = level ∨ w.currentLevel = level + 1
  | .xorWait false | .retireWait false => w.currentLevel = level + 1
  | .xorWait true | .retireWait true | .countLock => w.currentLevel = level
  | .exiting | .terminated => w.currentLevel ≤ level

/-- The control invariant of the barrier. -/
structure Disciplined (g : Globals) (ws : List Worker) : Prop where
  threads : g.numThreads = ws.countP Worker.active
  done : g.workersDone = ws.countP (Worker.doneAt g.level)
  openLevel : g.workersDone < g.numThreads ∨ g.numThreads = 0
  levels : ∀ w ∈ ws, w.InLevel g.level

/-! ## Waking workers -/

@[simp] theorem Worker.wake_currentLevel (w : Worker) :
    w.wake.currentLevel = w.currentLevel := by
  unfold wake; split <;> rfl

@[simp] theorem Worker.wake_content (w : Worker) : w.wake.content = w.content := by
  unfold wake; split <;> rfl

/-- A broadcast moves nobody into or out of a phase that is not a wait. -/
@[simp] theorem Worker.wake_phase_iff {ph : Phase} (w : Worker) (hx : ∀ b, ph ≠ .xorWait b)
    (hr : ∀ b, ph ≠ .retireWait b) : w.wake.phase = ph ↔ w.phase = ph := by
  unfold wake
  split
  · next b hph => simp [hph, (hx true).symm, (hx b).symm]
  · next b hph => simp [hph, (hr true).symm, (hr b).symm]
  · rfl

@[simp] theorem Worker.wake_active (w : Worker) : w.wake.active = w.active := by
  cases hph : w.phase <;> simp [wake, active, hph]

@[simp] theorem Worker.wake_doneAt (level : Nat) (w : Worker) :
    w.wake.doneAt level = w.doneAt level := by
  simp [doneAt]

theorem countP_wake (q : Worker → Bool) (hq : ∀ w, q w.wake = q w) (ws : List Worker) :
    (ws.map Worker.wake).countP q = ws.countP q := by
  rw [List.countP_map]
  exact congrArg (fun f => List.countP f ws) (funext hq)

/-- A worker that is ahead of the level when it is closed is at the next level, awake; a
retired one stays behind. -/
theorem Worker.InLevel.wake_succ {level : Nat} {w : Worker} (h : w.InLevel level)
    (hdone : w.active → w.currentLevel = level + 1) : w.wake.InLevel (level + 1) := by
  cases hph : w.phase with
  | unborn =>
    simp only [InLevel, hph] at h
    have := hdone (by simp [active, hph])
    omega
  | countLock =>
    simp only [InLevel, hph] at h
    have := hdone (by simp [active, hph])
    omega
  | exiting | terminated =>
    simp only [InLevel, hph] at h
    simp only [InLevel, wake, hph]
    omega
  | reading | xorLock | retireLock =>
    simp only [InLevel, wake, hph]
    exact .inl (hdone (by simp [active, hph]))
  | xorWait woken =>
    simp only [InLevel, wake, hph]
    exact hdone (by simp [active, hph])
  | retireWait woken =>
    simp only [InLevel, wake, hph]
    exact hdone (by simp [active, hph])

theorem Worker.AtXor.inLevel {level : Nat} {w : Worker} (hat : w.AtXor level)
    (h : w.InLevel level) : w.currentLevel = level := by
  rcases hat with ⟨-, heq⟩ | hph
  · exact heq
  · simpa [InLevel, hph] using h

theorem Worker.AtRetire.inLevel {level : Nat} {w : Worker} (hat : w.AtRetire level)
    (h : w.InLevel level) : w.currentLevel = level := by
  rcases hat with ⟨-, heq⟩ | hph
  · exact heq
  · simpa [InLevel, hph] using h

theorem Worker.AtRetire.active {level : Nat} {w : Worker} (hat : w.AtRetire level) :
    w.active := by
  rcases hat with ⟨hph, -⟩ | hph <;> simp [Worker.active, hph]

/-! ## Keeping the discipline -/

section
variable {p : Program} {g g' : Globals} {pre post : List Worker} {w w' : Worker}

/-- Replacing `w` by `w'` without closing the level: the counts move with the worker. -/
theorem Disciplined.recount (h : Disciplined g (pre ++ w :: post)) (hl : g'.level = g.level)
    (hn : g'.numThreads + w.active.toNat = g.numThreads + w'.active.toNat)
    (hd : g'.workersDone + (w.doneAt g.level).toNat
      = g.workersDone + (w'.doneAt g.level).toNat)
    (hopen : g'.workersDone < g'.numThreads ∨ g'.numThreads = 0)
    (hw' : w'.InLevel g.level) : Disciplined g' (pre ++ w' :: post) := by
  have hcount : ∀ (q : Worker → Bool) (v : Worker),
      (pre ++ v :: post).countP q = (pre ++ post).countP q + (q v).toNat := by
    intro q v
    cases hq : q v <;> simp [List.countP_append, hq]
    omega
  have h1 := h.threads
  have h2 := h.done
  rw [hcount] at h1 h2
  refine ⟨?_, ?_, hopen, ?_⟩
  · rw [hcount]
    omega
  · rw [hl, hcount]
    omega
  · rw [hl]
    exact Family.forall_replace h.levels hw'

/-- An action that changes neither a count nor a level keeps the discipline. -/
theorem Disciplined.replace (h : Disciplined g (pre ++ w :: post))
    (hn : g'.numThreads = g.numThreads) (hd : g'.workersDone = g.workersDone)
    (hl : g'.level = g.level) (hact : w'.active = w.active)
    (hcl : w'.currentLevel = w.currentLevel) (hw' : w'.InLevel g.level) :
    Disciplined g' (pre ++ w' :: post) := by
  have hdone : w'.doneAt g.level = w.doneAt g.level := by simp [Worker.doneAt, hact, hcl]
  refine h.recount hl (by rw [hn, hact]) (by rw [hd, hdone]) ?_ hw'
  rw [hn, hd]
  exact h.openLevel

/-- When `w` is at the level and everybody else was counted, everybody else is done. -/
theorem Disciplined.others_done (h : Disciplined g (pre ++ w :: post)) (hact : w.active)
    (hcl : w.currentLevel = g.level) (heq : g.workersDone + 1 = g.numThreads) :
    ∀ v ∈ pre ++ post, v.active → v.currentLevel = g.level + 1 := by
  have hnot : w.doneAt g.level = false := by simp [Worker.doneAt, hcl]
  have hcount : (pre ++ post).countP (Worker.doneAt g.level)
      = (pre ++ post).countP Worker.active := by
    have h1 := h.threads
    have h2 := h.done
    simp only [List.countP_append, List.countP_cons, hact, hnot, if_true, if_false,
      Bool.false_eq_true] at h1 h2 ⊢
    omega
  intro v hv hvact
  have hsub : ∀ u : Worker, u.doneAt g.level → u.active := by
    intro u hu
    simp only [Worker.doneAt, Bool.and_eq_true] at hu
    exact hu.1
  have hvd := Family.of_countP_eq hsub hcount v hv hvact
  simpa [Worker.doneAt, hvact] using hvd

/-- Closing the level. `w'` is what the closing worker becomes; everybody else is done. -/
theorem Disciplined.flush (h : Disciplined g (pre ++ w :: post)) (hact : w.active)
    (hcl : w.currentLevel = g.level) (heq : g.workersDone + 1 = g.numThreads)
    (hn : g'.numThreads = (pre ++ w' :: post).countP Worker.active)
    (hd : g'.workersDone = 0) (hl : g'.level = g.level + 1)
    (hw' : w'.wake.InLevel (g.level + 1)) (hcl' : w'.currentLevel ≤ g.level + 1) :
    Disciplined g' ((pre ++ w' :: post).map Worker.wake) := by
  have hothers := h.others_done hact hcl heq
  -- nobody has contributed to the new level
  have hzero : (pre ++ w' :: post).countP (Worker.doneAt (g.level + 1)) = 0 := by
    rw [List.countP_eq_zero]
    refine Family.forall_middle.mpr ⟨fun hdone => ?_, fun v hv hdone => ?_⟩
    · simp only [Worker.doneAt, Bool.and_eq_true, beq_iff_eq] at hdone
      omega
    · simp only [Worker.doneAt, Bool.and_eq_true, beq_iff_eq] at hdone
      have := hothers v hv hdone.1
      omega
  refine ⟨?_, ?_, ?_, ?_⟩
  · rw [hn, countP_wake _ Worker.wake_active]
  · rw [hd, hl, countP_wake _ (Worker.wake_doneAt _), hzero]
    rfl
  · rw [hd, hn]
    omega
  · rw [hl, List.forall_mem_map]
    have hlevels := (Family.forall_middle.mp h.levels).2
    exact Family.forall_middle.mpr
      ⟨hw', fun u hu => (hlevels u hu).wake_succ (hothers u hu)⟩

/-- **Every action of a worker keeps the discipline.** One case per action. -/
theorem acts_disciplined {b : Bool} (h : Disciplined g (pre ++ w :: post))
    (hact : Acts p g w g' w' b) : Disciplined g' (wakeIf b (pre ++ w' :: post)) := by
  have hw : w.InLevel g.level := h.levels w (by simp)
  cases hact with
  | read hph hne =>
    refine h.replace rfl rfl rfl (by simp [Worker.active, hph]) rfl ?_
    simpa [Worker.InLevel, hph] using hw
  | eof hph hnil =>
    refine h.replace rfl rfl rfl (by simp [Worker.active, hph]) rfl ?_
    simpa [Worker.InLevel, hph] using hw
  | xorSleep hph hne =>
    refine h.replace rfl rfl rfl (by simp [Worker.active, hph]) rfl ?_
    simp only [Worker.InLevel, hph] at hw
    -- a worker that has to wait is one level ahead
    exact hw.resolve_left hne
  | retireSleep hph hne =>
    refine h.replace rfl rfl rfl (by simp [Worker.active, hph]) rfl ?_
    simp only [Worker.InLevel, hph] at hw
    exact hw.resolve_left hne
  | xor hat =>
    have hcl := hat.inLevel hw
    have hactive : w.active := by rcases hat with ⟨hph, -⟩ | hph <;> simp [Worker.active, hph]
    exact h.replace rfl rfl rfl (by rw [hactive]; rfl) rfl hcl
  | exit hph =>
    refine h.replace rfl rfl rfl (by simp [Worker.active, hph]) rfl ?_
    simpa [Worker.InLevel, hph] using hw
  | count hph hne =>
    have hactive : w.active := by simp [Worker.active, hph]
    have hcl : w.currentLevel = g.level := by simpa [Worker.InLevel, hph] using hw
    -- one more is done with the level, and it is not the last one
    have hnot : w.doneAt g.level = false := by simp [Worker.doneAt, hcl]
    refine h.recount rfl ?_ ?_ ?_ (.inr (by simp [hcl]))
    · simp [counted, Worker.active, hph]
    · rw [hnot]
      simp [counted, Worker.doneAt, Worker.active, hcl]
    · have hthreads := h.threads
      have hopen := h.openLevel
      simp only [List.countP_append, List.countP_cons, hactive, if_true] at hthreads
      simp only [counted]
      omega
  | countFlush hph heq =>
    have hactive : w.active := by simp [Worker.active, hph]
    have hcl : w.currentLevel = g.level := by simpa [Worker.InLevel, hph] using hw
    -- the last one: all the others are done, and the level goes up
    refine h.flush hactive hcl heq ?_ rfl rfl ?_ (by simp [hcl])
    · have h1 := h.threads
      simp only [List.countP_append, List.countP_cons, hactive] at h1
      simp only [List.countP_append, List.countP_cons, flushed, counted]
      simpa [Worker.active] using h1
    · simp [Worker.wake, Worker.InLevel, hcl]
  | retire hat hne =>
    have hactive := hat.active
    have hcl := hat.inLevel hw
    have hnot : w.doneAt g.level = false := by simp [Worker.doneAt, hcl]
    -- one less is active, and the others are not all done
    have hoff : ({ w with phase := .exiting } : Worker).active = false := rfl
    refine h.recount rfl ?_ ?_ ?_ (Nat.le_of_eq hcl)
    · rw [hactive, hoff]
      simp [retired]
    · rw [hnot, show ({ w with phase := .exiting } : Worker).doneAt g.level = false from rfl]
      simp [retired]
    · have hthreads := h.threads
      have hopen := h.openLevel
      simp only [List.countP_append, List.countP_cons, hactive, if_true] at hthreads
      simp only [retired]
      omega
  | retireFlush hat heq =>
    have hactive := hat.active
    have hcl := hat.inLevel hw
    refine h.flush hactive hcl (by omega) ?_ rfl rfl ?_ (by simp [hcl])
    · have h1 := h.threads
      simp only [List.countP_append, List.countP_cons, hactive] at h1
      simp only [List.countP_append, List.countP_cons, flushed, retired]
      simp [Worker.active] at h1 ⊢
      omega
    · simp [Worker.wake, Worker.InLevel, hcl]

end

end OsHw.Hw4
