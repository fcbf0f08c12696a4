import OsHw.Hw2.Launch

/-!
# OsHw — what the shell waits for

`prepare` has set SIGCHLD to `SIG_IGN`, so `waitpid` returns -1 once the child is gone, and never
its process identifier.

* **`waitpid_reaped`** — this.
* **`not_wait2`** — so no pipeline comes to the second of its two waits.
* **`waits_iff`** — a foreground line is waited for to its end exactly if it is no pipeline.
-/

namespace OsHw.Hw2

open Descriptors

variable {F : Type} {words : List String} {table : Table F} {former : List (Former F)}
  {s t : State F} {pid i : Nat} {result : Option Nat}

/-- `process_arglist` returns only after every child that it forked has terminated. -/
def WaitsForAll (words : List String) (table : Table F) (former : List (Former F)) : Prop :=
  ∀ s, Reachable words table former s → s.phase = .returned →
    ∀ c ∈ s.children, c.terminated = true

/-! ## `waitpid` -/

/-- `waitpid` blocks until the child has terminated. -/
theorem terminated_of_waitpid {c : Child F} (hwait : waitpid s pid = some result)
    (hc : s.children[pid]? = some c) : c.terminated = true := by
  simp only [waitpid, hc] at hwait
  by_contra hne
  rw [if_neg hne] at hwait
  cases hwait

/-- While SIGCHLD is ignored, `waitpid` returns -1. -/
theorem waitpid_reaped (hsig : s.shell.sigchld = .SIG_IGN)
    (hwait : waitpid s pid = some result) : result = none := by
  cases hc : s.children[pid]? with
  | none =>
    simp only [waitpid, hc] at hwait
    exact (Option.some.inj hwait).symm
  | some c =>
    simp only [waitpid, hc, if_pos hsig] at hwait
    split at hwait
    · exact (Option.some.inj hwait).symm
    · cases hwait

/-- What `prepare` has set stays. -/
theorem sigchld_ignored (hs : Reachable words table former s) :
    s.shell.sigchld = .SIG_IGN := by
  rw [hs.determined.shell]
  rfl

/-- A process that terminates leaves no other one running. -/
theorem terminated_set {l : List (Child F)} (h : ∀ c ∈ l, c.terminated = true) (c : Child F) :
    ∀ d ∈ l.set pid { c with terminated := true }, d.terminated = true := by
  intro d hd
  rcases List.mem_or_eq_of_mem_set hd with hd | rfl
  · exact h d hd
  · rfl

/-! ## Runs -/

/-- No pipeline comes to its second wait: the first one returns -1, and `&&` ends there. -/
theorem not_wait2 (hs : Reachable words table former s) : s.phase ≠ .wait2 := by
  intro hphase
  induction hs with
  | refl => cases hphase
  | @tail s t e hs _ hst ih =>
    cases e with
    | shell =>
      cases shellStep_cases hst with
      | both _ hwait =>
        have hreaped := waitpid_reaped (sigchld_ignored hs) hwait
        cases hreaped
      | _ => cases hphase
    | terminate pid =>
      obtain ⟨c, -, hst⟩ := Option.bind_eq_some_iff.mp hst
      cases hst
      exact ih hphase
    | terminateFormer j =>
      obtain ⟨c, -, hst⟩ := Option.bind_eq_some_iff.mp hst
      cases hst
      exact ih hphase

/-- A single command in the foreground has terminated when the shell returns. -/
theorem terminated_of_returned (hbg : isBackground words = false) (hp : isPiped words = none)
    (hs : Reachable words table former s) (hphase : s.phase = .returned) :
    ∀ c ∈ s.children, c.terminated = true := by
  induction hs with
  | refl => cases hphase
  | @tail s t e hs _ hst ih =>
    have hd : Determined words table former s := Reachable.determined hs
    have himages := hd.images
    cases e with
    | shell =>
      cases shellStep_cases hst with
      | empty hstart =>
        rw [hstart] at himages
        have hnil : s.children = [] := List.map_eq_nil_iff.mp himages
        show ∀ c ∈ s.children, c.terminated = true
        rw [hnil]
        intro c hc
        cases hc
      | background _ hbg' =>
        rw [hd.command, hbg] at hbg'
        cases hbg'
      | wait1 _ hwait1 hwait =>
        rw [hwait1, imagesAt, allImages, hp] at himages
        have hone := congrArg List.length himages
        rw [List.length_map] at hone
        obtain ⟨c, hc⟩ := List.length_eq_one_iff.mp hone
        show ∀ c ∈ s.children, c.terminated = true
        intro d hmem
        rw [hc, List.mem_singleton] at hmem
        rw [hmem]
        apply terminated_of_waitpid hwait
        rw [hc]
        rfl
      | wait2 _ hwait2 => exact absurd hwait2 (not_wait2 hs)
      | _ => cases hphase
    | terminate pid =>
      obtain ⟨c, -, hst⟩ := Option.bind_eq_some_iff.mp hst
      cases hst
      exact terminated_set (ih hphase) c
    | terminateFormer j =>
      obtain ⟨c, -, hst⟩ := Option.bind_eq_some_iff.mp hst
      cases hst
      exact ih hphase

/-- The shell comes to its first wait while both commands run. -/
theorem pipeline_waits (table : Table F) (former : List (Former F))
    (hbg : isBackground words = false) (hp : isPiped words = some i) :
    ∃ s first second, Reachable words table former s ∧ s.phase = .wait1 ∧
      s.children = [⟨first, false⟩, ⟨second, false⟩] := by
  have hlen : words.length ≠ 0 := Nat.ne_of_gt (Nat.zero_lt_of_lt (isPiped_lt hp))
  obtain ⟨s₁, hs₁, hphase₁, hchildren₁⟩ := start_step table former hlen
  have hcommand := hs₁.determined.command
  have hwriter : ∃ s first, Reachable words table former s ∧ s.phase = .fork2 ∧
      s.children = [⟨first, false⟩] := by
    have hst := ShellStep.writer hphase₁ (by rw [hcommand, hbg]) (by simp [hcommand, hp])
    refine ⟨_, firstChild s₁.words s₁.pipeFd s₁.shell, .tail hs₁ trivial hst.step_shell, rfl, ?_⟩
    rw [State.forked, hchildren₁, List.nil_append]
  obtain ⟨s₂, first, hs₂, hphase₂, hchildren₂⟩ := hwriter
  have hreader : ∃ s second, Reachable words table former s ∧ s.phase = .close0 ∧
      s.children = [⟨first, false⟩, ⟨second, false⟩] := by
    have hst := ShellStep.reader i hphase₂ (by rw [hs₂.determined.command, hp])
    refine ⟨_, secondChild s₂.words i s₂.pipeFd s₂.shell, .tail hs₂ trivial hst.step_shell, rfl,
      ?_⟩
    rw [State.forked, hchildren₂, List.singleton_append]
  obtain ⟨s₃, second, hs₃, hphase₃, hchildren₃⟩ := hreader
  have hclose := (ShellStep.close0 hphase₃).step_shell
  exact ⟨_, first, second, .tail (.tail hs₃ trivial hclose) trivial
    (ShellStep.close1 rfl).step_shell, rfl, hchildren₃⟩

/-- Then the first command terminates, and the shell returns. -/
theorem pipeline_returns (table : Table F) (former : List (Former F))
    (hbg : isBackground words = false) (hp : isPiped words = some i) :
    ∃ s, Reachable words table former s ∧ s.phase = .returned ∧
      ∃ c ∈ s.children, c.terminated = false := by
  obtain ⟨s, first, second, hs, hphase, hchildren⟩ := pipeline_waits table former hbg hp
  have hend : ∃ t, Reachable words table former t ∧ t.phase = .wait1 ∧
      t.children = [⟨first, true⟩, ⟨second, false⟩] := by
    have hst : step (.terminate 0) s =
        some { s with children := [⟨first, true⟩, ⟨second, false⟩] } := by
      simp only [step, hchildren]
      rfl
    exact ⟨_, .tail hs trivial hst, hphase, rfl⟩
  obtain ⟨t, ht, hphase, hchildren⟩ := hend
  have hwait : waitpid t 0 = some none := by
    simp only [waitpid, hchildren, sigchld_ignored ht]
    rfl
  have hst := ShellStep.wait1 none hphase hwait (Or.inr (by simp))
  refine ⟨_, .tail ht trivial hst.step_shell, rfl, ⟨second, false⟩, ?_, rfl⟩
  show _ ∈ t.children
  rw [hchildren]
  exact List.mem_cons_of_mem _ (List.mem_singleton_self _)

/-- **Waiting.** A line in the foreground is waited for to its end exactly if it has no `"|"`. -/
theorem waits_iff (table : Table F) (former : List (Former F))
    (hfg : words.getLast? ≠ some "&") : WaitsForAll words table former ↔ "|" ∉ words := by
  have hbg : isBackground words = false := beq_eq_false_iff_ne.mpr hfg
  constructor
  · intro hwaits hmem
    obtain ⟨i, hp⟩ := isPiped_of_mem hmem
    obtain ⟨s, hs, hphase, c, hc, hrunning⟩ := pipeline_returns table former hbg hp
    rw [hwaits s hs hphase c hc] at hrunning
    cases hrunning
  · intro hmem s hs hphase
    exact terminated_of_returned hbg (isPiped_eq_none.mpr hmem) hs hphase

/-- A command in the foreground, with a child in the background. -/
theorem foreground_waits : WaitsForAll ["sleep", "1"] [some 0] [⟨[some 0], false⟩] :=
  (waits_iff _ _ (by decide)).mpr (by decide)

/-- The first command of a pipeline terminates at once, and nobody waits for the second one. -/
theorem pipeline_left :
    ¬ ∀ (words : List String) (table : Table Nat) (former : List (Former Nat)),
      words.getLast? ≠ some "&" → WaitsForAll words table former := by
  intro h
  have hrun : Runs.run step [.shell, .shell, .shell, .shell, .shell, .terminate 0, .shell]
      (State.start ["true", "|", "sleep", "10"] [some 0] ([] : List (Former Nat))) = some _ := rfl
  have hs := Runs.reaches_of_run (P := fun _ _ => True) (fun _ _ _ => trivial) hrun
  have hwaited := h ["true", "|", "sleep", "10"] [some 0] [] (by decide) _ hs rfl
  have hsecond : false = true := hwaited _ (List.mem_cons_of_mem _ (List.mem_singleton_self _))
  cases hsecond

end OsHw.Hw2
