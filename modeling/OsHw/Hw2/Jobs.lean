import OsHw.Hw2.Session

/-!
# OsHw — the processes that a session leaves running

The shell goes on to the next line when the first process of a foreground line has terminated. The
second one of a pipeline may still run then, and so may everything in the background.

* **`Blocked`** — the only state in which a session waits for something.
* **`running_jobs`** — what may still run between two lines.
* **`feed`** — a session that gets a given list of lines, and then the end of its input.
* **`session_ends`** — no session is ever stuck: whatever lines are still to come, it goes on to its
  end.
-/

namespace OsHw.Hw2

open Descriptors

variable {F : Type} {limit : Nat} {lines : List (List Char)} {table : Table F} {s t : Session F}

/-! ## Lines -/

/-- The words of line `k`. -/
def wordsAt (lines : List (List Char)) (k : Nat) : List String :=
  match lines[k]? with
  | none => []
  | some text => lineWords text

/-- The words of the line behind those that are done. -/
theorem wordsAt_append {done more : List (List Char)} {text : List Char} {m : Main F}
    (hline : m.line = done.length) :
    wordsAt (done ++ [text] ++ more) m.line = lineWords text := by
  have hget : (done ++ [text] ++ more)[m.line]? = some text := by
    rw [hline, List.append_assoc, List.getElem?_append_right (Nat.le_refl _), Nat.sub_self]
    rfl
  rw [wordsAt, hget]

/-! ## What may still run -/

section Call

variable {words : List String} {table : Table F} {former : List (Former F)} {c : State F}

/-- The first process of a foreground line has terminated when the shell returns. -/
theorem first_terminated (hbg : isBackground words = false) (hs : Reachable words table former c)
    (hphase : c.phase = .returned) {child : Child F} (hchild : c.children[0]? = some child) :
    child.terminated = true := by
  induction hs generalizing child with
  | refl => cases hphase
  | @tail s t e hs _ hst ih =>
    have hd : Determined words table former s := Reachable.determined hs
    cases e with
    | shell =>
      cases shellStep_cases hst with
      | empty hstart =>
        have himages := hd.images
        rw [hstart] at himages
        have hnil : s.children = [] := List.map_eq_nil_iff.mp himages
        rw [hnil] at hchild
        cases hchild
      | background _ hbg' =>
        rw [hd.command, hbg] at hbg'
        cases hbg'
      | wait1 _ _ hwait => exact terminated_of_waitpid hwait hchild
      | wait2 _ hwait2 => exact absurd hwait2 (not_wait2 hs)
      | _ => cases hphase
    | terminate pid =>
      obtain ⟨d, hd, hst⟩ := Option.bind_eq_some_iff.mp hst
      cases hst
      rw [List.getElem?_set] at hchild
      split at hchild
      · split at hchild
        · cases hchild
          rfl
        · cases hchild
      · exact ih hphase hchild
    | terminateFormer j =>
      obtain ⟨d, -, hst⟩ := Option.bind_eq_some_iff.mp hst
      cases hst
      exact ih hphase hchild

/-- What a call leaves running: something in the background, or the second process of a
pipeline. -/
theorem running_child (hwords : words ≠ []) (hs : Reachable words table former c)
    (hphase : c.phase = .returned) {pid : Nat} {child : Child F}
    (hchild : c.children[pid]? = some child) (hrun : child.terminated = false) :
    words.getLast? = some "&" ∨ ("|" ∈ words ∧ pid = 1) := by
  by_cases hlast : words.getLast? = some "&"
  · exact Or.inl hlast
  · right
    have hbg : isBackground words = false := beq_eq_false_iff_ne.mpr hlast
    have hpid : pid ≠ 0 := by
      rintro rfl
      rw [first_terminated hbg hs hphase hchild] at hrun
      cases hrun
    have himages := closed_images (mt List.length_eq_zero_iff.mp hwords) hs (Or.inr (Or.inr hphase))
    have hlen := congrArg List.length himages
    rw [List.length_map] at hlen
    have hlt : pid < c.children.length := (List.getElem?_eq_some_iff.mp hchild).1
    by_cases hmem : "|" ∈ words
    · obtain ⟨i, hp⟩ := isPiped_of_mem hmem
      rw [allImages, hp] at hlen
      simp only [hbg, Bool.false_eq_true, if_false, List.length_cons, List.length_nil] at hlen
      exact ⟨hmem, by omega⟩
    · rw [allImages, isPiped_eq_none.mpr hmem] at hlen
      simp only [List.length_singleton] at hlen
      omega

end Call

/-- What may run between two lines. -/
def MayRun (lines : List (List Char)) (j : Job F) : Prop :=
  (wordsAt lines j.line).getLast? = some "&" ∨ ("|" ∈ wordsAt lines j.line ∧ j.pid = 1)

theorem mem_terminate {m : Main F} {i : Nat} {j : Job F} (h : j ∈ (m.terminate i).jobs) :
    j ∈ m.jobs ∨ ∃ j' ∈ m.jobs, j = j'.end := by
  obtain ⟨k, hk⟩ := List.mem_iff_getElem?.mp h
  have hmodify : (m.jobs.modify i Job.end)[k]? = some j := hk
  rw [List.getElem?_modify] at hmodify
  obtain ⟨j', hj', heq⟩ := Option.map_eq_some_iff.mp hmodify
  have hmem := List.mem_of_getElem? hj'
  split at heq
  · exact Or.inr ⟨j', hmem, heq.symm⟩
  · exact Or.inl (heq ▸ hmem)

theorem mem_afterCall {m : Main F} {call : State (Handle F)} {j : Job F}
    (h : j ∈ (m.afterCall call).jobs) : j ∈ m.jobs ∨
      ∃ pid child, call.children[pid]? = some child ∧ j = ⟨m.line, pid, child⟩ := by
  rcases List.mem_append.mp h with hold | hnew
  · exact Or.inl hold
  · obtain ⟨pid, hlt, heq⟩ := List.mem_mapIdx.mp hnew
    exact Or.inr ⟨pid, _, List.getElem?_eq_getElem hlt, heq.symm⟩

/-- **Running processes.** What still runs between two lines was started in the background, or is
the second process of a pipeline. -/
theorem running_jobs (h : SessionReachable limit table s) :
    ∀ j ∈ s.main.jobs, j.child.terminated = false → MayRun s.lines j := by
  -- whatever lines come behind those that are done
  let I : List (List Char) → Main F → Prop := fun done m =>
    ∀ more, ∀ j ∈ m.jobs, j.child.terminated = false → MayRun (done ++ more) j
  have hI : Standing limit I s := by
    refine h.standing (fun _ => nofun) (fun done text m _ hI _ more => ?_)
      (fun done text m former call hline hI hwords hreach hphase _ more => ?_)
      (fun done m i hI more => ?_)
    · rw [List.append_assoc]
      exact hI ([text] ++ more)
    · intro j hj hrun
      rcases mem_afterCall hj with hold | ⟨pid, child, hchild, rfl⟩
      · rw [List.append_assoc]
        exact hI ([text] ++ more) j hold hrun
      · have hleft := running_child hwords hreach hphase hchild hrun
        have hsame : wordsAt (done ++ [text] ++ more) m.line = lineWords text :=
          wordsAt_append hline
        rw [← hsame] at hleft
        exact hleft
    · intro j hj hrun
      rcases mem_terminate hj with hold | ⟨j', -, rfl⟩
      · exact hI more j hold hrun
      · cases hrun
  obtain ⟨done, more, hlines, hjobs⟩ := hI.exists_done
  rw [hlines]
  exact hjobs more

/-- The line `a &`, whose process runs when the session is over. -/
theorem background_runs : ∃ s : Session Nat, SessionReachable 4 [some 0] s ∧
    s.lines = [['a', ' ', '&']] ∧ s.stage = .exited 0 ∧
    ∃ j ∈ s.main.jobs, j.child.terminated = false ∧ MayRun s.lines j := by
  have hrun : Runs.run (sessionStep 4)
      [deliver ['a', ' ', '&'], .call .shell, .call .shell, .returned, endOfInput]
      (Session.start [some 0]) = some _ := rfl
  have hs : SessionReachable 4 [some 0] _ :=
    Runs.reaches_of_run (by simp [deliver, endOfInput, SessionEvent.Proper]) hrun
  exact ⟨_, hs, rfl, rfl, _, List.mem_singleton_self _, rfl,
    running_jobs hs _ (List.mem_singleton_self _) rfl⟩

/-! ## Sessions end -/

/-- The shell waits for the first process of a foreground line. -/
def Blocked (s : Session F) : Prop :=
  ∃ call child, s.stage = .processing call ∧ call.phase = .wait1 ∧ call.children[0]? = some child ∧
    child.terminated = false

/-- A session, and the lines that `getline` is still going to return before -1. -/
abbrev Fed (F : Type) := Session F × List (List Char)

/-- A step of a session with these lines to come. -/
def feed (limit : Nat) (e : SessionEvent) (x : Fed F) : Option (Fed F) :=
  match e with
  | .iterate line memory =>
    if line = x.2.head? then
      (sessionStep limit (.iterate line memory) x.1).map fun s => (s, x.2.tail)
    else none
  | e => (sessionStep limit e x.1).map fun s => (s, x.2)

variable {x y : Fed F}

theorem feed_step {e : SessionEvent} (hst : feed limit e x = some y) :
    sessionStep limit e x.1 = some y.1 := by
  unfold feed at hst
  split at hst
  · split at hst
    · obtain ⟨s, hs, rfl⟩ := Option.map_eq_some_iff.mp hst
      exact hs
    · cases hst
  · obtain ⟨s, hs, rfl⟩ := Option.map_eq_some_iff.mp hst
    exact hs

/-- `main` can go on if `readWords` has a result, which it always has. -/
theorem exists_main_step (limit : Nat) (hstage : x.1.stage = .prompt) :
    ∃ y, feed limit (.iterate x.2.head? fun _ => true) x = some y := by
  obtain ⟨⟨lines, main, stage⟩, texts⟩ := x
  cases hstage
  simp only [feed, if_true]
  cases texts with
  | nil => exact ⟨_, rfl⟩
  | cons text texts =>
    obtain ⟨count, arglist, line, hread, -, -, hwords⟩ :=
      @readWords_eq (fun _ => true) _ (fun _ => rfl) text (Nat.lt_succ_self _)
    simp only [List.head?_cons, sessionStep, hread, hwords, Option.bind_eq_bind, Option.bind_some]
    split
    · exact ⟨_, rfl⟩
    · exact ⟨_, rfl⟩

/-- A step of the call is a step of the session, if only to exit. -/
theorem exists_call_step (limit : Nat) {call call' : State (Handle F)} {e : Event}
    (hstage : x.1.stage = .processing call) (hst : step e call = some call') :
    ∃ y, feed limit (.call e) x = some y := by
  simp only [feed, sessionStep, hstage, hst, Option.map_some]
  split
  · exact ⟨_, rfl⟩
  · exact ⟨_, rfl⟩

/-- The events in which the shell goes on, and the end of a process that it waits for. -/
def Onward (e : SessionEvent) (x : Fed F) : Prop :=
  (∃ line, e = .iterate line fun _ => true) ∨ e = .returned ∨ e = .call .shell ∨
    (e = .call (.terminate 0) ∧ Blocked x.1)

/-- A call that has forked has a first child. -/
theorem exists_first_child {words : List String} {table : Table (Handle F)}
    {former : List (Former (Handle F))} {call : State (Handle F)} (hwords : words ≠ [])
    (hreach : Reachable words table former call) (hclosed : call.closed) :
    ∃ child, call.children[0]? = some child := by
  have himages := closed_images (mt List.length_eq_zero_iff.mp hwords) hreach hclosed
  cases hchildren : call.children with
  | nil =>
    rw [hchildren, allImages] at himages
    split at himages
    · cases himages
    · split at himages <;> cases himages
  | cons child rest => exact ⟨child, rfl⟩

/-- **No session is stuck**: it goes on, or it waits for a process that may end. -/
theorem exists_onward (h : SessionReachable limit table x.1)
    (hstage : ∀ code, x.1.stage ≠ .exited code) :
    ∃ e y, Onward e x ∧ feed limit e x = some y := by
  have hst := h.standing (I := fun _ _ => True) trivial (fun _ _ _ _ _ _ => trivial)
    (fun _ _ _ _ _ _ _ _ _ _ _ => trivial) (fun _ _ _ _ => trivial)
  cases hs : x.1.stage with
  | exited code => exact absurd hs (hstage code)
  | prompt =>
    obtain ⟨y, hy⟩ := exists_main_step limit hs
    exact ⟨_, y, Or.inl ⟨_, rfl⟩, hy⟩
  | processing call =>
    rw [Standing, hs] at hst
    obtain ⟨done, text, former, -, -, hwords, hreach, -⟩ := hst
    rcases closed_or_step hreach with hclosed | hstep
    · rcases id hclosed with hphase | hphase | hphase
      · obtain ⟨child, hchild⟩ := exists_first_child hwords hreach hclosed
        cases hrun : child.terminated with
        | false =>
          have hstep : ∃ call', step (.terminate 0) call = some call' := by
            simp only [step, hchild]
            exact ⟨_, rfl⟩
          obtain ⟨call', hstep⟩ := hstep
          obtain ⟨y, hy⟩ := exists_call_step limit hs hstep
          have hblocked : Blocked x.1 := ⟨call, child, hs, hphase, hchild, hrun⟩
          exact ⟨_, y, Or.inr (Or.inr (Or.inr ⟨rfl, hblocked⟩)), hy⟩
        | true =>
          have hwait : waitpid call 0 = some none := by
            simp only [waitpid, hchild, hrun, if_true, sigchld_ignored hreach]
          have hst := ShellStep.wait1 none hphase hwait (Or.inr (by simp))
          obtain ⟨y, hy⟩ := exists_call_step limit hs hst.step_shell
          exact ⟨_, y, Or.inr (Or.inr (Or.inl rfl)), hy⟩
      · exact absurd hphase (not_wait2 hreach)
      · refine ⟨.returned,
          ({ x.1 with main := x.1.main.afterCall call, stage := .prompt }, x.2),
          Or.inr (Or.inl rfl), ?_⟩
        simp only [feed, sessionStep, hs, hphase, if_true, Option.map_some]
    · obtain ⟨call', hstep⟩ := hstep
      obtain ⟨y, hy⟩ := exists_call_step limit hs hstep
      exact ⟨_, y, Or.inr (Or.inr (Or.inl rfl)), hy⟩

def Phase.left : Phase → Nat
  | .start => 7
  | .fork1 => 6
  | .fork2 => 5
  | .close0 => 4
  | .close1 => 3
  | .wait1 => 2
  | .wait2 => 1
  | .returned => 0

/-- The first process of a call that still runs. -/
def firstRuns (call : State (Handle F)) : Nat :=
  match call.children[0]? with
  | none => 0
  | some child => if child.terminated then 0 else 1

/-- How far a session is from its end: `20` for every line that comes, and what is left of a
call. -/
def Fed.left (x : Fed F) : Nat :=
  match x.1.stage with
  | .prompt => 20 * x.2.length + 1
  | .processing call => 20 * x.2.length + 2 + 2 * call.phase.left + firstRuns call
  | .exited _ => 0

theorem firstRuns_le (call : State (Handle F)) : firstRuns call ≤ 1 := by
  unfold firstRuns
  split
  · exact Nat.zero_le 1
  · split
    · exact Nat.zero_le 1
    · exact Nat.le_refl 1

theorem shellStep_left {F : Type} {s t : State F} (hst : shellStep s = some t) :
    t.phase.left < s.phase.left := by
  cases shellStep_cases hst <;> simp [Phase.left, *]

theorem Onward.proper {e : SessionEvent} (he : Onward e x) : e.Proper := by
  rcases he with ⟨line, rfl⟩ | rfl | rfl | ⟨rfl, -⟩
  · exact fun _ => rfl
  · trivial
  · trivial
  · trivial

/-- Every step onward brings the session closer to its end. -/
theorem Onward.left_lt {e : SessionEvent} (he : Onward e x) (hst : feed limit e x = some y) :
    y.left < x.left := by
  have hmoves := sessionStep_moves he.proper (feed_step hst)
  obtain ⟨⟨lines, main, stage⟩, texts⟩ := x
  rcases he with ⟨line, rfl⟩ | rfl | rfl | ⟨rfl, call, child, hstage, hphase, hchild, hrun⟩
  · simp only [feed] at hst
    split at hst
    · next hline =>
      obtain ⟨s, -, rfl⟩ := Option.map_eq_some_iff.mp hst
      cases hmoves with
      | finish hstage =>
        cases hstage
        exact Nat.succ_pos _
      | @blank text _ hstage hwords =>
        cases hstage
        obtain ⟨rest, rfl⟩ := List.head?_eq_some_iff.mp hline.symm
        simp only [Fed.left, List.tail_cons, List.length_cons]
        omega
      | @command text _ hstage hwords =>
        cases hstage
        obtain ⟨rest, rfl⟩ := List.head?_eq_some_iff.mp hline.symm
        have hruns := firstRuns_le (main.call (lineWords text))
        have hphase : (main.call (lineWords text)).phase.left = 7 := rfl
        simp only [Fed.left, List.tail_cons, List.length_cons]
        omega
    · cases hst
  · obtain ⟨s, -, rfl⟩ := Option.map_eq_some_iff.mp hst
    cases hmoves with
    | returned hstage hphase =>
      cases hstage
      simp only [Fed.left]
      omega
  · obtain ⟨s, -, rfl⟩ := Option.map_eq_some_iff.mp hst
    cases hmoves with
    | noPipe hstage hfails =>
      cases hstage
      simp only [Fed.left]
      omega
    | @inner call call' _ hstage hfits hstep =>
      cases hstage
      have hlt := shellStep_left hstep
      have hruns := firstRuns_le call'
      simp only [Fed.left]
      omega
  · cases hstage
    obtain ⟨s, -, rfl⟩ := Option.map_eq_some_iff.mp hst
    cases hmoves with
    | @inner _ call' _ hstage hfits hstep =>
      cases hstage
      simp only [step, hchild, Option.bind_eq_bind, Option.bind_some] at hstep
      cases hstep
      have hbefore : firstRuns call = 1 := by
        simp [firstRuns, hchild, hrun]
      have hafter : firstRuns { call with
          children := call.children.set 0 { child with terminated := true } } = 0 := by
        have hlt := (List.getElem?_eq_some_iff.mp hchild).1
        simp [firstRuns, hlt]
      simp only [Fed.left, hbefore, hafter]
      omega

/-- **Sessions end.** From every state that a session comes to, and whatever lines `getline` still
returns before it returns -1, the shell goes on to its end when the processes that it waits for
end. -/
theorem session_ends (h : SessionReachable limit table s) (texts : List (List Char)) :
    ∃ y code, Runs.Reaches (feed limit) Onward (s, texts) y ∧ y.1.stage = .exited code := by
  have hnext : ∀ e x y, SessionReachable limit table x.1 → Onward e x → feed limit e x = some y →
      SessionReachable limit table y.1 := fun _ _ _ hx he hst => .tail hx he.proper (feed_step hst)
  obtain ⟨y, hreach, hy, hstuck⟩ := Runs.exists_stuck (s := (s, texts)) Fed.left hnext
    (fun e x y _ he hst => he.left_lt hst) h
  cases hstage : y.1.stage with
  | exited code => exact ⟨y, code, hreach, hstage⟩
  | prompt =>
    obtain ⟨e, u, he, hst⟩ := exists_onward hy (by simp [hstage])
    rw [hstuck e he] at hst
    cases hst
  | processing call =>
    obtain ⟨e, u, he, hst⟩ := exists_onward hy (by simp [hstage])
    rw [hstuck e he] at hst
    cases hst

/-- A session that gets two lines. -/
theorem two_lines_end : ∃ (y : Fed Nat) (code : Int), Runs.Reaches (feed 4) Onward
    (Session.start [some 0], [['l', 's', '\n'], ['l', 's']]) y ∧ y.1.stage = .exited code :=
  session_ends .refl _

end OsHw.Hw2
