import OsHw.Hw2.Shell

/-!
# OsHw — the phases of `process_arglist`

The shell meets its children only in `waitpid`, and nothing that it gets from there goes anywhere
else. So its descriptors and the images of its children are functions of the phase.

* **`tableAt`**, **`imagesAt`** — these functions.
* **`ShellStep`** — the steps of the shell, one by one; there are no others.
* **`Reachable.determined`** — they hold in every reached state.
-/

namespace OsHw.Hw2

open Descriptors

variable {F : Type} {words : List String} {table : Table F} {former : List (Former F)}
  {s t : State F}

/-! ## What the phase determines -/

/-- The numbers of the pipe. -/
def pipeNumbers (table : Table F) : Nat × Nat := (pipe (inherit table) .readEnd .writeEnd).1

/-- The descriptors after `pipe`. -/
def pipeTable (table : Table F) : Table (File F) := (pipe (inherit table) .readEnd .writeEnd).2

/-- The descriptors after `pipe` and the two closes. -/
def closedTable (table : Table F) : Table (File F) :=
  close (close (pipeTable table) (pipeNumbers table).1) (pipeNumbers table).2

def tableAt (words : List String) (table : Table F) (phase : Phase) : Table (File F) :=
  if isPiped words = none then inherit table
  else
    match phase with
    | .start => inherit table
    | .fork1 | .fork2 | .close0 => pipeTable table
    | .close1 => close (pipeTable table) (pipeNumbers table).1
    | .wait1 | .wait2 => closedTable table
    | .returned => if isBackground words then pipeTable table else closedTable table

def pipeFdAt (words : List String) (table : Table F) (phase : Phase) : Nat × Nat :=
  match phase with
  | .start => (0, 0)
  | _ => if isPiped words = none then (0, 0) else pipeNumbers table

/-- The shell with other descriptors. -/
def shellWith (table : Table (File F)) : Process F := ⟨.SIG_IGN, .SIG_IGN, table⟩

/-- The child with `pid1`, and the one with `pid2` in a pipeline. -/
def firstImage (words : List String) (table : Table F) : Option (Image F) :=
  firstChild words (pipeFdAt words table .fork1) (shellWith (tableAt words table .fork1))

def secondImage (words : List String) (table : Table F) (pipeInd : Nat) : Option (Image F) :=
  secondChild words pipeInd (pipeNumbers table) (shellWith (pipeTable table))

/-- The children of a call that has forked all it does. -/
def allImages (words : List String) (table : Table F) : List (Option (Image F)) :=
  match isPiped words with
  | none => [firstImage words table]
  | some pipeInd =>
    if isBackground words then [firstImage words table]
    else [firstImage words table, secondImage words table pipeInd]

def imagesAt (words : List String) (table : Table F) (phase : Phase) : List (Option (Image F)) :=
  match phase with
  | .start | .fork1 => []
  | .fork2 => [firstImage words table]
  | .close0 | .close1 | .wait1 | .wait2 => allImages words table
  | .returned => if words.length = 0 then [] else allImages words table

/-- The phases that a command comes to. -/
def Possible (words : List String) (phase : Phase) : Prop :=
  match phase with
  | .start | .returned => True
  | .fork1 => words.length ≠ 0
  | .wait1 => words.length ≠ 0 ∧ isBackground words = false
  | .fork2 | .close0 | .close1 | .wait2 =>
    words.length ≠ 0 ∧ isBackground words = false ∧ isPiped words ≠ none

/-- What the phase of a state determines. -/
structure Determined (words : List String) (table : Table F) (former : List (Former F))
    (s : State F) : Prop where
  command : s.words = words
  shell : s.shell = shellWith (tableAt words table s.phase)
  pipeFd : s.pipeFd = pipeFdAt words table s.phase
  images : s.children.map Child.image = imagesAt words table s.phase
  possible : Possible words s.phase
  former : s.former.map Former.table = former.map Former.table

theorem start_determined (words : List String) (table : Table F) (former : List (Former F)) :
    Determined words table former (State.start words table former) where
  command := rfl
  shell := by
    show shellProcess table = shellWith (tableAt words table .start)
    unfold tableAt
    split <;> rfl
  pipeFd := rfl
  images := rfl
  possible := trivial
  former := rfl

/-! ## Steps -/

/-- The end of a process changes no image. -/
theorem map_set_of_eq {α β : Type} {f : α → β} {l : List α} {i : Nat} {x y : α}
    (hx : l[i]? = some x) (hf : f y = f x) : (l.set i y).map f = l.map f := by
  rw [List.map_set, hf]
  apply List.ext_getElem?
  intro j
  by_cases hj : i = j
  · subst hj
    obtain ⟨hlt, heq⟩ := List.getElem?_eq_some_iff.mp hx
    rw [List.getElem?_set_self (by rw [List.length_map]; exact hlt), List.getElem?_map, hx,
      Option.map_some]
  · rw [List.getElem?_set_ne hj]

/-- The children after a fork. -/
def State.forked (s : State F) (image : Option (Image F)) : List (Child F) :=
  s.children ++ [⟨image, false⟩]

/-- The steps of the shell. -/
inductive ShellStep (s : State F) : State F → Prop where
  | empty (hphase : s.phase = .start) (hlen : s.words.length = 0) :
      ShellStep s { s with phase := .returned }
  | unpiped (hphase : s.phase = .start) (hlen : s.words.length ≠ 0)
      (hp : isPiped s.words = none) : ShellStep s { s with phase := .fork1 }
  | piped (hphase : s.phase = .start) (hlen : s.words.length ≠ 0)
      (hp : isPiped s.words ≠ none) :
      ShellStep s { s with
        phase := .fork1
        pipeFd := (pipe s.shell.table .readEnd .writeEnd).1
        shell := { s.shell with table := (pipe s.shell.table .readEnd .writeEnd).2 } }
  | background (hphase : s.phase = .fork1) (hbg : isBackground s.words = true) :
      ShellStep s { s with
        phase := .returned
        children := s.forked (firstChild s.words s.pipeFd s.shell) }
  | single (hphase : s.phase = .fork1) (hbg : isBackground s.words = false)
      (hp : isPiped s.words = none) :
      ShellStep s { s with
        phase := .wait1
        children := s.forked (firstChild s.words s.pipeFd s.shell) }
  | writer (hphase : s.phase = .fork1) (hbg : isBackground s.words = false)
      (hp : isPiped s.words ≠ none) :
      ShellStep s { s with
        phase := .fork2
        children := s.forked (firstChild s.words s.pipeFd s.shell) }
  | reader (pipeInd : Nat) (hphase : s.phase = .fork2) (hp : isPiped s.words = some pipeInd) :
      ShellStep s { s with
        phase := .close0
        children := s.forked (secondChild s.words pipeInd s.pipeFd s.shell) }
  | close0 (hphase : s.phase = .close0) :
      ShellStep s { s with
        phase := .close1
        shell := { s.shell with table := close s.shell.table s.pipeFd.1 } }
  | close1 (hphase : s.phase = .close1) :
      ShellStep s { s with
        phase := .wait1
        shell := { s.shell with table := close s.shell.table s.pipeFd.2 } }
  | wait1 (result : Option Nat) (hphase : s.phase = .wait1) (hwait : waitpid s 0 = some result)
      (hlast : isPiped s.words = none ∨ result ≠ some 0) :
      ShellStep s { s with phase := .returned }
  | both (hphase : s.phase = .wait1) (hwait : waitpid s 0 = some (some 0))
      (hp : isPiped s.words ≠ none) : ShellStep s { s with phase := .wait2 }
  | wait2 (result : Option Nat) (hphase : s.phase = .wait2) (hwait : waitpid s 1 = some result) :
      ShellStep s { s with phase := .returned }

/-- There are no other steps. -/
theorem shellStep_cases (hst : shellStep s = some t) : ShellStep s t := by
  cases hphase : s.phase with
  | start =>
    simp only [shellStep, hphase] at hst
    by_cases hlen : s.words.length = 0
    · rw [if_pos hlen] at hst
      cases hst
      exact .empty hphase hlen
    · rw [if_neg hlen] at hst
      cases hp : isPiped s.words with
      | none =>
        simp only [hp] at hst
        cases hst
        exact .unpiped hphase hlen hp
      | some i =>
        simp only [hp] at hst
        cases hst
        exact .piped hphase hlen (by simp [hp])
  | fork1 =>
    simp only [shellStep, hphase] at hst
    by_cases hbg : isBackground s.words = true
    · rw [if_pos hbg] at hst
      cases hst
      exact .background hphase hbg
    · have hfg : isBackground s.words = false := by simpa using hbg
      rw [if_neg hbg] at hst
      by_cases hp : (isPiped s.words).isSome = true
      · rw [if_pos hp] at hst
        cases hst
        exact .writer hphase hfg (Option.isSome_iff_ne_none.mp hp)
      · rw [if_neg hp] at hst
        cases hst
        exact .single hphase hfg (by simpa using hp)
  | fork2 =>
    simp only [shellStep, hphase, Option.bind_eq_bind, Option.bind_eq_some_iff] at hst
    obtain ⟨pipeInd, hp, hst⟩ := hst
    cases hst
    exact .reader pipeInd hphase hp
  | close0 =>
    simp only [shellStep, hphase] at hst
    cases hst
    exact .close0 hphase
  | close1 =>
    simp only [shellStep, hphase] at hst
    cases hst
    exact .close1 hphase
  | wait1 =>
    simp only [shellStep, hphase, Option.bind_eq_bind, Option.bind_eq_some_iff] at hst
    obtain ⟨result, hwait, hst⟩ := hst
    by_cases hp : isPiped s.words = none
    · rw [if_pos hp] at hst
      cases hst
      exact .wait1 result hphase hwait (Or.inl hp)
    · rw [if_neg hp] at hst
      by_cases hresult : result = some 0
      · subst hresult
        rw [if_pos rfl] at hst
        cases hst
        exact .both hphase hwait hp
      · rw [if_neg hresult] at hst
        cases hst
        exact .wait1 result hphase hwait (Or.inr hresult)
  | wait2 =>
    simp only [shellStep, hphase, Option.bind_eq_bind, Option.bind_eq_some_iff] at hst
    obtain ⟨result, hwait, hst⟩ := hst
    cases hst
    exact .wait2 result hphase hwait
  | returned =>
    simp only [shellStep, hphase] at hst
    cases hst

/-- Each of them can be taken. -/
theorem ShellStep.step_shell (h : ShellStep s t) : step .shell s = some t := by
  show shellStep s = some t
  cases h with
  | empty hphase hlen => simp only [shellStep, hphase, if_pos hlen]
  | unpiped hphase hlen hp => simp only [shellStep, hphase, if_neg hlen, hp]
  | piped hphase hlen hp =>
    obtain ⟨i, hi⟩ := Option.ne_none_iff_exists'.mp hp
    simp only [shellStep, hphase, if_neg hlen, hi]
  | background hphase hbg =>
    simp only [shellStep, hphase, if_pos hbg]
    rfl
  | single hphase hbg hp =>
    simp only [shellStep, hphase, hbg, hp, Bool.false_eq_true, if_false, Option.isSome_none]
    rfl
  | writer hphase hbg hp =>
    simp only [shellStep, hphase, hbg, Option.isSome_iff_ne_none.mpr hp, Bool.false_eq_true,
      if_false, if_true]
    rfl
  | reader pipeInd hphase hp =>
    simp only [shellStep, hphase, hp]
    rfl
  | close0 hphase => simp only [shellStep, hphase]
  | close1 hphase => simp only [shellStep, hphase]
  | wait1 result hphase hwait hlast =>
    simp only [shellStep, hphase, hwait, Option.bind_eq_bind, Option.bind_some]
    by_cases hp : isPiped s.words = none
    · rw [if_pos hp]
      rfl
    · rw [if_neg hp, if_neg (hlast.resolve_left hp)]
      rfl
  | both hphase hwait hp =>
    simp only [shellStep, hphase, hwait, Option.bind_eq_bind, Option.bind_some, if_neg hp, if_true]
    rfl
  | wait2 result hphase hwait =>
    simp only [shellStep, hphase, hwait, Option.bind_eq_bind, Option.bind_some]
    rfl

/-- A `return` leaves everything but the phase. -/
theorem Determined.returned (h : Determined words table former s)
    (hclosed : s.phase = .wait1 ∨ s.phase = .wait2) :
    Determined words table former { s with phase := .returned } := by
  obtain ⟨hcommand, hshell, hpipeFd, himages, hpossible, hformer⟩ := h
  have hlive : words.length ≠ 0 ∧ isBackground words = false := by
    rcases hclosed with hphase | hphase
    · rw [hphase] at hpossible
      exact hpossible
    · rw [hphase] at hpossible
      exact ⟨hpossible.1, hpossible.2.1⟩
  obtain ⟨hlen, hfg⟩ := hlive
  refine ⟨hcommand, hshell.trans ?_, hpipeFd.trans ?_, himages.trans ?_, trivial, hformer⟩
  · rcases hclosed with hphase | hphase <;>
      simp only [tableAt, hphase, hfg, Bool.false_eq_true, if_false]
  · rcases hclosed with hphase | hphase <;> rw [hphase] <;> rfl
  · rcases hclosed with hphase | hphase <;> rw [hphase] <;> exact (if_neg hlen).symm

/-- What the first fork adds, in a call that has no children yet. -/
theorem Determined.forked_first (h : Determined words table former s) (hphase : s.phase = .fork1) :
    (s.forked (firstChild s.words s.pipeFd s.shell)).map Child.image =
      [firstImage words table] := by
  have himages := h.images
  rw [hphase, imagesAt] at himages
  rw [State.forked, List.map_append, himages, h.command, h.shell, h.pipeFd, hphase]
  rfl

theorem shellStep_determined (h : Determined words table former s)
    (hst : shellStep s = some t) : Determined words table former t := by
  obtain ⟨hcommand, hshell, hpipeFd, himages, hpossible, hformer⟩ := id h
  cases shellStep_cases hst with
  | empty hphase hlen =>
    rw [hcommand] at hlen
    rw [hphase] at hshell hpipeFd himages
    have hnil : words = [] := List.length_eq_zero_iff.mp hlen
    subst hnil
    exact ⟨hcommand, hshell, hpipeFd, himages, trivial, hformer⟩
  | unpiped hphase hlen hp =>
    rw [hcommand] at hlen hp
    rw [hphase] at hshell hpipeFd himages
    refine ⟨hcommand, hshell.trans ?_, hpipeFd.trans ?_, himages, hlen, hformer⟩
    · simp only [tableAt, if_pos hp]
    · simp only [pipeFdAt, if_pos hp]
  | piped hphase hlen hp =>
    rw [hcommand] at hlen hp
    rw [hphase] at hshell himages
    have hstart : tableAt words table .start = inherit table := if_neg hp
    have htable : s.shell.table = inherit table := by
      rw [hshell, ← hstart]
      rfl
    refine ⟨hcommand, ?_, ?_, himages, hlen, hformer⟩
    · show { s.shell with table := (pipe s.shell.table .readEnd .writeEnd).2 } = _
      rw [htable, hshell]
      simp only [tableAt, if_neg hp]
      rfl
    · show (pipe s.shell.table .readEnd .writeEnd).1 = _
      rw [htable]
      simp only [pipeFdAt, if_neg hp]
      rfl
  | background hphase hbg =>
    rw [hcommand] at hbg
    rw [hphase] at hshell hpipeFd hpossible
    have hall : allImages words table = [firstImage words table] := by
      unfold allImages
      split
      · rfl
      · exact if_pos hbg
    refine ⟨hcommand, hshell.trans ?_, hpipeFd, ?_, trivial, hformer⟩
    · simp only [tableAt, hbg, if_true]
    · rw [imagesAt, if_neg hpossible, hall]
      exact h.forked_first hphase
  | single hphase hbg hp =>
    rw [hcommand] at hbg hp
    rw [hphase] at hshell hpipeFd hpossible
    refine ⟨hcommand, hshell.trans ?_, hpipeFd, ?_, ⟨hpossible, hbg⟩, hformer⟩
    · simp only [tableAt, if_pos hp]
    · rw [imagesAt, allImages, hp]
      exact h.forked_first hphase
  | writer hphase hbg hp =>
    rw [hcommand] at hbg hp
    rw [hphase] at hshell hpipeFd hpossible
    exact ⟨hcommand, hshell, hpipeFd, h.forked_first hphase, ⟨hpossible, hbg, hp⟩, hformer⟩
  | reader pipeInd hphase hp =>
    rw [hcommand] at hp
    rw [hphase] at hshell hpipeFd himages hpossible
    obtain ⟨hlen, hfg, hne⟩ := hpossible
    refine ⟨hcommand, hshell, hpipeFd, ?_, ⟨hlen, hfg, hne⟩, hformer⟩
    have htable : tableAt words table .fork2 = pipeTable table := if_neg hne
    have hfds : pipeFdAt words table .fork2 = pipeNumbers table := if_neg hne
    show (s.forked _).map Child.image = _
    rw [State.forked, List.map_append, himages, hcommand, hshell, hpipeFd, imagesAt, imagesAt,
      allImages, hp]
    simp only [hfg, Bool.false_eq_true, if_false, htable, hfds]
    rfl
  | close0 hphase =>
    rw [hphase] at hshell hpipeFd himages hpossible
    obtain ⟨hlen, hfg, hne⟩ := hpossible
    have hfds : pipeFdAt words table .close0 = pipeNumbers table := if_neg hne
    refine ⟨hcommand, ?_, hpipeFd, himages, ⟨hlen, hfg, hne⟩, hformer⟩
    rw [hpipeFd, hfds, hshell]
    simp only [tableAt, if_neg hne]
    rfl
  | close1 hphase =>
    rw [hphase] at hshell hpipeFd himages hpossible
    obtain ⟨hlen, hfg, hne⟩ := hpossible
    have hfds : pipeFdAt words table .close1 = pipeNumbers table := if_neg hne
    refine ⟨hcommand, ?_, hpipeFd, himages, ⟨hlen, hfg⟩, hformer⟩
    rw [hpipeFd, hfds, hshell]
    simp only [tableAt, if_neg hne]
    rfl
  | wait1 result hphase hwait hlast => exact h.returned (Or.inl hphase)
  | both hphase hwait hp =>
    rw [hcommand] at hp
    rw [hphase] at hshell hpipeFd himages hpossible
    obtain ⟨hlen, hfg⟩ := hpossible
    exact ⟨hcommand, hshell, hpipeFd, himages, ⟨hlen, hfg, hp⟩, hformer⟩
  | wait2 result hphase hwait => exact h.returned (Or.inr hphase)

theorem step_determined {e : Event} (h : Determined words table former s)
    (hst : step e s = some t) : Determined words table former t := by
  cases e with
  | shell => exact shellStep_determined h hst
  | terminate pid =>
    obtain ⟨c, hc, hst⟩ := Option.bind_eq_some_iff.mp hst
    cases hst
    have himages := (map_set_of_eq (f := Child.image) (y := ⟨c.image, true⟩) hc rfl).trans h.images
    exact ⟨h.command, h.shell, h.pipeFd, himages, h.possible, h.former⟩
  | terminateFormer i =>
    obtain ⟨c, hc, hst⟩ := Option.bind_eq_some_iff.mp hst
    cases hst
    have hformer := (map_set_of_eq (f := Former.table) (y := ⟨c.table, true⟩) hc rfl).trans h.former
    exact ⟨h.command, h.shell, h.pipeFd, h.images, h.possible, hformer⟩

/-- **Every reached state** is determined by its phase. -/
theorem Reachable.determined (h : Reachable words table former s) :
    Determined words table former s :=
  Runs.Reaches.invariant h (start_determined words table former)
    fun _ _ _ hd _ hst => step_determined hd hst

end OsHw.Hw2
