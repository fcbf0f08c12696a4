import OsHw.Hw4.Correct

/-!
# OsHw — what the XOR programs leave behind when they are stopped

A system call that fails ends the whole process by `exit(2)`, wherever the other threads are; so
does the return of `main`, which `main.c` can reach while workers are still running. What is in the
output file then is what was written so far.

* **`writtenBefore`** — the bytes that the loop of `writeToOutputFileAndCleanBuffer` of `hw4.c` has
  written when one of its calls fails.
* **`failWrite`** — the output file after the `exit(2)` of a worker whose `write` fails.
* **`prefix_of_stopped`** — whenever and however `hw4` is stopped, its output file holds a prefix of
  the XOR of the inputs.
* **`mainC_leaves`** — `main.c` makes one `write` for a level and goes on when it is short, so its
  output file holds a prefix of each level.
-/

namespace OsHw.Hw4

open Runs

variable {p : Program} {inputs : List (List UInt8)} {s : State} {g : Globals} {w : Worker}
  {short : Nat → Nat} {calls i : Nat} {out : List UInt8}

/-- The XOR of the inputs, as long as the longest one. -/
def xorFile (inputs : List (List UInt8)) : List UInt8 :=
  (List.range (maxLength inputs)).map (xorOfLonger inputs)

/-! ## A failing `write` -/

/-- What `calls` successful calls of the loop have written, from call number `call` on; the next
one returns -1. -/
def writtenFrom (short : Nat → Nat) : Nat → Nat → List UInt8 → List UInt8
  | 0, _, _ => []
  | calls + 1, call, bytes =>
    let n := Transfer.moved (short call) bytes.length bytes.length
    bytes.take n ++ writtenFrom short calls (call + 1) (bytes.drop n)

def writtenBefore (short : Nat → Nat) (calls : Nat) (bytes : List UInt8) : List UInt8 :=
  writtenFrom short calls 0 bytes

/-- The loop writes from the front. Induction on the calls. -/
theorem prefix_writtenFrom (short : Nat → Nat) (calls call : Nat) (bytes : List UInt8) :
    writtenFrom short calls call bytes <+: bytes := by
  induction calls generalizing call bytes with
  | zero => exact List.nil_prefix
  | succ calls ih =>
    have hrest := ih (call + 1) (bytes.drop (Transfer.moved (short call) bytes.length bytes.length))
    obtain ⟨rest, hrest⟩ := hrest
    refine ⟨rest, ?_⟩
    rw [writtenFrom, List.append_assoc, hrest, List.take_append_drop]

/-- The output file when a call of the loop fails. -/
def failFlush (short : Nat → Nat) (calls : Nat) (g : Globals) : List UInt8 :=
  g.output ++ writtenBefore short calls (levelBytes g)

/-- The output file of `hw4` after the `exit(2)` of worker `i`, if its next action writes a level and
call number `calls` of the loop fails. -/
def failWrite (i : Nat) (short : Nat → Nat) (calls : Nat) (s : State) : Option (List UInt8) := do
  let w ← s.workers[i]?
  let g := s.globals
  match w.phase with
  | .countLock =>
    if g.workersDone + 1 = g.numThreads then some (failFlush short calls (counted g w)) else none
  | .retireLock =>
    if w.currentLevel ≠ g.level then none
    else if g.workersDone ≠ g.numThreads - 1 then none
    else some (failFlush short calls (retired g))
  | .retireWait true =>
    if g.workersDone ≠ g.numThreads - 1 then none
    else some (failFlush short calls (retired g))
  | _ => none

/-- A worker whose `write` can fail is one that would have closed the level. -/
theorem failWrite_acts (h : failWrite i short calls s = some out) :
    ∃ pre post w w' g, s.workers = pre ++ w :: post ∧
      Acts hw4 s.globals w (flushed hw4 (levelBytes g) g) w' true ∧
      out = failFlush short calls g := by
  have hwrites : ∀ g, hw4.Writes g (levelBytes g) := fun g =>
    ⟨fun _ => 1, writeLoop_eq _ (levelBytes g)⟩
  obtain ⟨w, hw, h⟩ := Option.bind_eq_some_iff.mp h
  obtain ⟨pre, post, -, hsplit, -⟩ := Family.exists_split hw
  dsimp only at h
  split at h
  · next hph =>
    split at h
    · next heq =>
      cases h
      exact ⟨pre, post, w, _, _, hsplit, .countFlush hph heq (hwrites _), rfl⟩
    · cases h
  · next hph =>
    split at h
    · cases h
    · next hlevel =>
      split at h
      · cases h
      · next heq =>
        cases h
        exact ⟨pre, post, w, _, _, hsplit,
          .retireFlush (.inl ⟨hph, not_not.mp hlevel⟩) (not_not.mp heq) (hwrites _), rfl⟩
  · next hph =>
    split at h
    · cases h
    · next heq =>
      cases h
      exact ⟨pre, post, w, _, _, hsplit,
        .retireFlush (.inr hph) (not_not.mp heq) (hwrites _), rfl⟩
  · cases h

/-! ## Prefixes -/

theorem xorFile_eq (inputs : List (List UInt8)) :
    xorFile inputs = (List.range (maxLength inputs)).map (xorAt inputs) :=
  congrArg (List.map · _) (funext fun p => xorOfLonger_eq inputs p)

/-- Whole levels are the first ones of the XOR. -/
theorem Written.prefix_xorFile (h : Written Eq inputs g) : g.output <+: xorFile inputs := by
  rw [h.whole, xorFile_eq, ← List.take_range]
  exact (List.take_prefix _ _).map _

/-- A level that is written in part is a prefix of the level. -/
theorem prefix_failFlush (short : Nat → Nat) (calls : Nat) (g : Globals) :
    failFlush short calls g <+: (flushed hw4 (levelBytes g) g).output :=
  List.prefix_append_right_inj _ |>.mpr (prefix_writtenFrom short calls 0 (levelBytes g))

/-- **Whatever stops `hw4` leaves a prefix.** In every reachable state the output file holds a
prefix of the XOR of the inputs: that is what is left when another system call fails. And a failing
`write` leaves such a prefix as well. -/
theorem prefix_of_stopped (h : Reachable hw4 inputs s) :
    s.globals.output <+: xorFile inputs ∧
      ∀ i short calls out, failWrite i short calls s = some out → out <+: xorFile inputs := by
  have hinv := reachable_inv h
  have hwritten := reachable_written (fun _ _ => hw4_writes) h
  refine ⟨hwritten.prefix_xorFile, fun i short calls out hfail => ?_⟩
  obtain ⟨pre, post, w, w', g, hs, hact, rfl⟩ := failWrite_acts hfail
  have hdis := hinv.disciplined
  have hmix := hinv.mixing
  rw [hs] at hdis hmix
  -- had the call not failed, the file would hold the whole level
  have hflush := acts_written (fun _ _ => hw4_writes) hdis hmix hwritten hact
  exact (prefix_failFlush short calls g).trans hflush.prefix_xorFile

/-- Two inputs: the worker that closes the level fails after the first byte. -/
theorem stopped_after_byte : ∃ s out, Reachable hw4 [[1, 2], [4]] s ∧
    failWrite 1 (fun _ => 1) 1 s = some out ∧ out = [5] ∧ out <+: xorFile [[1, 2], [4]] := by
  let worker i : Event := .worker i fun _ => 1
  let events : List Event := List.replicate 5 .main ++
    [worker 0, worker 1, worker 0, worker 1, worker 0]
  obtain ⟨s, hs⟩ : ∃ s, run (step hw4) events (init [[1, 2], [4]]) = some s :=
    Option.isSome_iff_exists.mp (by decide)
  have hreach : Reachable hw4 [[1, 2], [4]] s :=
    reaches_of_run (by simp [events, worker, Event.Proper]) hs
  have hfail : failWrite 1 (fun _ => 1) 1 s = some [5] := by
    have hall : (run (step hw4) events (init [[1, 2], [4]])).bind
        (failWrite 1 (fun _ => 1) 1) = some [5] := by decide
    rw [hs] at hall
    exact hall
  exact ⟨s, [5], hreach, hfail, rfl, (prefix_of_stopped hreach).2 1 _ 1 [5] hfail⟩

/-! ## What `main.c` leaves -/

/-- A level is a window of the XOR. -/
theorem xorBlock_eq (inputs : List (List UInt8)) (l : Nat) :
    xorBlock inputs l = block (xorFile inputs) l := by
  apply List.ext_getElem?
  intro q
  by_cases hq : q < BUFFER_SIZE
  · rw [block_getElem? _ _ hq, xorBlock, xorFile_eq]
    by_cases hlt : l * BUFFER_SIZE + q < maxLength inputs
    · rw [List.getElem?_map, List.getElem?_map, List.getElem?_range hlt,
        List.getElem?_range (by omega)]
      rfl
    · rw [List.getElem?_eq_none (by simp; omega), List.getElem?_eq_none (by simp; omega)]
  · have hlength : (block (xorFile inputs) l).length ≤ BUFFER_SIZE := by
      rw [block_length]
      exact Nat.min_le_left _ _
    rw [List.getElem?_eq_none (by simp [xorBlock]; omega), List.getElem?_eq_none (by omega)]

/-- Whole blocks, and a prefix of the next one. Induction on the number of whole ones. -/
theorem prefix_of_blocks (content : List UInt8) : ∀ (pieces : List (List UInt8)) (last : List UInt8),
    (∀ l piece, pieces[l]? = some piece → piece = block content l) →
    last <+: block content pieces.length → (pieces ++ [last]).flatten <+: content
  | [], last, _, hlast => by
    have hfirst : block content 0 <+: content := by
      rw [block, Nat.zero_mul, List.drop_zero]
      exact content.take_prefix _
    simpa using hlast.trans hfirst
  | piece :: pieces, last, hpieces, hlast => by
    have hshift : ∀ l, block (content.drop BUFFER_SIZE) l = block content (l + 1) := by
      intro l
      rw [block, block, List.drop_drop, Nat.succ_mul, Nat.add_comm]
    have hfirst : piece = content.take BUFFER_SIZE := by
      have hzero := hpieces 0 piece rfl
      rwa [block, Nat.zero_mul, List.drop_zero] at hzero
    have hrest : (pieces ++ [last]).flatten <+: content.drop BUFFER_SIZE := by
      refine prefix_of_blocks (content.drop BUFFER_SIZE) pieces last (fun l q hq => ?_) ?_
      · rw [hshift]
        exact hpieces (l + 1) q hq
      · rw [hshift]
        exact hlast
    rw [List.cons_append, List.flatten_cons, hfirst]
    obtain ⟨rest, hrest⟩ := hrest
    refine ⟨rest, ?_⟩
    rw [List.append_assoc, hrest, List.take_append_drop]

/-- **What `main.c` leaves.** In every reachable state its output file has, for each level that was
closed, a prefix of this level of the XOR, one behind the other. It is a prefix of the XOR as long
as no level but the last one is cut off; behind a level that is, the bytes come too early. -/
theorem mainC_leaves (h : Reachable mainC inputs s) :
    ∃ pieces : List (List UInt8), s.globals.output = pieces.flatten ∧
      pieces.length = s.globals.level ∧
      (∀ l piece, pieces[l]? = some piece → piece <+: block (xorFile inputs) l) ∧
      ((∀ l piece, l + 1 < pieces.length → pieces[l]? = some piece →
          piece = block (xorFile inputs) l) → s.globals.output <+: xorFile inputs) := by
  obtain ⟨pieces, houtput, hlength, hpieces⟩ :=
    reachable_written (R := (· <+: ·)) (fun _ _ => Program.Writes.isPrefix) h
  have hprefix : ∀ l piece, pieces[l]? = some piece → piece <+: block (xorFile inputs) l := by
    intro l piece hget
    rw [← xorBlock_eq]
    exact hpieces l piece hget
  refine ⟨pieces, houtput, hlength, hprefix, fun hwhole => ?_⟩
  rw [houtput]
  rcases List.eq_nil_or_concat pieces with rfl | ⟨front, last, rfl⟩
  · exact List.nil_prefix
  · rw [List.concat_eq_append] at hwhole hprefix ⊢
    refine prefix_of_blocks _ front last (fun l piece hget => ?_) ?_
    · obtain ⟨hlt, -⟩ := List.getElem?_eq_some_iff.mp hget
      refine hwhole l piece (by simpa using hlt) ?_
      rw [List.getElem?_append_left hlt]
      exact hget
    · exact hprefix front.length last List.getElem?_concat_length

/-- Two inputs: the `write` of the only level moves one byte, and the other one is lost. -/
theorem mainC_leaves_byte : ∃ s, Reachable mainC [[1, 2], [4]] s ∧ s.globals.level = 1 ∧
    s.globals.output = [5] ∧ s.globals.output <+: xorFile [[1, 2], [4]] := by
  let worker i : Event := .worker i fun _ => 1
  let events : List Event := List.replicate 5 .main ++
    [worker 0, worker 1, worker 0, worker 1, worker 0, worker 1]
  obtain ⟨s, hs⟩ : ∃ s, run (step mainC) events (init [[1, 2], [4]]) = some s :=
    Option.isSome_iff_exists.mp (by decide)
  have hreach : Reachable mainC [[1, 2], [4]] s :=
    reaches_of_run (by simp [events, worker, Event.Proper]) hs
  have hview : s.globals.level = 1 ∧ s.globals.output = [5] := by
    have hall : (run (step mainC) events (init [[1, 2], [4]])).map
        (fun s => (s.globals.level, s.globals.output)) = some (1, [5]) := by decide
    rw [hs] at hall
    simpa using hall
  obtain ⟨pieces, -, hlength, -, hprefix⟩ := mainC_leaves hreach
  refine ⟨s, hreach, hview.1, hview.2, hprefix fun l piece hlt _ => ?_⟩
  omega

end OsHw.Hw4
