import OsHw.Hw4.Discipline

/-!
# OsHw — what the XOR workers write

The data half of the barrier. `block content l` is what a worker reads as its block number
`l`; **`Mixing`** ties the shared buffer to it:

* `outputBuffer` is the XOR of block `level` over the workers that have XORed it, and
  `lengthToWrite` the longest such block over the workers that were also counted.

When a level is closed every worker has contributed to it or has no bytes there, so the buffer
holds block `level` of the XOR of all inputs and its length is the length of that block
(`Mixing.complete`). **`Written`** is what this comes to in the output file: one piece for each
level that was closed, related to the block of the level by what the program's `write` does.
-/

namespace OsHw.Hw4

open Family

/-! ## The XOR of files -/

/-- Block number `l` of a file. -/
def block (content : List UInt8) (l : Nat) : List UInt8 :=
  (content.drop (l * BUFFER_SIZE)).take BUFFER_SIZE

/-- The length of the longest input. -/
def maxLength (inputs : List (List UInt8)) : Nat := fold max 0 List.length inputs

/-- The XOR of byte `p` of the inputs; an input that ends before `p` counts as zero there. -/
def xorAt (inputs : List (List UInt8)) (p : Nat) : UInt8 :=
  fold (· ^^^ ·) 0 (fun content => content[p]?.getD 0) inputs

/-- Block number `l` of the XOR. -/
def xorBlock (inputs : List (List UInt8)) (l : Nat) : List UInt8 :=
  (List.range (min BUFFER_SIZE (maxLength inputs - l * BUFFER_SIZE))).map fun q =>
    xorAt inputs (l * BUFFER_SIZE + q)

instance xorCommutative : Std.Commutative (α := UInt8) (· ^^^ ·) := ⟨UInt8.xor_comm⟩

instance xorAssociative : Std.Associative (α := UInt8) (· ^^^ ·) := ⟨UInt8.xor_assoc⟩

theorem block_length (content : List UInt8) (l : Nat) :
    (block content l).length = min BUFFER_SIZE (content.length - l * BUFFER_SIZE) := by
  simp [block]

theorem block_getElem? (content : List UInt8) (l : Nat) {p : Nat} (hp : p < BUFFER_SIZE) :
    (block content l)[p]? = content[l * BUFFER_SIZE + p]? := by
  rw [block, List.getElem?_take_of_lt hp, List.getElem?_drop]

theorem block_eq_nil {content : List UInt8} {l : Nat} (h : content.length ≤ l * BUFFER_SIZE) :
    block content l = [] := by
  rw [block, List.drop_eq_nil_of_le h, List.take_nil]

/-- Cutting every input down to a window cuts the longest one down. The bounds are variables
here: on `BUFFER_SIZE` itself the kernel would evaluate them. -/
theorem fold_window_length (bound k : Nat) (inputs : List (List UInt8)) :
    fold max 0 (fun content => min bound (content.length - k)) inputs
      = min bound (maxLength inputs - k) := by
  induction inputs with
  | nil => simp [maxLength]
  | cons content inputs ih =>
    simp only [maxLength, fold_cons] at ih ⊢
    omega

/-- The longest block number `l` is as long as block `l` of a file of maximal length. -/
theorem fold_block_length (inputs : List (List UInt8)) (l : Nat) :
    fold max 0 (fun content => (block content l).length) inputs
      = min BUFFER_SIZE (maxLength inputs - l * BUFFER_SIZE) := by
  rw [← fold_window_length]
  exact fold_congr fun content _ => block_length content l

theorem fold_block_byte (inputs : List (List UInt8)) (l : Nat) {p : Nat}
    (hp : p < BUFFER_SIZE) :
    fold (· ^^^ ·) 0 (fun content => (block content l)[p]?.getD 0) inputs
      = xorAt inputs (l * BUFFER_SIZE + p) := by
  unfold xorAt
  exact fold_congr fun content _ => by rw [block_getElem? content l hp]

/-! ## The invariant -/

/-- What a worker holds of its file. -/
def Worker.Reads (w : Worker) : Prop :=
  match w.phase with
  | .unborn | .reading => w.unread = w.content.drop (w.currentLevel * BUFFER_SIZE)
  | .xorLock | .xorWait _ | .countLock =>
    w.buff = block w.content w.currentLevel ∧
      w.unread = w.content.drop ((w.currentLevel + 1) * BUFFER_SIZE)
  | .retireLock | .retireWait _ | .exiting | .terminated =>
    w.content.length ≤ w.currentLevel * BUFFER_SIZE

/-- `w` has XORed its block number `level` into the buffer. -/
def Worker.mixedAt (level : Nat) (w : Worker) : Bool :=
  decide (w.phase = .countLock) || w.doneAt level

/-- The byte at `p` that `w` has contributed to the buffer. -/
def Worker.mixedByte (level p : Nat) (w : Worker) : UInt8 :=
  if w.mixedAt level then (block w.content level)[p]?.getD 0 else 0

/-- The length that `w` has contributed to `lengthToWrite`. -/
def Worker.doneLength (level : Nat) (w : Worker) : Nat :=
  if w.doneAt level then (block w.content level).length else 0

/-- The data invariant of the barrier. -/
structure Mixing (inputs : List (List UInt8)) (g : Globals) (ws : List Worker) : Prop where
  contents : ws.map Worker.content = inputs
  reads : ∀ w ∈ ws, w.Reads
  buffer : ∀ p, p < BUFFER_SIZE →
    g.outputBuffer p = fold (· ^^^ ·) 0 (Worker.mixedByte g.level p) ws
  length : g.lengthToWrite = fold max 0 (Worker.doneLength g.level) ws

/-- The output file has one piece for each closed level, and `R` relates it to the block of the
level. -/
def Written (R : List UInt8 → List UInt8 → Prop) (inputs : List (List UInt8)) (g : Globals) :
    Prop :=
  ∃ pieces : List (List UInt8), g.output = pieces.flatten ∧ pieces.length = g.level ∧
    ∀ l piece, pieces[l]? = some piece → R piece (xorBlock inputs l)

theorem Worker.Reads.wake {w : Worker} (h : w.Reads) : w.wake.Reads := by
  cases hph : w.phase <;> simpa [Reads, Worker.wake, hph] using h

/-! ## Keeping the data -/

section
variable {p : Program} {inputs : List (List UInt8)} {g g' : Globals}
variable {pre post : List Worker} {w w' : Worker}

/-- Replacing `w` by `w'` without closing the level: the buffer and the length move with the
contribution of the worker. -/
theorem Mixing.recount (h : Mixing inputs g (pre ++ w :: post)) (hl : g'.level = g.level)
    (hc : w'.content = w.content) (hw' : w'.Reads)
    (hbuf : ∀ p, p < BUFFER_SIZE → ∀ x,
      g.outputBuffer p = w.mixedByte g.level p ^^^ x →
        g'.outputBuffer p = w'.mixedByte g.level p ^^^ x)
    (hlen : ∀ x, g.lengthToWrite = max (w.doneLength g.level) x →
      g'.lengthToWrite = max (w'.doneLength g.level) x) :
    Mixing inputs g' (pre ++ w' :: post) := by
  refine ⟨?_, forall_replace h.reads hw', ?_, ?_⟩
  · rw [← h.contents]
    simp [hc]
  · intro p hp
    rw [hl, fold_middle]
    refine hbuf p hp _ ?_
    rw [h.buffer p hp, fold_middle]
  · rw [hl, fold_middle]
    refine hlen _ ?_
    rw [h.length, fold_middle]

/-- An action that contributes nothing keeps the data. -/
theorem Mixing.replace (h : Mixing inputs g (pre ++ w :: post)) (hl : g'.level = g.level)
    (hb : g'.outputBuffer = g.outputBuffer)
    (hn : g'.lengthToWrite = g.lengthToWrite) (hc : w'.content = w.content)
    (hm : w'.mixedAt g.level = w.mixedAt g.level)
    (hd : w'.doneAt g.level = w.doneAt g.level) (hw' : w'.Reads) :
    Mixing inputs g' (pre ++ w' :: post) := by
  refine h.recount hl hc hw' ?_ ?_
  · intro p _ x hx
    rw [hb, hx]
    simp [Worker.mixedByte, hm, hc]
  · intro x hx
    rw [hn, hx]
    simp [Worker.doneLength, hd, hc]

/-- So does one that leaves the globals, the level of the worker and whether it is active. -/
theorem Mixing.still (h : Mixing inputs g (pre ++ w :: post)) (hc : w'.content = w.content)
    (hcl : w'.currentLevel = w.currentLevel) (hactive : w'.active = w.active)
    (hph : w.phase ≠ .countLock) (hph' : w'.phase ≠ .countLock) (hw' : w'.Reads) :
    Mixing inputs g (pre ++ w' :: post) := by
  have hdone : w'.doneAt g.level = w.doneAt g.level := by
    rw [Worker.doneAt, Worker.doneAt, hcl, hactive]
  refine h.replace rfl rfl rfl hc ?_ hdone hw'
  rw [Worker.mixedAt, Worker.mixedAt, hdone, decide_eq_false hph, decide_eq_false hph']

/-- When everyone is done with the level, the contribution of a worker is its whole block. -/
theorem Mixing.whole {ws : List Worker} (h : Mixing inputs g ws)
    (hlev : ∀ v ∈ ws, v.InLevel g.level)
    (hdone : ∀ v ∈ ws, v.active → v.currentLevel = g.level + 1) :
    ∀ v ∈ ws, v.doneAt g.level ∨ block v.content g.level = [] := by
  intro v hv
  by_cases hact : v.active
  · exact .inl (by simp [Worker.doneAt, hact, hdone v hv hact])
  · have hread := h.reads v hv
    have hle := hlev v hv
    cases hph : v.phase <;> simp [Worker.active, hph] at hact <;>
      simp only [Worker.Reads, Worker.InLevel, hph] at hread hle <;>
      exact .inr (block_eq_nil (Nat.le_trans hread (Nat.mul_le_mul_right _ hle)))

/-- Then the buffer and the length are those of the block of the XOR. -/
theorem Mixing.complete {ws : List Worker} (h : Mixing inputs g ws)
    (hwhole : ∀ v ∈ ws, v.doneAt g.level ∨ block v.content g.level = []) :
    g.lengthToWrite = min BUFFER_SIZE (maxLength inputs - g.level * BUFFER_SIZE) ∧
      ∀ q, q < BUFFER_SIZE → g.outputBuffer q = xorAt inputs (g.level * BUFFER_SIZE + q) := by
  constructor
  · rw [h.length, ← fold_block_length, ← h.contents, fold_map]
    refine fold_congr fun v hv => ?_
    rcases hwhole v hv with hd | hnil
    · simp [Worker.doneLength, hd]
    · simp [Worker.doneLength, hnil]
  · intro q hq
    rw [h.buffer q hq, ← fold_block_byte inputs g.level hq, ← h.contents, fold_map]
    refine fold_congr fun v hv => ?_
    rcases hwhole v hv with hd | hnil
    · simp [Worker.mixedByte, Worker.mixedAt, hd]
    · simp [Worker.mixedByte, hnil]

/-- Nobody has touched the next level yet. -/
theorem fresh_of_done {ws : List Worker} (hlev : ∀ v ∈ ws, v.InLevel g.level)
    (hdone : ∀ v ∈ ws, v.active → v.currentLevel = g.level + 1) :
    ∀ v ∈ ws, v.wake.mixedAt (g.level + 1) = false := by
  intro v hv
  have hne : v.phase ≠ .countLock := by
    intro hph
    have hle := hlev v hv
    have := hdone v hv (by simp [Worker.active, hph])
    simp only [Worker.InLevel, hph] at hle
    omega
  have hnot : v.doneAt (g.level + 1) = false := by
    by_cases hact : v.active
    · simp [Worker.doneAt, hdone v hv hact]
    · simp [Worker.doneAt, hact]
  simp [Worker.mixedAt, hne, hnot]

/-- A window of a sequence behind what was written of it. -/
theorem map_range_append (f : Nat → UInt8) (start size length : Nat) :
    (List.range (min start length)).map f ++
        (List.range (min size (length - start))).map (fun q => f (start + q)) =
      (List.range (min (start + size) length)).map f := by
  rcases Nat.le_total start length with hle | hle
  · have hsum : min (start + size) length = start + min size (length - start) := by omega
    rw [Nat.min_eq_left hle, hsum, List.range_add, List.map_append, List.map_map]
    rfl
  · have hnext : length ≤ start + size := by omega
    rw [Nat.min_eq_right hle, Nat.min_eq_right hnext, Nat.sub_eq_zero_of_le hle]
    simp

/-- **A level that everyone is done with is block `level` of the XOR of the inputs.** Every worker
that has not retired is done with the level; a retired one has no bytes in it. -/
theorem Mixing.levelBytes_eq {ws : List Worker} (h : Mixing inputs g ws)
    (hlev : ∀ v ∈ ws, v.InLevel g.level)
    (hdone : ∀ v ∈ ws, v.active → v.currentLevel = g.level + 1) :
    levelBytes g = xorBlock inputs g.level := by
  obtain ⟨hlength, hbyte⟩ := h.complete (h.whole hlev hdone)
  rw [levelBytes, xorBlock, ← hlength]
  refine List.map_congr_left fun q hq => hbyte q ?_
  have := List.mem_range.mp hq
  omega

/-- The level behind it is a fresh one. -/
theorem Mixing.flush {out : List UInt8} {ws : List Worker} (h : Mixing inputs g ws)
    (hlev : ∀ v ∈ ws, v.InLevel g.level)
    (hdone : ∀ v ∈ ws, v.active → v.currentLevel = g.level + 1) :
    Mixing inputs (flushed p out g) (ws.map Worker.wake) := by
  have hfresh := fresh_of_done hlev hdone
  refine ⟨?_, ?_, ?_, ?_⟩
  · rw [← h.contents]
    simp
  · intro v hv
    obtain ⟨u, hu, rfl⟩ := List.mem_map.mp hv
    exact (h.reads u hu).wake
  · intro q hq
    simp only [flushed, if_pos hq, fold_map]
    refine (fold_eq_unit (UInt8.xor_self) fun v hv => ?_).symm
    simp [Worker.mixedByte, hfresh v hv]
  · simp only [flushed, fold_map]
    refine (fold_eq_unit (Nat.max_self 0) fun v hv => ?_).symm
    have hnot := hfresh v hv
    simp only [Worker.mixedAt, Bool.or_eq_false_iff] at hnot
    simp [Worker.doneLength, hnot.2]

/-- No worker contributes more than a block. -/
theorem Mixing.length_le {ws : List Worker} (h : Mixing inputs g ws) :
    g.lengthToWrite ≤ BUFFER_SIZE := by
  rw [h.length]
  clear h
  induction ws with
  | nil => exact Nat.zero_le _
  | cons v ws ih =>
    rw [fold_cons]
    refine Nat.max_le.mpr ⟨?_, ih⟩
    unfold Worker.doneLength
    split
    · rw [block_length]
      exact Nat.min_le_left _ _
    · exact Nat.zero_le _

/-- The counting section of `xorAndWrite`, before a possible flush. -/
theorem Mixing.count (h : Mixing inputs g (pre ++ w :: post))
    (hdis : Disciplined g (pre ++ w :: post)) (hph : w.phase = .countLock) :
    Mixing inputs (counted g w)
      (pre ++ { w with currentLevel := w.currentLevel + 1, phase := .reading } :: post) := by
  have hw : w.InLevel g.level := hdis.levels w (by simp)
  have hread : w.Reads := h.reads w (by simp)
  simp only [Worker.Reads, hph] at hread
  have hcl : w.currentLevel = g.level := by simpa [Worker.InLevel, hph] using hw
  refine h.recount rfl rfl hread.2 ?_ ?_
  · intro q _ x hx
    simpa [counted, Worker.mixedByte, Worker.mixedAt, Worker.doneAt, Worker.active, hph, hcl]
      using hx
  · intro x hx
    have hx' : g.lengthToWrite = x := by
      simpa [Worker.doneLength, Worker.doneAt, hcl] using hx
    have hlen : w.buff.length = (block w.content g.level).length := by rw [hread.1, hcl]
    simp only [counted, Worker.doneLength, Worker.doneAt, Worker.active, hcl, hlen, hx']
    simp only [beq_self_eq_true, Bool.and_true, if_true]
    split <;> omega

/-- The retiring section of `workerMain`, before a possible flush. -/
theorem Mixing.retire (h : Mixing inputs g (pre ++ w :: post))
    (hdis : Disciplined g (pre ++ w :: post)) (hat : w.AtRetire g.level) :
    Mixing inputs (retired g) (pre ++ { w with phase := .exiting } :: post) := by
  have hcl := hat.inLevel (hdis.levels w (by simp))
  have hread : w.Reads := h.reads w (by simp)
  have hnd : w.doneAt g.level = false := by simp [Worker.doneAt, hcl]
  refine h.replace rfl rfl rfl rfl ?_ ?_ ?_
  · rcases hat with ⟨hph, -⟩ | hph <;>
      simp [Worker.mixedAt, hph, Worker.doneAt, Worker.active, hcl]
  · rw [hnd]
    rfl
  · rcases hat with ⟨hph, -⟩ | hph <;> simpa [Worker.Reads, hph] using hread

/-- The worker that broadcasts has closed a level with which everyone is done. -/
theorem acts_closing (hdis : Disciplined g (pre ++ w :: post))
    (h : Mixing inputs g (pre ++ w :: post)) (hact : Acts p g w g' w' true) :
    ∃ g₁ out, p.Writes g₁ out ∧ g' = flushed p out g₁ ∧ g₁.output = g.output ∧
      g₁.level = g.level ∧ Mixing inputs g₁ (pre ++ w' :: post) ∧
      (∀ v ∈ pre ++ w' :: post, v.InLevel g₁.level) ∧
      ∀ v ∈ pre ++ w' :: post, v.active → v.currentLevel = g₁.level + 1 := by
  have hw : w.InLevel g.level := hdis.levels w (by simp)
  have hlev : w'.InLevel g.level → ∀ v ∈ pre ++ w' :: post, v.InLevel g.level :=
    forall_replace hdis.levels
  -- when the last worker of a level flushes, everyone is ahead of it
  have hahead : w.active → w.currentLevel = g.level → g.workersDone + 1 = g.numThreads →
      (w'.active → w'.currentLevel = g.level + 1) →
      ∀ v ∈ pre ++ w' :: post, v.active → v.currentLevel = g.level + 1 := by
    intro hwa hcl heq hw'
    exact forall_middle.mpr ⟨hw', hdis.others_done hwa hcl heq⟩
  cases hact with
  | countFlush hph heq hout =>
    have hcl : w.currentLevel = g.level := by simpa [Worker.InLevel, hph] using hw
    refine ⟨_, _, hout, rfl, rfl, rfl, h.count hdis hph, hlev ?_, ?_⟩
    · exact .inr (by simp [hcl])
    · exact hahead (by simp [Worker.active, hph]) hcl heq fun _ => by simp [hcl]
  | retireFlush hat heq hout =>
    have hcl := hat.inLevel hw
    refine ⟨_, _, hout, rfl, rfl, rfl, h.retire hdis hat, hlev ?_, ?_⟩
    · exact Nat.le_of_eq hcl
    · exact hahead hat.active hcl (by omega) fun hoff => absurd hoff (by simp [Worker.active])

/-- **Every action of a worker keeps the data.** One case per action. -/
theorem acts_mixing {b : Bool} (hdis : Disciplined g (pre ++ w :: post))
    (h : Mixing inputs g (pre ++ w :: post)) (hact : Acts p g w g' w' b) :
    Mixing inputs g' (wakeIf b (pre ++ w' :: post)) := by
  have hw : w.InLevel g.level := hdis.levels w (by simp)
  have hread : w.Reads := h.reads w (by simp)
  cases b with
  | true =>
    obtain ⟨g₁, out, -, rfl, -, -, hmix, hlev, hdone⟩ := acts_closing hdis h hact
    exact hmix.flush hlev hdone
  | false =>
    cases hact with
    | read hph hne =>
      simp only [Worker.Reads, hph] at hread
      refine h.still rfl rfl (by simp [Worker.active, hph]) (by simp [hph]) (by simp) ⟨?_, ?_⟩
      · rw [hread]
        rfl
      · rw [hread, List.drop_drop, Nat.succ_mul]
    | eof hph hnil =>
      simp only [Worker.Reads, hph, hnil] at hread
      refine h.still rfl rfl (by simp [Worker.active, hph]) (by simp [hph]) (by simp) ?_
      exact List.drop_eq_nil_iff.mp hread.symm
    | xorSleep hph hne =>
      simp only [Worker.Reads, hph] at hread
      exact h.still rfl rfl (by simp [Worker.active, hph]) (by simp [hph]) (by simp) hread
    | retireSleep hph hne =>
      simp only [Worker.Reads, hph] at hread
      exact h.still rfl rfl (by simp [Worker.active, hph]) (by simp [hph]) (by simp) hread
    | exit hph =>
      simp only [Worker.Reads, hph] at hread
      exact h.still rfl rfl (by simp [Worker.active, hph]) (by simp [hph]) (by simp) hread
    | xor hat =>
      have hcl := hat.inLevel hw
      have hnd : w.doneAt g.level = false := by simp [Worker.doneAt, hcl]
      have hmixed : w.mixedAt g.level = false := by
        rcases hat with ⟨hph, -⟩ | hph <;> simp [Worker.mixedAt, hph, hnd]
      have hbuff : w.buff = block w.content g.level ∧
          w.unread = w.content.drop ((w.currentLevel + 1) * BUFFER_SIZE) := by
        rcases hat with ⟨hph, -⟩ | hph <;> simpa [Worker.Reads, hph, hcl] using hread
      refine h.recount rfl rfl ?_ ?_ ?_
      · simpa [Worker.Reads, hcl] using hbuff
      -- the byte of this worker enters the fold with the block
      · intro q _ x hx
        have hx' : g.outputBuffer q = x := by simpa [Worker.mixedByte, hmixed] using hx
        simp only [xorBuffer, Worker.mixedByte, Worker.mixedAt, hbuff.1, hx']
        cases (block w.content g.level)[q]? with
        | none => simp
        | some c => simp [UInt8.xor_comm]
      · intro x hx
        simpa [Worker.doneLength, hnd, Worker.doneAt, hcl] using hx
    | count hph hne =>
      exact h.count hdis hph
    | retire hat hne =>
      exact h.retire hdis hat

/-- **What is in the output file.** A level that is closed adds its piece. -/
theorem acts_written {R : List UInt8 → List UInt8 → Prop} {b : Bool}
    (hR : ∀ g out, p.Writes g out → R out (levelBytes g))
    (hdis : Disciplined g (pre ++ w :: post)) (h : Mixing inputs g (pre ++ w :: post))
    (hwritten : Written R inputs g) (hact : Acts p g w g' w' b) : Written R inputs g' := by
  cases b with
  | false =>
    have hsame : g'.output = g.output ∧ g'.level = g.level := by
      cases hact <;> exact ⟨rfl, rfl⟩
    rw [Written, hsame.1, hsame.2]
    exact hwritten
  | true =>
    obtain ⟨g₁, out, hout, rfl, hsame, hlevel, hmix, hlev, hdone⟩ := acts_closing hdis h hact
    have hpiece := hR g₁ out hout
    rw [hmix.levelBytes_eq hlev hdone, hlevel] at hpiece
    obtain ⟨pieces, houtput, hlength, hpieces⟩ := hwritten
    refine ⟨pieces ++ [out], ?_, ?_, fun l piece hget => ?_⟩
    · show g₁.output ++ out = _
      rw [hsame, houtput]
      simp
    · show (pieces ++ [out]).length = g₁.level + 1
      rw [List.length_append, List.length_singleton, hlength, hlevel]
    · rcases Nat.lt_or_ge l pieces.length with hlt | hge
      · rw [List.getElem?_append_left hlt] at hget
        exact hpieces l piece hget
      · rw [List.getElem?_append_right hge, List.getElem?_singleton] at hget
        split at hget
        · cases hget
          have hl : l = g.level := by omega
          rw [hl]
          exact hpiece
        · cases hget

/-- With whole pieces the output file holds the first levels of the XOR. -/
theorem Written.whole (h : Written Eq inputs g) :
    g.output = (List.range (min (g.level * BUFFER_SIZE) (maxLength inputs))).map (xorAt inputs) := by
  obtain ⟨pieces, houtput, hlength, hpieces⟩ := h
  have hall : pieces = (List.range g.level).map (xorBlock inputs) := by
    apply List.ext_getElem?
    intro l
    rw [List.getElem?_map, ← hlength]
    cases hget : pieces[l]? with
    | none =>
      rw [List.getElem?_eq_none (by simpa using hget)]
      rfl
    | some piece =>
      obtain ⟨hlt, -⟩ := List.getElem?_eq_some_iff.mp hget
      rw [List.getElem?_range hlt, hpieces l piece hget]
      rfl
  rw [houtput, hall]
  clear hall hpieces houtput hlength
  induction g.level with
  | zero => simp
  | succ l ih =>
    rw [List.range_succ, List.map_append, List.flatten_append, ih, Nat.succ_mul,
      ← map_range_append]
    simp [xorBlock]

end

end OsHw.Hw4
