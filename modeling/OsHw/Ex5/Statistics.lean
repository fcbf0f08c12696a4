import OsHw.Ex5.Server
import OsHw.Lib.Family
import Mathlib.Algebra.BigOperators.Ring.Finset
import Mathlib.Tactic.Abel

/-!
# OsHw — the statistics of `pcc_server` lose and duplicate nothing

The threads add their counters cell by cell, in any order with those of the others. A cell of
`counters` is at all times the sum of what each thread has added to it, and `active_threads` is
the number of connections that are registered and have not added everything.

* **`Connection.merged`** — what a thread has added to a cell.
* **`Counted`** — the invariant of the server.
* **`step_counted`** — every step keeps it.
* **`statistics_exact`** — the result.
-/

namespace OsHw.Ex5

open Server

/-! ## What a thread has done -/

/-- The cells below this one have been added. -/
def Phase.mergedTo : Phase → Nat
  | .readN _ | .readStream | .sendC _ => 0
  | .merge i => i
  | _ => PRINTABLES_LEN

/-- Behind the body of `updateActiveThreads(-1)`. -/
def Phase.deregistered : Phase → Bool
  | .unlock | .print | .returned => true
  | _ => false

/-- Nothing is added, and the connection counts. -/
def Phase.Early (p : Phase) : Prop := p.mergedTo = 0 ∧ p.deregistered = false

theorem Phase.early_of_open {p : Phase} (h : p.done = false) : p.Early := by
  cases p with
  | readN bytesRead => exact ⟨rfl, rfl⟩
  | readStream => exact ⟨rfl, rfl⟩
  | sendC written => exact ⟨rfl, rfl⟩
  | _ => cases h

/-- A thread that is off `active_threads` has added everything, and has sent its answer. -/
theorem Phase.late_of_deregistered {p : Phase} (h : p.deregistered = true) :
    p.mergedTo = PRINTABLES_LEN ∧ p.written = UINT_LEN := by
  cases p with
  | unlock => exact ⟨rfl, rfl⟩
  | print => exact ⟨rfl, rfl⟩
  | returned => exact ⟨rfl, rfl⟩
  | _ => cases h

namespace Connection

/-- What a thread has added to a cell. -/
def merged (i : Fin PRINTABLES_LEN) (c : Connection) : BitVec 32 :=
  if i.val < c.phase.mergedTo then c.localCounter i else 0

/-- A finished connection does not count in `active_threads` any more. -/
def finished (c : Connection) : Bool := c.phase.deregistered

variable {c : Connection} {order : ByteOrder}

theorem merged_of_early (h : c.phase.Early) (i : Fin PRINTABLES_LEN) : c.merged i = 0 := by
  rw [merged, h.1, if_neg (Nat.not_lt_zero _)]

theorem merged_of_finished (h : c.finished = true) (i : Fin PRINTABLES_LEN) :
    c.merged i = c.localCounter i := by
  rw [merged, (Phase.late_of_deregistered h).1, if_pos i.isLt]

theorem received_early (h : c.phase.done = false) (data : List UInt8) :
    (c.received order data).phase.Early := by
  obtain ⟨phase, charC, N, totalRead, totalPrintable, localCounter, processed, sent⟩ := c
  cases phase with
  | readN bytesRead =>
    dsimp only [received]
    split <;> exact ⟨rfl, rfl⟩
  | readStream =>
    dsimp only [received]
    split <;> exact ⟨rfl, rfl⟩
  | sendC written => exact ⟨rfl, rfl⟩
  | _ => cases h

theorem wrote_early (h : c.phase.done = false) (k : Nat) : (c.wrote order k).phase.Early := by
  obtain ⟨phase, charC, N, totalRead, totalPrintable, localCounter, processed, sent⟩ := c
  cases phase with
  | readN bytesRead => exact ⟨rfl, rfl⟩
  | readStream => exact ⟨rfl, rfl⟩
  | sendC written =>
    dsimp only [wrote]
    split <;> exact ⟨rfl, rfl⟩
  | _ => cases h

end Connection

/-! ## The invariant -/

/-- The main thread has registered a connection, and has not created its thread. -/
def MainPhase.creating : MainPhase → Nat
  | .unlock | .create => 1
  | _ => 0

/-- The main thread has accepted a connection, and has not registered it. -/
def MainPhase.registering : MainPhase → Nat
  | .lock | .update => 1
  | _ => 0

/-- The cells are what the threads have added to them, and `active_threads` counts the registered
connections that are not finished. -/
structure Counted (order : ByteOrder) (s : Server) : Prop where
  tallied : ∀ c ∈ s.connections, c.Tallied
  answered : ∀ c ∈ s.connections, c.Answered order
  counters : ∀ i, s.counters i = (s.connections.map (Connection.merged i)).sum
  active : s.activeThreads = s.registered - s.connections.countP Connection.finished
  registered : s.registered = s.connections.length + s.main.creating
  accepted : s.accepted = s.registered + s.main.registering

theorem start_counted {order : ByteOrder} : Counted order start where
  tallied := nofun
  answered := nofun
  counters _ := rfl
  active := rfl
  registered := rfl
  accepted := rfl

/-- What an action of a thread does to the quantities of the invariant: what it adds to a cell
is what it has added then, and it leaves `active_threads` when it is finished. -/
structure Adds (order : ByteOrder) (c : Connection) (s : Server) (c' : Connection) (s' : Server) :
    Prop where
  tallied : c.Tallied → c'.Tallied
  answered : c.Answered order → c'.Answered order
  counters : ∀ i, s'.counters i + c.merged i = s.counters i + c'.merged i
  active : s'.activeThreads + (if c'.finished then 1 else 0) =
    s.activeThreads + (if c.finished then 1 else 0)
  main : s'.main = s.main
  accepted : s'.accepted = s.accepted
  registered : s'.registered = s.registered

section Threads

variable {order : ByteOrder} {i : Nat} {c c' : Connection} {s s' : Server}

theorem merge_phase_mergedTo (j : Fin PRINTABLES_LEN) :
    (if j.val + 1 < PRINTABLES_LEN then Phase.merge (j + 1) else .lock).mergedTo = j + 1 := by
  have hj := j.isLt
  split
  · rfl
  · show PRINTABLES_LEN = j.val + 1
    omega

theorem merge_adds (j : Fin PRINTABLES_LEN) (hphase : c.phase = .merge j) :
    Adds order c s { c with phase := if j.val + 1 < PRINTABLES_LEN then .merge (j + 1) else .lock }
      (s.merge c j) where
  tallied h := ⟨h.localCounter, h.totalPrintable, h.totalRead⟩
  answered h := by
    have hold : c.sent = (order.encode c.totalPrintable).take c.phase.written := h
    rw [hphase] at hold
    unfold Connection.Answered
    split <;> exact hold
  counters i := by
    rw [Connection.merged, Connection.merged, merge_phase_mergedTo, hphase]
    show Function.update s.counters j (s.counters j + c.localCounter j) i +
        (if i.val < j.val then c.localCounter i else 0) =
      s.counters i + if i.val < j.val + 1 then c.localCounter i else 0
    -- the cells below `j` were added before, those above `j` will be
    by_cases hij : i = j
    · rw [hij, Function.update_self, if_neg (Nat.lt_irrefl _), if_pos (Nat.lt_succ_self _),
        add_zero]
    · have hne : i.val ≠ j.val := fun h => hij (Fin.ext h)
      rw [Function.update_of_ne hij]
      congr 2
      exact propext (by omega)
  active := by
    have hold : c.finished = false := by
      rw [Connection.finished, hphase]
      rfl
    have hnew : Phase.deregistered
        (if j.val + 1 < PRINTABLES_LEN then Phase.merge (j + 1) else .lock) = false := by
      split <;> rfl
    rw [hold, Connection.finished, hnew]
    rfl
  main := rfl
  accepted := rfl
  registered := rfl

/-- An action that moves nothing: neither before nor behind it is anything added that was not. -/
theorem adds_of_early (hc : c.phase.Early) (hc' : c'.phase.Early) (ht : c.Tallied → c'.Tallied)
    (ha : c.Answered order → c'.Answered order) : Adds order c s c' s where
  tallied := ht
  answered := ha
  counters i := by rw [Connection.merged_of_early hc, Connection.merged_of_early hc']
  active := by rw [Connection.finished, Connection.finished, hc.2, hc'.2]
  main := rfl
  accepted := rfl
  registered := rfl

/-- An action that adds nothing to the cells. -/
theorem adds_of_mergedTo {p q : Phase} (hphase : c.phase = q) (hwritten : p.written = q.written)
    (hto : p.mergedTo = q.mergedTo) (hcounters : s'.counters = s.counters)
    (hactive : s'.activeThreads + (if p.deregistered then 1 else 0) =
      s.activeThreads + (if q.deregistered then 1 else 0))
    (hmain : s'.main = s.main) (haccepted : s'.accepted = s.accepted)
    (hregistered : s'.registered = s.registered) : Adds order c s { c with phase := p } s' where
  tallied h := ⟨h.localCounter, h.totalPrintable, h.totalRead⟩
  answered h := by
    show c.sent = (order.encode c.totalPrintable).take p.written
    rw [hwritten, ← hphase]
    exact h
  counters i := by
    show s'.counters i + c.merged i =
      s.counters i + if i.val < p.mergedTo then c.localCounter i else 0
    rw [hcounters, hto, ← hphase]
    rfl
  active := by
    rw [← hphase] at hactive
    exact hactive
  main := hmain
  accepted := haccepted
  registered := hregistered

/-- Every action adds what it should. -/
theorem Server.Acts.adds (h : Acts order i c s c' s') : Adds order c s c' s' := by
  cases h with
  | received data hread =>
    exact adds_of_early (Phase.early_of_open hread) (Connection.received_early hread data)
      (fun h => h.received order data) fun h => h.received data
  | wrote k hwrite =>
    exact adds_of_early (Phase.early_of_open hwrite) (Connection.wrote_early hwrite k)
      (fun h => h.wrote order k) fun h => h.wrote k
  | merge j hphase => exact merge_adds j hphase
  | lock hphase hfree =>
    exact adds_of_mergedTo hphase rfl rfl rfl rfl rfl rfl rfl
  | update hphase =>
    refine adds_of_mergedTo hphase rfl rfl rfl ?_ rfl rfl rfl
    show s.activeThreads + -1 + 1 = s.activeThreads + 0
    omega
  | unlock hphase =>
    exact adds_of_mergedTo hphase rfl rfl rfl rfl rfl rfl rfl
  | print hphase =>
    exact adds_of_mergedTo hphase rfl rfl rfl rfl rfl rfl rfl

/-! ## Steps -/

theorem connectionStep_counted {action : Action} (hs : Counted order s)
    (hst : s.connectionStep order i action = some s') : Counted order s' := by
  obtain ⟨c, c', s₁, hc, hacts, rfl⟩ := connectionStep_acts hst
  have hadds := hacts.adds
  obtain ⟨pre, post, -, hsplit, hset⟩ := Family.exists_split hc
  have hlength : (pre ++ c' :: post).length = s.connections.length := by
    rw [hsplit, List.length_append, List.length_append, List.length_cons, List.length_cons]
  -- what holds of every thread holds of every thread again
  have hevery : ∀ {Q : Connection → Prop}, (Q c → Q c') → (∀ d ∈ s.connections, Q d) →
      ∀ d ∈ pre ++ c' :: post, Q d := by
    intro Q hQ hall
    rw [hsplit] at hall
    simp only [List.forall_mem_append, List.forall_mem_cons] at hall ⊢
    exact ⟨hall.1, hQ hall.2.1, hall.2.2⟩
  rw [hset]
  constructor
  · exact hevery hadds.tallied hs.tallied
  · exact hevery hadds.answered hs.answered
  · intro j
    have hold := hs.counters j
    have hnew := hadds.counters j
    show s₁.counters j = ((pre ++ c' :: post).map (Connection.merged j)).sum
    rw [hsplit] at hold
    simp only [List.map_append, List.map_cons, List.sum_append, List.sum_cons] at hold ⊢
    rw [hold] at hnew
    -- in the sum over the threads, `c'` stands where `c` stood
    apply add_right_cancel (b := c.merged j)
    rw [hnew]
    abel
  · have hold := hs.active
    have hnew := hadds.active
    show s₁.activeThreads = s₁.registered - (pre ++ c' :: post).countP Connection.finished
    rw [hsplit] at hold
    rw [hadds.registered]
    simp only [List.countP_append, List.countP_cons] at hold ⊢
    push_cast at hold ⊢
    omega
  · show s₁.registered = (pre ++ c' :: post).length + s₁.main.creating
    rw [hadds.registered, hadds.main, hlength]
    exact hs.registered
  · show s₁.accepted = s₁.registered + s₁.main.registering
    rw [hadds.accepted, hadds.registered, hadds.main]
    exact hs.accepted

theorem mainStep_counted {junk : Vector UInt8 UINT_LEN} (hs : Counted order s)
    (hst : s.mainStep junk = some s') : Counted order s' := by
  obtain ⟨htallied, hanswered, hcounters, hactive, hregistered, haccepted⟩ := hs
  obtain ⟨main, connections, counters, activeThreads, activeThreadsLock, sigintHappend, cleanup,
    accepted, registered⟩ := s
  dsimp only at htallied hanswered hcounters hactive hregistered haccepted
  cases main with
  | test =>
    cases hst
    refine ⟨htallied, hanswered, hcounters, hactive, ?_, ?_⟩
    · cases sigintHappend <;> exact hregistered
    · cases sigintHappend <;> exact haccepted
  | accept =>
    simp only [mainStep] at hst
    split at hst
    · cases hst
      exact ⟨htallied, hanswered, hcounters, hactive, hregistered, haccepted⟩
    · cases hst
      exact ⟨htallied, hanswered, hcounters, hactive, hregistered, congrArg (· + 1) haccepted⟩
  | lock =>
    simp only [mainStep, Option.map_eq_some_iff] at hst
    obtain ⟨s₁, hlock, rfl⟩ := hst
    obtain ⟨-, rfl⟩ := lock_eq_some hlock
    exact ⟨htallied, hanswered, hcounters, hactive, hregistered, haccepted⟩
  | update =>
    cases hst
    refine ⟨htallied, hanswered, hcounters, ?_, congrArg (· + 1) hregistered, haccepted⟩
    -- one more is registered, and none of the threads is finished by it
    show activeThreads + 1 =
      ((registered + 1 : Nat) : Int) - (connections.countP Connection.finished : Nat)
    rw [hactive]
    push_cast
    omega
  | unlock =>
    cases hst
    exact ⟨htallied, hanswered, hcounters, hactive, hregistered, haccepted⟩
  | create =>
    cases hst
    refine ⟨?_, ?_, ?_, ?_, ?_, haccepted⟩
    · exact List.forall_mem_append.mpr ⟨htallied, List.forall_mem_singleton.mpr (.start junk)⟩
    · exact List.forall_mem_append.mpr ⟨hanswered, List.forall_mem_singleton.mpr (.start junk)⟩
    · intro i
      show counters i = ((connections ++ [Connection.start junk]).map (Connection.merged i)).sum
      have hnew : (Connection.start junk).merged i = 0 :=
        Connection.merged_of_early (Phase.early_of_open rfl) i
      rw [hcounters i, List.map_append, List.sum_append, List.map_singleton, List.sum_singleton,
        hnew, add_zero]
    · show activeThreads = (registered : Int) -
        ((connections ++ [Connection.start junk]).countP Connection.finished : Nat)
      rw [hactive, List.countP_append]
      rfl
    · show registered = (connections ++ [Connection.start junk]).length + 0
      rw [hregistered, List.length_append]
      rfl
  | returned => cases hst

/-- `cleanup` and the signal touch nothing that is counted. -/
def Untouched (s s' : Server) : Prop :=
  ∃ lock sigint cleanup, s' = { s with
    activeThreadsLock := lock
    sigintHappend := sigint
    cleanup := cleanup }

theorem Untouched.counted (h : Untouched s s') (hs : Counted order s) : Counted order s' := by
  obtain ⟨lock, sigint, cleanup, rfl⟩ := h
  exact ⟨hs.tallied, hs.answered, hs.counters, hs.active, hs.registered, hs.accepted⟩

theorem lock_untouched {t : Thread} {p : CleanupPhase}
    (h : (s.lock .cleanup).map (fun s => { s with cleanup := some (t, p) }) = some s') :
    Untouched s s' := by
  simp only [Option.map_eq_some_iff] at h
  obtain ⟨s₁, hlock, rfl⟩ := h
  obtain ⟨-, rfl⟩ := lock_eq_some hlock
  exact ⟨_, _, _, rfl⟩

theorem cleanupStep_untouched {t : Thread} {p : CleanupPhase} (h : s.cleanupStep t p = some s') :
    Untouched s s' := by
  cases p with
  | lock => exact lock_untouched h
  | test =>
    simp only [cleanupStep] at h
    split at h <;> cases h <;> exact ⟨_, _, _, rfl⟩
  | wait woken =>
    cases woken with
    | false => cases h
    | true => exact lock_untouched h
  | unlock =>
    cases h
    exact ⟨_, _, _, rfl⟩
  | print =>
    cases h
    exact ⟨_, _, _, rfl⟩
  | done => cases h

theorem spuriousStep_untouched (h : s.spuriousStep = some s') : Untouched s s' := by
  unfold spuriousStep at h
  split at h
  · cases h
    exact ⟨_, _, _, rfl⟩
  · cases h

theorem sigintHandler_untouched {t : Thread} (h : s.sigintHandler t = some s') :
    Untouched s s' := by
  unfold sigintHandler at h
  split at h
  · cases h
    exact ⟨_, _, _, rfl⟩
  · cases h

/-- **Every step keeps the count.** -/
theorem step_counted {e : Event} (hs : Counted order s) (hst : step order e s = some s') :
    Counted order s' := by
  cases step_moves hst with
  | main hrun h => exact mainStep_counted hs h
  | connection hrun h => exact connectionStep_counted hs h
  | sigint hmain h => exact (sigintHandler_untouched h).counted hs
  | cleanup hmain hp h => exact (cleanupStep_untouched h).counted hs
  | spurious hmain h => exact (spuriousStep_untouched h).counted hs

theorem reaches_counted {P : Event → Server → Prop} (h : Runs.Reaches (step order) P start s) :
    Counted order s :=
  h.invariant start_counted fun _ _ _ hs _ hst => step_counted hs hst

/-! ## The result -/

/-- If nothing is active, no thread is about to be created, and all threads are finished. -/
theorem Counted.all_finished (hs : Counted order s) (hzero : s.activeThreads = 0) :
    s.main.creating = 0 ∧ ∀ c ∈ s.connections, c.finished = true := by
  have hle := List.countP_le_length (p := Connection.finished) (l := s.connections)
  have hactive := hs.active
  have hregistered := hs.registered
  have hall : s.connections.countP Connection.finished = s.connections.length := by omega
  exact ⟨by omega, List.countP_eq_length.mp hall⟩

theorem ofNat_sum_map (f : Connection → Nat) (l : List Connection) :
    BitVec.ofNat 32 (l.map f).sum = (l.map fun c => BitVec.ofNat 32 (f c)).sum := by
  induction l with
  | nil => rfl
  | cons c l ih =>
    simp only [List.map_cons, List.sum_cons]
    rw [BitVec.ofNat_add, ih]

theorem sum_sum_map (f : Fin PRINTABLES_LEN → Connection → BitVec 32) (l : List Connection) :
    ∑ i, (l.map (f i)).sum = (l.map fun c => ∑ i, f i c).sum := by
  induction l with
  | nil => exact Finset.sum_eq_zero fun i _ => rfl
  | cons c l ih =>
    simp only [List.map_cons, List.sum_cons]
    rw [Finset.sum_add_distrib, ih]

/-- The counters of a thread add up to its total. -/
theorem Connection.Tallied.sum_localCounter (h : c.Tallied) :
    ∑ i, c.localCounter i = c.totalPrintable := by
  have hcast : ∀ n : Nat, BitVec.ofNat 32 n = (n : BitVec 32) := fun _ => rfl
  rw [Finset.sum_congr rfl fun i _ => h.localCounter i, h.totalPrintable, ← sum_occurrences]
  simp only [hcast]
  exact (Nat.cast_sum _ _).symm

/-- What a finished connection has sent is its total. -/
theorem Connection.Answered.decode_sent (h : c.Answered order) (hf : c.finished = true) :
    order.decode c.sent = c.totalPrintable := by
  have hsent : c.sent = (order.encode c.totalPrintable).take c.phase.written := h
  have hlen : (order.encode c.totalPrintable).length = UINT_LEN := order.length_encode _
  rw [hsent, (Phase.late_of_deregistered hf).2, List.take_of_length_le hlen.le, order.decode_encode]

/-- **The statistics are exact.** In whatever way the threads are interleaved: when
`active_threads` is 0, each cell counts the bytes that the finished connections processed, all
cells together add up to the totals that were sent, and no registered connection is missing. -/
theorem statistics_exact {P : Event → Server → Prop} (h : Runs.Reaches (step order) P start s)
    (hzero : s.activeThreads = 0) :
    (∀ i, s.counters i = BitVec.ofNat 32
      ((s.connections.filter Connection.finished).map fun c => occurrences c.processed i).sum) ∧
    ∑ i, s.counters i =
      ((s.connections.filter Connection.finished).map fun c => order.decode c.sent).sum ∧
    (s.accepted = s.registered →
      (s.connections.filter Connection.finished).length = s.accepted) := by
  have hs := reaches_counted h
  obtain ⟨hcreating, hfinished⟩ := hs.all_finished hzero
  have hlocal : ∀ i, s.counters i = (s.connections.map fun c => c.localCounter i).sum := by
    intro i
    rw [hs.counters i]
    exact congrArg List.sum
      (List.map_congr_left fun c hc => c.merged_of_finished (hfinished c hc) i)
  rw [List.filter_eq_self.mpr hfinished]
  refine ⟨fun i => ?_, ?_, fun hregistered => ?_⟩
  · rw [hlocal i, ofNat_sum_map]
    exact congrArg List.sum (List.map_congr_left fun c hc => (hs.tallied c hc).localCounter i)
  · rw [Finset.sum_congr rfl fun i _ => hlocal i, sum_sum_map]
    apply congrArg List.sum
    apply List.map_congr_left
    intro c hc
    rw [(hs.tallied c hc).sum_localCounter, (hs.answered c hc).decode_sent (hfinished c hc)]
  · have hlength := hs.registered
    omega

end Threads

/-- Two connections send an `A` each, the second one a `B` as well; their calls alternate, and so
do the additions of their counters. -/
def alternating : List Event :=
  let both (first second : Action) : List Event := [.connection 0 first, .connection 1 second]
  List.replicate 12 (.main (.replicate 4 0)) ++
    both (.read [1, 0]) (.read [2, 0, 0, 0]) ++ both (.read [0, 0]) (.read [65]) ++
    both (.read [65]) (.read [66]) ++ both (.write 1) (.write 4) ++ [.connection 0 (.write 3)] ++
    (List.replicate 95 (both .proceed .proceed)).flatten ++
    List.replicate 4 (.connection 1 .proceed) ++ List.replicate 4 (.connection 0 .proceed)

theorem statistics_alternating : ∃ s, Runs.Reaches (step .little) (fun _ _ => True) start s ∧
    s.accepted = 2 ∧ s.activeThreads = 0 ∧ s.counters (cell 65 (by decide)) = 2 ∧
    s.counters (cell 66 (by decide)) = 1 := by
  have hrun : (Runs.run (step .little) alternating start).map (fun s =>
      (s.accepted, s.activeThreads, (s.connections.filter Connection.finished).map (·.processed))) =
      some (2, 0, [[65], [65, 66]]) := by decide +kernel
  obtain ⟨s, hs, heq⟩ := Option.map_eq_some_iff.mp hrun
  simp only [Prod.mk.injEq] at heq
  obtain ⟨haccepted, hzero, hprocessed⟩ := heq
  have hreach := Runs.reaches_of_run (P := fun _ _ => True) (fun _ _ _ => trivial) hs
  have hmap : ∀ i, (s.connections.filter Connection.finished).map
      (fun c => occurrences c.processed i) =
      ((s.connections.filter Connection.finished).map (·.processed)).map (occurrences · i) := by
    intro i
    rw [List.map_map]
    rfl
  have hcells := (statistics_exact hreach hzero).1
  refine ⟨s, hreach, haccepted, hzero, ?_, ?_⟩
  · rw [hcells, hmap, hprocessed]
    decide
  · rw [hcells, hmap, hprocessed]
    decide

end OsHw.Ex5
