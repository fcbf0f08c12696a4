import OsHw.Hw1.Rounds

/-!
# OsHw — where `replaceWords2` stores what it reads

Every call of the loop that reads asks for `st_size` bytes, also when `total` of them are there
already. Only behind the loop is `total` compared with the size.

* **`storedAt`** — the indices of the buffer that the reads and the NUL behind them are stored at.
  An index outside of the buffer is where the model has no result (`readLoop_eq_none_of_outside`),
  and the only reason for that while the reads go on (`readLoop_eq_none_of_inside`).
* **`Fits`** — the condition on the results of the reads: none of them delivers more than the
  buffer has room for behind the ones before it.
* **`storedAt_inside_iff`** — the stores stay in the buffer exactly when the results fit.
-/

namespace OsHw.Hw1

variable {answers : List (Option (List UInt8))} {bytes buffer : List UInt8} {s total : Nat}

/-! ## Stores -/

/-- The NUL is stored at `total`, unless there are more bytes than expected. -/
def nulAt (st_size total : Int) : List Int := if total > st_size then [] else [total]

/-- The indices that are stored at from `total` on, in their order. -/
def storedAt (st_size : Int) : List (Option (List UInt8)) → Int → List Int
  | [], total => if total < st_size then [] else nulAt st_size total
  | answer :: answers, total =>
    if total < st_size then
      match answer with
      | none => []
      | some bytes =>
        (List.range bytes.length).map (fun j : Nat => total + j) ++
          if bytes = [] then []
          else storedAt st_size answers (toInt32 (total + bytes.length))
    else nulAt st_size total

/-- An index of a buffer that was allocated for `st_size + 1` bytes. -/
def Inside (st_size i : Int) : Prop := 0 ≤ i ∧ i < st_size + 1

/-- The NUL goes behind a file of the expected size. -/
theorem nulAt_inside {st_size total i : Int} (hsize : 0 ≤ st_size) (hend : ¬ total < st_size)
    (hi : i ∈ nulAt st_size total) : Inside st_size i := by
  unfold nulAt at hi
  split at hi
  · cases hi
  · obtain rfl := List.mem_singleton.mp hi
    exact ⟨by omega, by omega⟩

theorem inside_of_store {st_size : Int} {stored : List UInt8} {i : Int}
    (hlen : (buffer.length : Int) = st_size + 1) (h : store buffer i bytes = some stored) :
    ∀ k ∈ (List.range bytes.length).map (fun j : Nat => i + j), Inside st_size k := by
  intro k hk
  obtain ⟨j, hj, rfl⟩ := List.mem_map.mp hk
  have hj := List.mem_range.mp hj
  unfold store at h
  split at h
  · next hroom => exact ⟨by omega, by omega⟩
  · cases h

/-- **A store outside of the buffer** leaves the model without a result. Induction on the
reads. -/
theorem readLoop_eq_none_of_outside {st_size total : Int} (hsize : 0 ≤ st_size)
    (hlen : (buffer.length : Int) = st_size + 1)
    (h : ∃ i ∈ storedAt st_size answers total, ¬ Inside st_size i) :
    readLoop st_size answers total buffer = none := by
  obtain ⟨i, hi, hout⟩ := h
  induction answers generalizing total buffer with
  | nil =>
    unfold storedAt at hi
    split at hi
    · cases hi
    · next hend => exact absurd (nulAt_inside hsize hend hi) hout
  | cons answer answers ih =>
    unfold storedAt at hi
    unfold readLoop
    split at hi
    · next hmore =>
      rw [if_pos hmore]
      cases answer with
      | none => cases hi
      | some bytes =>
        simp only [Option.bind_eq_bind]
        cases hstore : store buffer total bytes with
        | none => rfl
        | some stored =>
          rcases List.mem_append.mp hi with hi | hi
          · exact absurd (inside_of_store hlen hstore i hi) hout
          · split at hi
            · cases hi
            · next hne =>
              obtain ⟨pre, post, -, -, hkept⟩ := store_some hstore
              rw [Option.bind_some, if_neg hne]
              exact ih (by rw [hkept]; exact hlen) hi
    · next hend => exact absurd (nulAt_inside hsize hend hi) hout

/-! ## Results that fit -/

/-- None of the reads from `total` on that the loop makes delivers more than the buffer has room
for. -/
def Fits (s total : Nat) (answers : List (Option (List UInt8))) : Prop :=
  ∀ (chunks : List (List UInt8)) (bytes : List UInt8) (rest : List (Option (List UInt8))),
    answers = chunks.map some ++ some bytes :: rest → (∀ chunk ∈ chunks, chunk ≠ []) →
      total + chunks.flatten.length < s → total + chunks.flatten.length + bytes.length ≤ s + 1

theorem fits_of_le (h : s ≤ total) : Fits s total answers := by
  intro chunks bytes rest _ _ hmore
  omega

theorem fits_nil : Fits s total [] := by
  intro chunks bytes rest hsplit
  have := congrArg List.length hsplit
  simp at this

/-- The loop returns on an error. -/
theorem fits_none : Fits s total (none :: answers) := by
  intro chunks bytes rest hsplit
  cases chunks with
  | nil =>
    rw [List.map_nil, List.nil_append, List.cons.injEq] at hsplit
    cases hsplit.1
  | cons chunk chunks =>
    rw [List.map_cons, List.cons_append, List.cons.injEq] at hsplit
    cases hsplit.1

/-- The first read fits, and unless it found the end of the file those behind it do. -/
theorem fits_cons (hmore : total < s) : Fits s total (some bytes :: answers) ↔
    total + bytes.length ≤ s + 1 ∧ (bytes ≠ [] → Fits s (total + bytes.length) answers) := by
  constructor
  · intro h
    refine ⟨h [] bytes answers rfl (by simp) hmore, fun hne chunks next rest hsplit hpos hlt => ?_⟩
    have hfirst := h (bytes :: chunks) next rest (by rw [hsplit]; rfl)
    rw [List.flatten_cons, List.length_append, ← Nat.add_assoc] at hfirst
    exact hfirst (List.forall_mem_cons.mpr ⟨hne, hpos⟩) hlt
  · rintro ⟨hfirst, hrest⟩ chunks next rest hsplit hpos hlt
    cases chunks with
    | nil =>
      rw [List.map_nil, List.nil_append, List.cons.injEq] at hsplit
      obtain rfl := Option.some.inj hsplit.1
      exact hfirst
    | cons chunk chunks =>
      rw [List.map_cons, List.cons_append, List.cons.injEq] at hsplit
      obtain rfl := Option.some.inj hsplit.1
      rw [List.flatten_cons, List.length_append, ← Nat.add_assoc] at hlt ⊢
      exact hrest (hpos bytes (by simp)) chunks next rest hsplit.2
        (fun c hc => hpos c (by simp [hc])) hlt

/-- The stores of one read. -/
theorem range_inside_iff (hmore : total < s) (n : Nat) :
    (∀ i ∈ (List.range n).map (fun j : Nat => (total : Int) + j), Inside s i) ↔
      total + n ≤ s + 1 := by
  constructor
  · intro h
    cases n with
    | zero => omega
    | succ n =>
      have hlast := (h _ (List.mem_map.mpr ⟨n, List.mem_range.mpr (Nat.lt_succ_self n), rfl⟩)).2
      omega
  · intro h i hi
    obtain ⟨j, hj, rfl⟩ := List.mem_map.mp hi
    have hj := List.mem_range.mp hj
    exact ⟨by omega, by omega⟩

/-- `total` stays an `int` as long as it is below the size and a read returns at most the size. -/
theorem toInt32_total {n : Nat} (hs : s < 2 ^ 30) (hmore : total < s) (hn : n ≤ s) :
    toInt32 ((total : Int) + n) = (total + n : Nat) := by
  rw [← Int.natCast_add]
  exact toInt32_natCast (by omega)

theorem storedAt_inside_iff_fits (hs : s < 2 ^ 30)
    (hreq : ∀ bytes, some bytes ∈ answers → bytes.length ≤ s) :
    (∀ i ∈ storedAt s answers total, Inside s i) ↔ Fits s total answers := by
  induction answers generalizing total with
  | nil =>
    refine iff_of_true (fun i hi => ?_) fits_nil
    unfold storedAt at hi
    split at hi
    · cases hi
    · next hend => exact nulAt_inside (Int.natCast_nonneg s) hend hi
  | cons answer answers ih =>
    unfold storedAt
    split
    · next hlt =>
      have hmore : total < s := Int.ofNat_lt.mp hlt
      cases answer with
      | none => exact iff_of_true (fun i hi => by cases hi) fits_none
      | some bytes =>
        have hn := hreq bytes (by simp)
        simp only [List.forall_mem_append]
        rw [range_inside_iff hmore, fits_cons hmore, toInt32_total hs hmore hn]
        refine and_congr_right fun _ => ?_
        have hrest : (∀ i ∈ storedAt s answers (total + bytes.length : Nat), Inside s i) ↔
            Fits s (total + bytes.length) answers := ih fun b hb => hreq b (by simp [hb])
        split
        · next hnil => simp [hnil]
        · next hne =>
          rw [hrest]
          exact ⟨fun h _ => h, fun h => h hne⟩
    · next hend =>
      refine iff_of_true (fun i hi => nulAt_inside (Int.natCast_nonneg s) hend hi) ?_
      exact fits_of_le (Int.ofNat_le.mp (Int.not_lt.mp hend))

/-- **While the stores are inside** the only thing that can be missing is another read. -/
theorem readLoop_eq_none_of_inside (hs : s < 2 ^ 30)
    (hreq : ∀ bytes, some bytes ∈ answers → bytes.length ≤ s) (hlen : buffer.length = s + 1)
    (hfits : Fits s total answers) (h : readLoop s answers total buffer = none) :
    ∃ chunks : List (List UInt8), answers = chunks.map some ∧ (∀ chunk ∈ chunks, chunk ≠ []) ∧
      total + chunks.flatten.length < s := by
  induction answers generalizing total buffer with
  | nil =>
    unfold readLoop at h
    split at h
    · next hlt => exact ⟨[], rfl, by simp, Int.ofNat_lt.mp hlt⟩
    · cases h
  | cons answer answers ih =>
    unfold readLoop at h
    split at h
    · next hlt =>
      have hmore : total < s := Int.ofNat_lt.mp hlt
      cases answer with
      | none => cases h
      | some bytes =>
        obtain ⟨hfirst, hrest⟩ := (fits_cons hmore).mp hfits
        have hroom : (0 : Int) ≤ total ∧ (total : Int) + bytes.length ≤ buffer.length := by omega
        simp only [store, if_pos hroom, Option.bind_eq_bind, Option.bind_some] at h
        split at h
        · cases h
        · next hne =>
          rw [toInt32_total hs hmore (hreq bytes (by simp))] at h
          obtain ⟨chunks, rfl, hpos, hless⟩ := ih (fun b hb => hreq b (by simp [hb]))
            (by simp only [List.length_append, List.length_take, List.length_drop]; omega)
            (hrest hne) h
          refine ⟨bytes :: chunks, rfl, List.forall_mem_cons.mpr ⟨hne, hpos⟩, ?_⟩
          rw [List.flatten_cons, List.length_append]
          omega
    · cases h

/-- **When the file is stored in the buffer.** For every size below `2 ^ 30` and all results of the
reads, none of them longer than the request: every byte and the NUL behind them are stored in the
`st_size + 1` bytes allocated exactly when no read that the loop makes delivers more than the room
that the ones before it have left. -/
theorem storedAt_inside_iff (hs : s < 2 ^ 30)
    (hreq : ∀ bytes, some bytes ∈ answers → bytes.length ≤ s) :
    (∀ i ∈ storedAt s answers 0, 0 ≤ i ∧ i < (s : Int) + 1) ↔
      ∀ (chunks : List (List UInt8)) (bytes : List UInt8) (rest : List (Option (List UInt8))),
        answers = chunks.map some ++ some bytes :: rest → (∀ chunk ∈ chunks, chunk ≠ []) →
          chunks.flatten.length < s → chunks.flatten.length + bytes.length ≤ s + 1 := by
  have hiff : (∀ i ∈ storedAt s answers 0, Inside s i) ↔ Fits s 0 answers :=
    storedAt_inside_iff_fits hs hreq
  simp only [Fits, Nat.zero_add] at hiff
  exact hiff

/-- A file of three bytes in two reads. -/
theorem storedAt_inside_two : storedAt 3 [some [97], some [98, 99]] 0 = [0, 1, 2, 3] ∧
    ∀ i ∈ storedAt 3 [some [97], some [98, 99]] 0, 0 ≤ i ∧ i < (3 : Int) + 1 := by
  have hfits : Fits 3 0 [some [97], some [98, 99]] :=
    (fits_cons (by decide)).mpr ⟨by decide, fun _ =>
      (fits_cons (by decide)).mpr ⟨by decide, fun _ => fits_nil⟩⟩
  refine ⟨by decide, (storedAt_inside_iff (s := 3) (by decide) (by simp)).mpr ?_⟩
  intro chunks bytes rest hsplit hpos hless
  have hroom := hfits chunks bytes rest hsplit hpos (by omega)
  omega

/-- A file of four bytes that grows after `fstat`: three bytes, and then four more behind them. -/
theorem stores_behind_buffer : ¬ ∀ i ∈ storedAt 4 [some [97, 98, 99], some [100, 101, 102, 103]] 0,
    0 ≤ i ∧ i < (4 : Int) + 1 := by
  decide

end OsHw.Hw1
