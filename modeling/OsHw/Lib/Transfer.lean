import Mathlib.Tactic.Conv
import Mathlib.Tactic.Set

/-!
# OsHw — the partial-transfer loop

`read` and `write` may move fewer items than they were asked for, so programs call them in a
loop:

```c
ret = xfer(fd, buff, total);  done = ret;
while (done < total && ret > 0) { ret = xfer(fd, &buff[done], total - done);  done += ret; }
```

The loop is the same in both directions: items leave a source (the unread part of a file, the
unwritten part of a buffer) from the front and are appended to what was moved so far. How many
items each call moves is up to the kernel; `short` is its choice, one number a call. A call
moves a positive number of items whenever there is something to move, and none at the end of
the source.

* **`transfer_eq`** — whatever the choices, the loop ends and has moved exactly the first
  `total` items of the source, in order (all of it, when the source is shorter).
-/

namespace Transfer

variable {α : Type*}

/-- The number of items one call moves that is asked for `want` of `avail` available ones when
the kernel would like to move `k`: at least one, unless `want` or `avail` is zero. -/
def moved (k want avail : Nat) : Nat := min (max k 1) (min want avail)

theorem moved_le_want (k want avail : Nat) : moved k want avail ≤ want := by
  unfold moved; omega

theorem moved_le_avail (k want avail : Nat) : moved k want avail ≤ avail := by
  unfold moved; omega

theorem moved_eq_zero {k want avail : Nat} : moved k want avail = 0 ↔ want = 0 ∨ avail = 0 := by
  unfold moved; omega

/-- Every count a call may legally report is some choice of the kernel. -/
theorem moved_self {n want avail : Nat} (h0 : 0 < n) (hw : n ≤ want) (ha : n ≤ avail) :
    moved n want avail = n := by
  unfold moved; omega

/-- The `while` of the loop: `done` are the items moved so far, `ret` the result of the last
call, `call` the number of calls made. The first argument is fuel; `none` is "out of fuel". -/
def loop (short : Nat → Nat) (total : Nat) :
    Nat → Nat → List α → Nat → List α → Option (List α × List α)
  | 0, _, _, _, _ => none
  | fuel + 1, call, done, ret, src =>
    if done.length < total ∧ 0 < ret then
      let n := moved (short call) (total - done.length) src.length
      loop short total fuel (call + 1) (done ++ src.take n) n (src.drop n)
    else
      some (done, src)

/-- The first call and the loop after it. -/
def transfer (short : Nat → Nat) (total : Nat) (src : List α) : Option (List α × List α) :=
  let n := moved (short 0) total src.length
  loop short total (total + 2) 1 (src.take n) n (src.drop n)

/-- The loop invariant, read as a statement about what is left to do: from `done`, the loop
moves the next `total - done.length` items. A zero `ret` means that nothing is left to move;
each round with a positive one moves an item, so the fuel lasts. Induction on the fuel. -/
theorem loop_eq (short : Nat → Nat) (total : Nat) :
    ∀ (fuel call : Nat) (done : List α) (ret : Nat) (src : List α),
      (ret = 0 → total ≤ done.length ∨ src = []) →
      1 ≤ fuel → (0 < ret → total - done.length + 2 ≤ fuel) →
      loop short total fuel call done ret src
        = some (done ++ src.take (total - done.length), src.drop (total - done.length))
  | 0, _, _, _, _, _, h1, _ => absurd h1 (by omega)
  | fuel + 1, call, done, ret, src, hret, _, hfuel => by
    unfold loop
    by_cases hgo : done.length < total ∧ 0 < ret
    · rw [if_pos hgo]
      simp only []
      set n := moved (short call) (total - done.length) src.length with hn
      have hwant : n ≤ total - done.length := moved_le_want _ _ _
      have havail : n ≤ src.length := moved_le_avail _ _ _
      have hlen : (done ++ src.take n).length = done.length + n := by simp [havail]
      have hnil : n = 0 → src = [] := by
        intro h0
        rcases moved_eq_zero.mp (hn ▸ h0) with h | h
        · omega
        · exact List.length_eq_zero_iff.mp h
      rw [loop_eq short total fuel (call + 1) (done ++ src.take n) n (src.drop n)
        (fun h0 => Or.inr (by simp [hnil h0])) (by omega) (by omega)]
      -- the items moved by this call are the first `n` of those left to move
      have hsplit : total - done.length = n + (total - (done ++ src.take n).length) := by omega
      rw [hsplit, List.take_add, List.drop_drop, List.append_assoc]
    · rw [if_neg hgo]
      have hdone : total - done.length = 0 ∨ src = [] := by
        by_cases hr : ret = 0
        · rcases hret hr with h | h
          · exact Or.inl (by omega)
          · exact Or.inr h
        · exact Or.inl (by omega)
      rcases hdone with h | h
      · simp [h]
      · simp [h]

/-- **The loop moves the first `total` items**, whatever the kernel's choices. -/
theorem transfer_eq (short : Nat → Nat) (total : Nat) (src : List α) :
    transfer short total src = some (src.take total, src.drop total) := by
  unfold transfer
  simp only []
  set n := moved (short 0) total src.length with hn
  have hwant : n ≤ total := moved_le_want _ _ _
  have havail : n ≤ src.length := moved_le_avail _ _ _
  have hlen : (src.take n).length = n := by simp [havail]
  have hzero : n = 0 → total ≤ (src.take n).length ∨ src.drop n = [] := by
    intro h0
    rcases moved_eq_zero.mp (hn ▸ h0) with h | h
    · exact Or.inl (by omega)
    · exact Or.inr (by simp [List.length_eq_zero_iff.mp h])
  rw [loop_eq short total (total + 2) 1 _ n _ hzero (by omega) (by omega), hlen]
  have hsplit : total = n + (total - n) := by omega
  conv_rhs => rw [hsplit, List.take_add, ← List.drop_drop]

end Transfer
