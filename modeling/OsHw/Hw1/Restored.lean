import OsHw.Hw1.Substitution
import OsHw.Lib.Restore

/-!
# OsHw — `replaceWords2` on its own output

A second call reads what a first one has written, each file with its own reads.

* **`textOf_append`** — the text of what was written.
* **`replaceWords2_restores`** — with the two words exchanged the second call gives back the first
  file, if its text does not have the byte that the new word begins with.
* **`replaceWords2_settles`** — with the same words the second call changes nothing, if neither
  word has the byte that the other one begins with.
-/

namespace OsHw.Hw1

open Substitute

variable {content text tail rest stdout : List UInt8} {os again : Environment}
variable {find replace : CString} {fuel rounds : Nat}

/-! ## What was written -/

theorem not_nul_mem_substitute (replace : CString) (hnul : (0 : UInt8) ∉ text)
    (hfind : find.bytes ≠ []) : (0 : UInt8) ∉ substitute find.bytes replace.bytes text := by
  intro h
  exact (mem_substitute hfind h).elim replace.nul_free hnul

/-- The text of a file without NUL and what is behind it. -/
theorem textOf_append (hnul : (0 : UInt8) ∉ text) (htail : tail ++ [0] = 0 :: rest) :
    textOf (text ++ tail) = text := by
  have hne : ∀ b ∈ text, decide (b ≠ 0) = true := by
    intro b hb
    rw [decide_eq_true_iff]
    rintro rfl
    exact hnul hb
  rw [textOf, List.takeWhile_append_of_pos hne]
  cases tail with
  | nil => rw [List.takeWhile_nil, List.append_nil]
  | cons b tail =>
    rw [List.cons_append, List.cons.injEq] at htail
    rw [htail.1, List.takeWhile_cons_of_neg (by decide), List.append_nil]

/-! ## Two calls -/

/-- **The words exchanged.** If the text of the file does not have the byte that the new word
begins with, replacing the new word by the old one in what was written gives back the file. -/
theorem replaceWords2_restores (hos : os.Serves content) (hsize : content.length < 2 ^ 31)
    (hfuel : content.length < fuel) (hfind : find.bytes ≠ []) (hreplace : replace.bytes ≠ [])
    (hfresh : ∀ b ∈ replace.bytes.head?, b ∉ textOf content)
    (hrun : replaceWords2 fuel os (some find) (some replace) = some (0, stdout))
    (hagain : again.Serves stdout) (hsize' : stdout.length < 2 ^ 31)
    (hrounds : stdout.length < rounds) :
    replaceWords2 rounds again (some replace) (some find) = some (0, content) := by
  obtain ⟨tail, rest, hsplit, htail, hnul⟩ := exists_text content
  generalize textOf content = text at hsplit hnul hfresh
  subst hsplit
  rw [replaceWords2_of_text replace hnul htail hos hsize hfind hfuel] at hrun
  obtain rfl := (Prod.mk.inj (Option.some.inj hrun)).2
  have hnul' := not_nul_mem_substitute replace hnul hfind
  rw [replaceWords2_of_text find hnul' htail hagain hsize' hreplace hrounds]
  obtain ⟨e, r, hword⟩ := List.exists_cons_of_ne_nil hreplace
  rw [hword, List.head?_cons] at hfresh
  rw [hword, substitute_restores hfind (hfresh e rfl)]

/-- "a-b" with a NUL and "-" behind it: "-" becomes "::" and "::" becomes "-" again. The second
file is read in two pieces. -/
theorem replaceWords2_restores_dash :
    replaceWords2 7 ⟨some 6, true, [some [97, 58], some [58, 98, 0, 45]]⟩
        (some ⟨[58, 58], by decide⟩) (some ⟨[45], by decide⟩) =
      some (0, [97, 45, 98, 0, 45]) := by
  have hos : (⟨some 5, true, [some [97, 45, 98, 0, 45]]⟩ : Environment).Serves
      [97, 45, 98, 0, 45] := ⟨rfl, rfl, [[97, 45, 98, 0, 45]], rfl, by decide, rfl⟩
  have hrun : replaceWords2 6 ⟨some 5, true, [some [97, 45, 98, 0, 45]]⟩
      (some ⟨[45], by decide⟩) (some ⟨[58, 58], by decide⟩) =
        some (0, [97, 58, 58, 98, 0, 45]) := rfl
  have hfresh : ∀ b ∈ [(58 : UInt8), 58].head?, b ∉ textOf [97, 45, 98, 0, 45] := by
    rintro b ⟨⟩
    decide
  exact replaceWords2_restores hos (by decide) (by decide) (by decide) (by decide) hfresh hrun
    ⟨rfl, rfl, [[97, 58], [58, 98, 0, 45]], rfl, by decide, rfl⟩ (by decide) (by decide)

/-- **The same words again.** If neither word has the byte that the other one begins with, the old
word does not occur in the text of what was written, and a second call writes that again. -/
theorem replaceWords2_settles (hos : os.Serves content) (hsize : content.length < 2 ^ 31)
    (hfuel : content.length < fuel) (hfind : find.bytes ≠ []) (hreplace : replace.bytes ≠ [])
    (hold : ∀ b ∈ find.bytes.head?, b ∉ replace.bytes)
    (hnew : ∀ b ∈ replace.bytes.head?, b ∉ find.bytes)
    (hrun : replaceWords2 fuel os (some find) (some replace) = some (0, stdout)) :
    search find.bytes (textOf stdout) = none ∧
      (again.Serves stdout → stdout.length < 2 ^ 31 → stdout.length < rounds →
        replaceWords2 rounds again (some find) (some replace) = some (0, stdout)) := by
  obtain ⟨tail, rest, hsplit, htail, hnul⟩ := exists_text content
  generalize textOf content = text at hsplit hnul
  subst hsplit
  rw [replaceWords2_of_text replace hnul htail hos hsize hfind hfuel] at hrun
  obtain rfl := (Prod.mk.inj (Option.some.inj hrun)).2
  have hnul' := not_nul_mem_substitute replace hnul hfind
  have hgone : search find.bytes (substitute find.bytes replace.bytes text) = none := by
    obtain ⟨d, w, hfound⟩ := List.exists_cons_of_ne_nil hfind
    obtain ⟨e, r, hword⟩ := List.exists_cons_of_ne_nil hreplace
    rw [hfound, hword, List.head?_cons] at hold
    rw [hfound, hword, List.head?_cons] at hnew
    rw [hfound, hword]
    exact search_substitute (hold d rfl) (hnew e rfl)
  refine ⟨by rw [textOf_append hnul' htail]; exact hgone, fun hagain hsize' hrounds => ?_⟩
  rw [replaceWords2_of_text replace hnul' htail hagain hsize' hfind hrounds,
    substitute_of_none hgone]

/-- "aab" with "ab" replaced by "c" is "ac". -/
theorem replaceWords2_settles_once :
    search [97, 98] (textOf [97, 99]) = none ∧
      replaceWords2 3 ⟨some 2, true, [some [97, 99]]⟩ (some ⟨[97, 98], by decide⟩)
        (some ⟨[99], by decide⟩) = some (0, [97, 99]) := by
  have hos : (⟨some 3, true, [some [97, 97, 98]]⟩ : Environment).Serves [97, 97, 98] :=
    ⟨rfl, rfl, [[97, 97, 98]], rfl, by decide, rfl⟩
  have hrun : replaceWords2 4 ⟨some 3, true, [some [97, 97, 98]]⟩ (some ⟨[97, 98], by decide⟩)
      (some ⟨[99], by decide⟩) = some (0, [97, 99]) := rfl
  have hold : ∀ b ∈ [(97 : UInt8), 98].head?, b ∉ [(99 : UInt8)] := by
    rintro b ⟨⟩
    decide
  have hnew : ∀ b ∈ [(99 : UInt8)].head?, b ∉ [(97 : UInt8), 98] := by
    rintro b ⟨⟩
    decide
  obtain ⟨hgone, hagain⟩ := replaceWords2_settles hos (by decide) (by decide) (by decide)
    (by decide) hold hnew hrun
  exact ⟨hgone, hagain ⟨rfl, rfl, [[97, 99]], rfl, by decide, rfl⟩ (by decide) (by decide)⟩

end OsHw.Hw1
