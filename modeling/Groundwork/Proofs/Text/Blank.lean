import Groundwork.Text.Blank
import Mathlib.Data.List.DropRight
import Mathlib.Data.List.TakeWhile

/-!
# `Proofs.Text.Blank` — trimming takes off layout and nothing else

## Contents

* `trimBlanks_append` — blanks behind a text are trimmed with it.
* `trimBlanks_trimBlanks` — what has been trimmed stays as it is.
* `exists_of_trimBlanks` — what has been taken off is blank.
* `trim_append`, `trim_trim`, `allBlank_append` — the same of strings.
-/

namespace Groundwork.Text

/-! ## Lists of characters -/

/-- Blanks behind a text are trimmed with it. -/
theorem trimBlanks_append {blanks : List Char} (h : blanks.all isBlank = true) (cs : List Char) :
    trimBlanks (cs ++ blanks) = trimBlanks cs := by
  rw [List.all_eq_true] at h
  have hblanks : blanks.dropWhile isBlank = [] := List.dropWhile_eq_nil_iff.2 h
  unfold trimBlanks
  rw [List.dropWhile_append]
  split
  · next hcs =>
    rw [List.isEmpty_iff] at hcs
    rw [hblanks, hcs]
  · rw [List.reverse_append, List.dropWhile_append_of_pos]
    simpa using h

/-- A text that starts with no blank still does so when its end has been trimmed. -/
theorem dropWhile_trimBlanks (cs : List Char) :
    (trimBlanks cs).dropWhile isBlank = trimBlanks cs := by
  have hfront : trimBlanks cs <+: cs.dropWhile isBlank := List.rdropWhile_prefix isBlank _
  rw [List.dropWhile_eq_self_iff]
  intro hpos hblank
  have hlen : 0 < (cs.dropWhile isBlank).length := Nat.lt_of_lt_of_le hpos hfront.length_le
  rw [hfront.getElem hpos] at hblank
  exact List.dropWhile_get_zero_not isBlank cs hlen hblank

/-- **Trimming is done at once.** -/
theorem trimBlanks_trimBlanks (cs : List Char) : trimBlanks (trimBlanks cs) = trimBlanks cs := by
  conv_lhs => rw [trimBlanks, dropWhile_trimBlanks]
  exact List.rdropWhile_idempotent isBlank _

/-- Trimming takes off blanks only. -/
theorem exists_of_trimBlanks (cs : List Char) :
    ∃ front back, cs = front ++ trimBlanks cs ++ back ∧ (∀ c ∈ front, isBlank c = true) ∧
      ∀ c ∈ back, isBlank c = true := by
  have hfront := List.takeWhile_append_dropWhile (p := isBlank) (l := cs)
  have hback := List.takeWhile_append_dropWhile (p := isBlank) (l := (cs.dropWhile isBlank).reverse)
  refine ⟨cs.takeWhile isBlank, ((cs.dropWhile isBlank).reverse.takeWhile isBlank).reverse, ?_,
    List.all_eq_true.1 List.all_takeWhile, ?_⟩
  · rw [trimBlanks, List.append_assoc, ← List.reverse_append, hback, List.reverse_reverse, hfront]
  · intro c hc
    exact List.all_eq_true.1 List.all_takeWhile c (List.mem_reverse.1 hc)

/-! ## Strings -/

theorem allBlank_append (s t : String) : allBlank (s ++ t) = (allBlank s && allBlank t) := by
  simp [allBlank]

theorem trim_append {blanks : String} (h : allBlank blanks = true) (s : String) :
    trim (s ++ blanks) = trim s := by
  rw [trim, String.toList_append, trimBlanks_append h, trim]

theorem trim_trim (s : String) : trim (trim s) = trim s := by
  rw [trim, trim, String.toList_ofList, trimBlanks_trimBlanks]

end Groundwork.Text
