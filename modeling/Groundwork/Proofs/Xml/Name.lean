import Groundwork.Xml.Name

/-!
# `Proofs.Xml.Name` — where a name ends

## Contents

* `isNamePart_of_isName` — a name holds nothing but characters of names.
* `dropWhile_isSpace_of_isName`, `exists_gap`, `dropWhile_isSpace_append` — where white space ends.
* `readName?_append`, `isNamePart_head_of_readName?` — a name is read up to the first character that
  is none of a name.
-/

namespace Groundwork.Xml

theorem isNamePart_of_isName {name : List Char} (h : isName name = true) :
    ∀ c ∈ name, isNamePart c = true := by
  cases name with
  | nil => simp
  | cons c cs =>
    simp only [isName, Bool.and_eq_true, List.all_eq_true] at h
    intro d hd
    rcases List.mem_cons.1 hd with rfl | hd
    · simp [isNamePart, h.1]
    · exact h.2 d hd

/-- White space ends a name. -/
theorem isNamePart_of_isSpace {c : Char} (h : isSpace c = true) : isNamePart c = false := by
  simp only [isSpace, Bool.or_eq_true, decide_eq_true_eq] at h
  rcases h with ((rfl | rfl) | rfl) | rfl <;> decide

theorem isSpace_of_isNamePart {c : Char} (h : isNamePart c = true) : isSpace c = false := by
  cases hspace : isSpace c with
  | false => rfl
  | true => simp [isNamePart_of_isSpace hspace] at h

/-- A name does not start with white space. -/
theorem dropWhile_isSpace_of_isName {name : List Char} (h : isName name = true)
    (rest : List Char) : (name ++ rest).dropWhile isSpace = name ++ rest := by
  cases name with
  | nil => simp [isName] at h
  | cons c cs =>
    have hspace := isSpace_of_isNamePart (isNamePart_of_isName h c (by simp))
    rw [List.cons_append, List.dropWhile_cons, hspace]
    rfl

/-- What ends a name still does with a gap in front of it, if the gap ends names too. -/
theorem isNamePart_head_append {gap : List Char} {c : Char}
    (hgap : ∀ d ∈ gap.head?, isNamePart d = false) (hc : isNamePart c = false) (rest : List Char) :
    ∀ d ∈ (gap ++ c :: rest).head?, isNamePart d = false := by
  cases gap with
  | nil =>
    intro d hd
    obtain rfl : c = d := Option.some.inj hd
    exact hc
  | cons e gap => exact hgap

/-- The white space that is passed over. -/
theorem exists_gap (cs : List Char) :
    ∃ gap, (∀ c ∈ gap, isSpace c = true) ∧ cs = gap ++ cs.dropWhile isSpace :=
  ⟨cs.takeWhile isSpace, List.all_eq_true.1 List.all_takeWhile,
    List.takeWhile_append_dropWhile.symm⟩

/-- White space is passed over up to the next other character. -/
theorem dropWhile_isSpace_append {gap : List Char} {c : Char}
    (hgap : ∀ d ∈ gap, isSpace d = true) (hc : isSpace c = false) (rest : List Char) :
    (gap ++ c :: rest).dropWhile isSpace = c :: rest := by
  rw [List.dropWhile_append_of_pos hgap, List.dropWhile_cons, hc]
  rfl

/-- **A name is read as a whole**, if something else follows it. -/
theorem readName?_append {name : List Char} (rest : List Char) (h : isName name = true)
    (hrest : ∀ c ∈ rest.head?, isNamePart c = false) :
    readName? (name ++ rest) = some (name, rest) := by
  cases name with
  | nil => simp [isName] at h
  | cons c cs =>
    simp only [isName, Bool.and_eq_true, List.all_eq_true] at h
    have htake : rest.takeWhile isNamePart = [] := by
      cases rest with
      | nil => rfl
      | cons d rest => rw [List.takeWhile_cons, hrest d rfl]; rfl
    have hdrop : rest.dropWhile isNamePart = rest := by
      cases rest with
      | nil => rfl
      | cons d rest => rw [List.dropWhile_cons, hrest d rfl]; rfl
    rw [List.cons_append, readName?, if_pos h.1, List.takeWhile_append_of_pos h.2,
      List.dropWhile_append_of_pos h.2, htake, hdrop, List.append_nil]

/-- What follows a name that has been read does not go on with it. -/
theorem isNamePart_head_of_readName? {cs name rest : List Char}
    (h : readName? cs = some (name, rest)) : ∀ c ∈ rest.head?, isNamePart c = false := by
  cases cs with
  | nil => simp [readName?] at h
  | cons c cs =>
    rw [readName?] at h
    split at h
    · simp only [Option.some.injEq, Prod.mk.injEq] at h
      intro d hd
      have hstop := List.head?_dropWhile_not isNamePart cs
      rw [h.2, show rest.head? = some d from hd] at hstop
      simpa using hstop
    · simp at h

end Groundwork.Xml
