/-!
# `Text.Search` — first occurrences in a list

Three ways to cut a list at a mark. Each returns the pieces around the mark, so that what was found
is stated by an equation (`xs = before ++ mark ++ after`) and not by an index; each carries the part
already passed, newest first, so that a cut far into a long text needs no stack.

On bytes, `splitOnce?` finds what `memchr`, for one byte, and `memmem`, for several, are documented
to find: the first occurrence, and for nothing at all the place where the search starts.

## Contents

* `stripFront?` — what follows a given opening; `stripFront?_eq_some_iff`.
* `splitOnce?` — around the first occurrence of a sublist; `eq_of_splitOnce?`.
* `splitUnquoted?` — around the first mark that stands outside quotes; `eq_of_splitUnquoted?`.
-/

namespace Groundwork.Text

variable {α : Type} [DecidableEq α]

/-! ## Openings -/

/-- What follows `opening` at the front of a list, if the list starts with it. -/
def stripFront? : List α → List α → Option (List α)
  | [], xs => some xs
  | _ :: _, [] => none
  | o :: opening, x :: xs => if o = x then stripFront? opening xs else none

theorem stripFront?_eq_some_iff {opening xs rest : List α} :
    stripFront? opening xs = some rest ↔ xs = opening ++ rest := by
  induction opening generalizing xs with
  | nil => simp [stripFront?]
  | cons o opening ih =>
    cases xs with
    | nil => simp [stripFront?]
    | cons x xs =>
      by_cases h : o = x
      · simp [stripFront?, h, ih]
      · simp [stripFront?, h, Ne.symm h]

/-! ## The first occurrence of a sublist -/

/-- The search of `splitOnce?` with `passed`, newest first, already behind it. -/
def splitOnceFrom (sep passed : List α) : List α → Option (List α × List α)
  | [] => (stripFront? sep []).map fun after => (passed.reverse, after)
  | x :: xs =>
    match stripFront? sep (x :: xs) with
    | some after => some (passed.reverse, after)
    | none => splitOnceFrom sep (x :: passed) xs

/-- The elements before and after the first occurrence of `sep`. -/
def splitOnce? (sep xs : List α) : Option (List α × List α) := splitOnceFrom sep [] xs

/-- The list has `sep` somewhere in it. -/
def contains (sep xs : List α) : Bool := (splitOnce? sep xs).isSome

theorem eq_of_splitOnceFrom {sep passed xs before after : List α}
    (h : splitOnceFrom sep passed xs = some (before, after)) :
    passed.reverse ++ xs = before ++ sep ++ after := by
  induction xs generalizing passed with
  | nil =>
    simp only [splitOnceFrom, Option.map_eq_some_iff] at h
    obtain ⟨rest, hrest, heq⟩ := h
    simp only [Prod.mk.injEq] at heq
    rw [stripFront?_eq_some_iff.1 hrest, heq.1, heq.2, List.append_assoc]
  | cons x xs ih =>
    rw [splitOnceFrom] at h
    split at h
    · next rest hrest =>
      simp only [Option.some.injEq, Prod.mk.injEq] at h
      rw [stripFront?_eq_some_iff.1 hrest, h.1, h.2, List.append_assoc]
    · simpa using ih h

/-- A cut loses nothing. -/
theorem eq_of_splitOnce? {sep xs before after : List α}
    (h : splitOnce? sep xs = some (before, after)) :
    xs = before ++ sep ++ after := by
  simpa using eq_of_splitOnceFrom h

/-! ## Marks outside quotes -/

/-- The search of `splitUnquoted?` with `passed`, newest first, already behind it. A quote is
followed at once to the next occurrence of itself, and the quoted run is passed whole. -/
def splitUnquotedFrom (quotes : List α) (mark : α) (passed : List α) :
    List α → Option (List α × List α)
  | [] => none
  | x :: xs =>
    if x = mark then some (passed.reverse, xs)
    else if x ∈ quotes then
      match h : splitOnce? [x] xs with
      | none => none
      | some (quoted, after) =>
        have : after.length < xs.length + 1 := by
          have := congrArg List.length (eq_of_splitOnce? h)
          simp only [List.length_append, List.length_cons, List.length_nil] at this
          omega
        splitUnquotedFrom quotes mark (x :: quoted.reverseAux (x :: passed)) after
    else splitUnquotedFrom quotes mark (x :: passed) xs
termination_by xs => xs.length

/-- The elements before and after the first `mark` that stands outside quotes; a quote opens a run
that only the same quote closes. -/
def splitUnquoted? (quotes : List α) (mark : α) (xs : List α) : Option (List α × List α) :=
  splitUnquotedFrom quotes mark [] xs

theorem eq_of_splitUnquotedFrom {quotes : List α} {mark : α} {passed xs before after : List α}
    (h : splitUnquotedFrom quotes mark passed xs = some (before, after)) :
    passed.reverse ++ xs = before ++ mark :: after := by
  fun_induction splitUnquotedFrom quotes mark passed xs with
  | case1 => simp at h
  | case2 passed xs =>
    simp only [Option.some.injEq, Prod.mk.injEq] at h
    rw [h.1, h.2]
  | case3 => simp at h
  | case4 passed x xs _ _ quoted rest hsplit _ ih =>
    rw [← ih h, eq_of_splitOnce? hsplit]
    simp [List.reverseAux_eq]
  | case5 passed x xs _ _ ih =>
    rw [← ih h]
    simp

/-- A cut at an unquoted mark loses nothing. -/
theorem eq_of_splitUnquoted? {quotes : List α} {mark : α} {xs before after : List α}
    (h : splitUnquoted? quotes mark xs = some (before, after)) : xs = before ++ mark :: after := by
  simpa using eq_of_splitUnquotedFrom h

end Groundwork.Text
