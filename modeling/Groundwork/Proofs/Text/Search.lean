import Groundwork.Text.Search

/-!
# `Proofs.Text.Search` — which cut is found

`Text.Search` says of a cut that nothing is lost by it. Here is the other direction: a list built
around a mark is cut at this mark, provided that the mark does not show earlier. For a terminator
such as `-->`, whose last element occurs only once in it, no occurrence can begin before the
terminator and end inside it, so it is enough that the part in front of it holds none.

## Contents

* `contains_iff` — a sublist is found exactly if it is there.
* `splitOnce?_append`, `not_infix_of_splitOnce?` — the first occurrence, from both sides.
* `Unmarked`, `splitUnquoted?_append`, `unmarked_of_splitUnquoted?` — what may stand before an
  unquoted mark.
* `splitUnquoted?_plain`, `splitUnquoted?_quote` — the search for one, from mark to mark.
-/

namespace Groundwork.Text

variable {α : Type} [DecidableEq α]

/-! ## Openings -/

@[simp] theorem stripFront?_append (opening rest : List α) :
    stripFront? opening (opening ++ rest) = some rest :=
  stripFront?_eq_some_iff.2 rfl

theorem stripFront?_eq_none_iff {opening xs : List α} :
    stripFront? opening xs = none ↔ ¬ opening <+: xs := by
  constructor
  · rintro h ⟨rest, rfl⟩
    simp at h
  · intro h
    cases hx : stripFront? opening xs with
    | none => rfl
    | some rest => exact absurd ⟨rest, (stripFront?_eq_some_iff.1 hx).symm⟩ h

/-! ## The first occurrence of a sublist -/

/-- **The first occurrence.** A cut names the part passed over, which does not hold the mark. -/
theorem exists_of_splitOnceFrom {sep passed xs before after : List α}
    (h : splitOnceFrom sep passed xs = some (before, after)) :
    ∃ between, before = passed.reverse ++ between ∧ xs = between ++ sep ++ after ∧
      (sep ≠ [] → ¬ sep <:+: between) := by
  induction xs generalizing passed with
  | nil =>
    have hxs := eq_of_splitOnceFrom h
    simp only [splitOnceFrom, Option.map_eq_some_iff, Prod.mk.injEq] at h
    obtain ⟨rest, hrest, hbefore, rfl⟩ := h
    refine ⟨[], by simp [hbefore], by simpa [hbefore] using hxs, ?_⟩
    intro hsep hin
    exact hsep (List.infix_nil.1 hin)
  | cons x xs ih =>
    rw [splitOnceFrom] at h
    split at h
    · next rest hrest =>
      simp only [Option.some.injEq, Prod.mk.injEq] at h
      obtain ⟨rfl, rfl⟩ := h
      refine ⟨[], by simp, by simpa using stripFront?_eq_some_iff.1 hrest, ?_⟩
      intro hsep hin
      exact hsep (List.infix_nil.1 hin)
    · next hnone =>
      obtain ⟨between, hbefore, hxs, hno⟩ := ih h
      refine ⟨x :: between, by simpa using hbefore, by simp [hxs], ?_⟩
      intro hsep hin
      rcases List.infix_cons_iff.1 hin with hfront | hlater
      · apply stripFront?_eq_none_iff.1 hnone
        rw [hxs, List.append_assoc, ← List.cons_append]
        exact hfront.trans (List.prefix_append _ _)
      · exact hno hsep hlater

/-- What stands before the first occurrence of `sep` does not hold `sep`. -/
theorem not_infix_of_splitOnce? {sep xs before after : List α} (hsep : sep ≠ [])
    (h : splitOnce? sep xs = some (before, after)) : ¬ sep <:+: before := by
  obtain ⟨between, hbefore, -, hno⟩ := exists_of_splitOnceFrom h
  rw [hbefore, List.reverse_nil, List.nil_append]
  exact hno hsep

theorem not_mem_of_splitOnce? {xs before after : List α} {x : α}
    (h : splitOnce? [x] xs = some (before, after)) : x ∉ before := by
  intro hx
  obtain ⟨front, back, rfl⟩ := List.append_of_mem hx
  exact not_infix_of_splitOnce? (List.cons_ne_nil x []) h ⟨front, back, by simp⟩

/-- A list with a mark nowhere before a certain place is cut there. -/
theorem splitOnceFrom_append {sep before after : List α} (passed : List α)
    (h : ∀ late, late ≠ [] → late <:+ before → ¬ sep <+: late ++ sep ++ after) :
    splitOnceFrom sep passed (before ++ sep ++ after) = some (passed.reverse ++ before, after) := by
  induction before generalizing passed with
  | nil =>
    cases hx : sep ++ after with
    | nil =>
      obtain ⟨rfl, rfl⟩ := List.append_eq_nil_iff.1 hx
      simp [splitOnceFrom, stripFront?]
    | cons x xs =>
      rw [List.nil_append, hx, splitOnceFrom, ← hx, stripFront?_append, List.append_nil]
  | cons x before ih =>
    have hnone : stripFront? sep (x :: (before ++ sep ++ after)) = none :=
      stripFront?_eq_none_iff.2 (h (x :: before) (by simp) (List.suffix_refl _))
    rw [List.cons_append, List.cons_append, splitOnceFrom, hnone, ih]
    · simp
    · intro late hne hlate
      exact h late hne (hlate.trans (List.suffix_cons _ _))

omit [DecidableEq α] in
/-- An occurrence of a mark whose last element stands nowhere else in it does not begin before
another occurrence and end inside that. -/
theorem not_prefix_of_last {stem late after : List α} {last : α} (hlast : last ∉ stem)
    (hne : late ≠ []) (hno : ¬ stem ++ [last] <:+: late) :
    ¬ stem ++ [last] <+: late ++ (stem ++ [last]) ++ after := by
  rintro ⟨rest, hrest⟩
  rw [List.append_assoc late] at hrest
  rcases List.append_eq_append_iff.1 hrest with ⟨overlap, hlate, -⟩ | ⟨overlap, hmark, hoverlap⟩
  · exact hno ⟨[], overlap, by simpa using hlate.symm⟩
  · -- `overlap` ends the mark and also starts it, so its last element stands in `stem`
    rcases List.eq_nil_or_concat overlap with rfl | ⟨front, x, rfl⟩
    · rw [List.append_nil] at hmark
      exact hno ⟨[], [], by simp [hmark]⟩
    · rw [List.concat_eq_append, ← List.append_assoc] at hmark
      obtain ⟨hstem, hx⟩ := List.append_inj' hmark rfl
      obtain rfl : last = x := by simpa using hx
      have hlen : (front ++ [last]).length ≤ stem.length := by
        have hpos := List.length_pos_iff.2 hne
        rw [hstem, List.length_append, List.length_append, List.length_singleton]
        omega
      have hfront : front ++ [last] <+: stem ++ [last] ++ after :=
        ⟨rest, by rw [hoverlap, List.concat_eq_append]⟩
      have hwhole : stem <+: stem ++ [last] ++ after := ⟨[last] ++ after, by simp⟩
      exact hlast ((List.prefix_of_prefix_length_le hfront hwhole hlen).subset (by simp))

/-- **A terminator is found where it stands**, if the part before it does not hold it and its last
element occurs only at its end. -/
theorem splitOnce?_append {stem before : List α} {last : α} (hlast : last ∉ stem)
    (hno : ¬ stem ++ [last] <:+: before) (after : List α) :
    splitOnce? (stem ++ [last]) (before ++ (stem ++ [last]) ++ after) = some (before, after) := by
  refine splitOnceFrom_append [] ?_
  intro late hne hlate
  exact not_prefix_of_last hlast hne fun hin => hno (hin.trans hlate.isInfix)

/-- A single element is found where it first stands. -/
theorem splitOnce?_singleton {before : List α} {x : α} (hx : x ∉ before) (after : List α) :
    splitOnce? [x] (before ++ x :: after) = some (before, after) := by
  have hno : ¬ [] ++ [x] <:+: before := by
    intro hin
    exact hx (hin.subset (by simp))
  have hsplit : splitOnce? ([] ++ [x]) (before ++ ([] ++ [x]) ++ after) = some (before, after) :=
    splitOnce?_append (by simp) hno after
  simpa using hsplit

/-- **A sublist is found exactly if it is there.** -/
theorem contains_iff {sep xs : List α} : contains sep xs = true ↔ sep <:+: xs := by
  constructor
  · intro h
    obtain ⟨⟨before, after⟩, hsplit⟩ := Option.isSome_iff_exists.1 h
    exact ⟨before, after, (eq_of_splitOnce? hsplit).symm⟩
  · intro h
    rw [contains, splitOnce?]
    generalize ([] : List α) = passed
    induction xs generalizing passed with
    | nil =>
      obtain rfl := List.infix_nil.1 h
      rfl
    | cons x xs ih =>
      rw [splitOnceFrom]
      split
      · rfl
      · next hnone =>
        rcases List.infix_cons_iff.1 h with hfront | hlater
        · exact absurd hfront (stripFront?_eq_none_iff.1 hnone)
        · exact ih hlater _

theorem contains_eq_false_iff {sep xs : List α} : contains sep xs = false ↔ ¬ sep <:+: xs := by
  rw [← contains_iff, Bool.not_eq_true]

/-- A single element is found unless it is not there. -/
theorem splitOnce?_singleton_eq_none {x : α} {xs : List α} (h : x ∉ xs) :
    splitOnce? [x] xs = none := by
  have hcontains : contains [x] xs = false :=
    contains_eq_false_iff.2 fun hin => h (hin.subset List.mem_cons_self)
  exact Option.not_isSome_iff_eq_none.1 (Bool.eq_false_iff.1 hcontains)

/-! ## Marks outside quotes -/

/-- The list holds no mark outside quotes, and every quote in it that opens a run is closed. -/
inductive Unmarked (quotes : List α) (mark : α) : List α → Prop where
  | nil : Unmarked quotes mark []
  | plain {x : α} {xs : List α} : x ≠ mark → x ∉ quotes → Unmarked quotes mark xs →
      Unmarked quotes mark (x :: xs)
  | quoted {q : α} {body xs : List α} : q ≠ mark → q ∈ quotes → q ∉ body →
      Unmarked quotes mark xs → Unmarked quotes mark (q :: (body ++ q :: xs))

variable {quotes : List α} {mark : α}

omit [DecidableEq α] in
theorem Unmarked.append {xs ys : List α} (hx : Unmarked quotes mark xs)
    (hy : Unmarked quotes mark ys) : Unmarked quotes mark (xs ++ ys) := by
  induction hx with
  | nil => exact hy
  | plain hmark hquote _ ih => exact .plain hmark hquote ih
  | quoted hmark hquote hbody _ ih =>
    rw [List.cons_append, List.append_assoc, List.cons_append]
    exact .quoted hmark hquote hbody ih

omit [DecidableEq α] in
theorem Unmarked.of_plain {xs : List α} (h : ∀ x ∈ xs, x ≠ mark ∧ x ∉ quotes) :
    Unmarked quotes mark xs := by
  induction xs with
  | nil => exact .nil
  | cons x xs ih =>
    have hx := h x (by simp)
    exact .plain hx.1 hx.2 (ih fun y hy => h y (by simp [hy]))

theorem splitUnquotedFrom_append {xs : List α} (h : Unmarked quotes mark xs) (passed ys : List α) :
    splitUnquotedFrom quotes mark passed (xs ++ mark :: ys) = some (passed.reverse ++ xs, ys) := by
  induction h generalizing passed with
  | nil => rw [List.nil_append, splitUnquotedFrom, if_pos rfl, List.append_nil]
  | plain hmark hquote _ ih =>
    rw [List.cons_append, splitUnquotedFrom, if_neg hmark, if_neg hquote, ih]
    simp
  | @quoted q body xs hmark hquote hbody _ ih =>
    have hsplit : splitOnce? [q] (body ++ q :: (xs ++ mark :: ys)) =
        some (body, xs ++ mark :: ys) :=
      splitOnce?_singleton hbody _
    rw [List.cons_append, List.append_assoc, List.cons_append, splitUnquotedFrom, if_neg hmark,
      if_pos hquote]
    split
    · next hnone => simp [hsplit] at hnone
    · next quoted after hsome =>
      rw [hsplit, Option.some.injEq, Prod.mk.injEq] at hsome
      obtain ⟨rfl, rfl⟩ := hsome
      simp [ih, List.reverseAux_eq]

/-- **An unquoted mark is found where it stands.** -/
theorem splitUnquoted?_append {xs : List α} (h : Unmarked quotes mark xs) (ys : List α) :
    splitUnquoted? quotes mark (xs ++ mark :: ys) = some (xs, ys) :=
  splitUnquotedFrom_append h [] ys

/-- The part passed over on the way to an unquoted mark. -/
theorem exists_of_splitUnquotedFrom {passed xs before after : List α}
    (h : splitUnquotedFrom quotes mark passed xs = some (before, after)) :
    ∃ between, before = passed.reverse ++ between ∧ Unmarked quotes mark between := by
  fun_induction splitUnquotedFrom quotes mark passed xs with
  | case1 => simp at h
  | case2 passed xs =>
    simp only [Option.some.injEq, Prod.mk.injEq] at h
    exact ⟨[], by simp [h.1], .nil⟩
  | case3 => simp at h
  | case4 passed x xs hmark hquote quoted rest hsplit _ ih =>
    obtain ⟨between, hbefore, hbetween⟩ := ih h
    exact ⟨x :: (quoted ++ x :: between), by simp [hbefore, List.reverseAux_eq],
      .quoted hmark hquote (not_mem_of_splitOnce? hsplit) hbetween⟩
  | case5 passed x xs hmark hquote ih =>
    obtain ⟨between, hbefore, hbetween⟩ := ih h
    exact ⟨x :: between, by simp [hbefore], .plain hmark hquote hbetween⟩

/-- What stands before an unquoted mark that has been found holds none. -/
theorem unmarked_of_splitUnquoted? {xs before after : List α}
    (h : splitUnquoted? quotes mark xs = some (before, after)) : Unmarked quotes mark before := by
  obtain ⟨between, hbefore, hbetween⟩ := exists_of_splitUnquotedFrom h
  rw [hbefore, List.reverse_nil, List.nil_append]
  exact hbetween

/-! ### From one mark to the next -/

variable {xs : List α}

theorem splitUnquotedFrom_quote {x : α} (hmark : x ≠ mark) (hquote : x ∈ quotes)
    (passed : List α) :
    splitUnquotedFrom quotes mark passed (x :: xs) =
      (splitOnce? [x] xs).bind fun found =>
        splitUnquotedFrom quotes mark (x :: found.1.reverseAux (x :: passed)) found.2 := by
  rw [splitUnquotedFrom, if_neg hmark, if_pos hquote]
  split
  · next hnone => simp only [hnone, Option.bind_none]
  · next quoted after hsome => simp only [hsome, Option.bind_some]

/-- What has been passed over is only kept. -/
theorem splitUnquotedFrom_passed (passed xs : List α) :
    splitUnquotedFrom quotes mark passed xs =
      (splitUnquoted? quotes mark xs).map fun found => (passed.reverse ++ found.1, found.2) := by
  rw [splitUnquoted?]
  induction hn : xs.length using Nat.strongRecOn generalizing xs passed with
  | ind n ih =>
    cases xs with
    | nil => simp [splitUnquotedFrom]
    | cons x xs =>
      have hlt : xs.length < n := by rw [← hn]; exact Nat.lt_succ_self _
      by_cases hmark : x = mark
      · simp [splitUnquotedFrom, hmark]
      by_cases hquote : x ∈ quotes
      · rw [splitUnquotedFrom_quote hmark hquote, splitUnquotedFrom_quote hmark hquote]
        cases hsplit : splitOnce? [x] xs with
        | none => rfl
        | some found =>
          have hlength := congrArg List.length (eq_of_splitOnce? hsplit)
          have hafter : found.2.length < n := by
            simp only [List.length_append] at hlength
            omega
          simp only [Option.bind_some]
          rw [ih _ hafter _ _ rfl, ih _ hafter (x :: found.1.reverseAux [x]) _ rfl]
          simp [List.reverseAux_eq, Function.comp_def]
      · rw [splitUnquotedFrom, if_neg hmark, if_neg hquote, splitUnquotedFrom, if_neg hmark,
          if_neg hquote, ih _ hlt _ _ rfl, ih _ hlt [x] _ rfl]
        simp [Function.comp_def]

theorem splitUnquoted?_mark (quotes xs : List α) (mark : α) :
    splitUnquoted? quotes mark (mark :: xs) = some ([], xs) := by
  rw [splitUnquoted?, splitUnquotedFrom, if_pos rfl]
  rfl

/-- Where neither a mark nor a quote stands, nothing is found. -/
theorem splitUnquoted?_plain {plain : List α} (h : ∀ x ∈ plain, x ≠ mark ∧ x ∉ quotes)
    (xs : List α) :
    splitUnquoted? quotes mark (plain ++ xs) =
      (splitUnquoted? quotes mark xs).map fun found => (plain ++ found.1, found.2) := by
  induction plain with
  | nil => simp
  | cons x plain ih =>
    rw [List.forall_mem_cons] at h
    rw [List.cons_append, splitUnquoted?, splitUnquotedFrom, if_neg h.1.1, if_neg h.1.2,
      splitUnquotedFrom_passed, ih h.2]
    simp [Function.comp_def]

/-- A quote is followed to the next one of its kind. -/
theorem splitUnquoted?_quote {x : α} (hmark : x ≠ mark) (hquote : x ∈ quotes) (xs : List α) :
    splitUnquoted? quotes mark (x :: xs) =
      (splitOnce? [x] xs).bind fun run =>
        (splitUnquoted? quotes mark run.2).map fun found =>
          (x :: run.1 ++ x :: found.1, found.2) := by
  rw [splitUnquoted?, splitUnquotedFrom_quote hmark hquote]
  congr 1
  funext run
  rw [splitUnquotedFrom_passed]
  simp [List.reverseAux_eq]

end Groundwork.Text
