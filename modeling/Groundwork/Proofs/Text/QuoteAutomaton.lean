import Groundwork.Proofs.Text.Search
import Mathlib.Computability.DFA
import Mathlib.Order.Nat

/-!
# `Proofs.Text.QuoteAutomaton` — quotes, one element after the other

`splitUnquoted?` follows a quote at once to the next one of its kind. The automaton here takes one
element after the other and keeps in mind the quote that stands open. The two agree on where the
first mark outside quotes stands: a list that holds none (`Unmarked`) is accepted by the automaton,
and no part of it that ends in front of a mark is.

## Contents

* `quoteAutomaton` — the automaton; `QuoteAutomaton.eval_run`, that a closed run leaves no trace.
* `unmarked_iff` — **what may stand before an unquoted mark**, told by the automaton.
* `UnquotedAt`, `splitUnquoted?_isLeast_iff` — **the first unquoted mark is what is found**, from
  any place on, and `splitUnquoted?_eq_none_iff`, that nothing is found where there is none.
-/

namespace Groundwork.Text

variable {α : Type} [DecidableEq α]

/-! ## The automaton -/

/-- Follows the quotes of a list. A state is the quote that stands open, if one does: outside quotes
each quote opens a run, and inside a run only the same quote counts, which closes it. A list is
accepted if it leads outside quotes. -/
def quoteAutomaton (quotes : List α) : DFA α (Option α) where
  step
    | none, x => if x ∈ quotes then some x else none
    | some q, x => if x = q then none else some q
  start := none
  accept := {none}

namespace QuoteAutomaton

variable {quotes xs body : List α} {q x : α}

theorem mem_accepts_iff :
    xs ∈ (quoteAutomaton quotes).accepts ↔ (quoteAutomaton quotes).eval xs = none := Iff.rfl

theorem eval_plain (hx : x ∉ quotes) (xs : List α) :
    (quoteAutomaton quotes).eval (x :: xs) = (quoteAutomaton quotes).eval xs := by
  have hstep : (quoteAutomaton quotes).step none x = none := if_neg hx
  rw [DFA.eval, DFA.evalFrom_cons]
  exact congrArg (fun s => (quoteAutomaton quotes).evalFrom s xs) hstep

theorem eval_quote (hq : q ∈ quotes) (xs : List α) :
    (quoteAutomaton quotes).eval (q :: xs) = (quoteAutomaton quotes).evalFrom (some q) xs := by
  have hstep : (quoteAutomaton quotes).step none q = some q := if_pos hq
  rw [DFA.eval, DFA.evalFrom_cons]
  exact congrArg (fun s => (quoteAutomaton quotes).evalFrom s xs) hstep

/-- A run stays open as long as its quote does not show up again. -/
theorem evalFrom_of_not_mem (h : q ∉ body) :
    (quoteAutomaton quotes).evalFrom (some q) body = some q := by
  induction body with
  | nil => rfl
  | cons x body ih =>
    rw [List.mem_cons, not_or] at h
    have hstep : (quoteAutomaton quotes).step (some q) x = some q := if_neg (Ne.symm h.1)
    rw [DFA.evalFrom_cons, hstep, ih h.2]

/-- **A run that is closed leaves no trace.** -/
theorem eval_run (hq : q ∈ quotes) (hbody : q ∉ body) (xs : List α) :
    (quoteAutomaton quotes).eval (q :: (body ++ q :: xs)) = (quoteAutomaton quotes).eval xs := by
  have hclose : (quoteAutomaton quotes).step (some q) q = none := if_pos rfl
  rw [eval_quote hq, DFA.evalFrom_of_append, evalFrom_of_not_mem hbody, DFA.evalFrom_cons, hclose]
  rfl

end QuoteAutomaton

/-! ## Lists without unquoted marks -/

section Unmarked

open QuoteAutomaton

variable {quotes xs : List α} {mark : α}

theorem Unmarked.eval_eq (h : Unmarked quotes mark xs) :
    (quoteAutomaton quotes).eval xs = none := by
  induction h with
  | nil => rfl
  | plain _ hquote _ ih => rw [eval_plain hquote, ih]
  | quoted _ hquote hbody _ ih => rw [eval_run hquote hbody, ih]

/-- In front of a mark that stands in such a list, a run is open. -/
theorem Unmarked.eval_ne (h : Unmarked quotes mark xs) {front back : List α}
    (hxs : xs = front ++ mark :: back) : (quoteAutomaton quotes).eval front ≠ none := by
  induction h generalizing front with
  | nil => simp at hxs
  | @plain x xs hmark hquote _ ih =>
    rcases List.cons_eq_append_iff.1 hxs with ⟨-, hhead⟩ | ⟨later, rfl, hlater⟩
    · exact absurd (List.cons.inj hhead).1.symm hmark
    · rw [eval_plain hquote]
      exact ih hlater
  | @quoted q body xs hmark hquote hbody _ ih =>
    rcases List.cons_eq_append_iff.1 hxs with ⟨-, hhead⟩ | ⟨later, rfl, hlater⟩
    · exact absurd (List.cons.inj hhead).1.symm hmark
    rcases List.append_eq_append_iff.1 hlater with ⟨beyond, rfl, hbeyond⟩ | ⟨inside, rfl, -⟩
    · -- the mark stands behind the run, or would be the quote that closes it
      rcases List.cons_eq_append_iff.1 hbeyond with ⟨-, hhead⟩ | ⟨after, rfl, hafter⟩
      · exact absurd (List.cons.inj hhead).1.symm hmark
      · rw [eval_run hquote hbody]
        exact ih hafter
    · have hopen : q ∉ later := fun hmem => hbody (List.mem_append_left _ hmem)
      rw [eval_quote hquote, evalFrom_of_not_mem hopen]
      exact Option.some_ne_none q

theorem unmarked_of_eval (hmark : mark ∉ quotes) (heval : (quoteAutomaton quotes).eval xs = none)
    (h : ∀ front back, xs = front ++ mark :: back → (quoteAutomaton quotes).eval front ≠ none) :
    Unmarked quotes mark xs := by
  -- a run is taken off as a whole, so the induction is on the length
  induction hn : xs.length using Nat.strongRecOn generalizing xs with
  | ind n ih =>
    cases xs with
    | nil => exact .nil
    | cons x xs =>
      have hne : x ≠ mark := by
        rintro rfl
        exact h [] xs rfl rfl
      by_cases hx : x ∈ quotes
      · by_cases hmem : x ∈ xs
        · obtain ⟨body, rest, rfl, hbody⟩ := List.eq_append_cons_of_mem hmem
          rw [eval_run hx hbody] at heval
          refine .quoted hne hx hbody (ih _ (by simp at hn; omega) heval ?_ rfl)
          rintro front back rfl
          have hfront := h (x :: (body ++ x :: front)) back (by simp)
          rwa [eval_run hx hbody] at hfront
        · rw [eval_quote hx, evalFrom_of_not_mem hmem] at heval
          cases heval
      · rw [eval_plain hx] at heval
        refine .plain hne hx (ih _ (by simp at hn; omega) heval ?_ rfl)
        rintro front back rfl
        have hfront := h (x :: front) back rfl
        rwa [eval_plain hx] at hfront

/-- **A list holds no unquoted mark** if the automaton accepts it, but no part of it that ends in
front of a mark. -/
theorem unmarked_iff (hmark : mark ∉ quotes) :
    Unmarked quotes mark xs ↔
      xs ∈ (quoteAutomaton quotes).accepts ∧
        ∀ front back, xs = front ++ mark :: back → front ∉ (quoteAutomaton quotes).accepts := by
  simp only [mem_accepts_iff]
  exact ⟨fun h => ⟨h.eval_eq, fun _ _ => h.eval_ne⟩, fun h => unmarked_of_eval hmark h.1 h.2⟩

/-- What is found is the mark behind a list that holds none. -/
theorem splitUnquoted?_eq_some_iff {before after : List α} :
    splitUnquoted? quotes mark xs = some (before, after) ↔
      xs = before ++ mark :: after ∧ Unmarked quotes mark before := by
  constructor
  · intro h
    exact ⟨eq_of_splitUnquoted? h, unmarked_of_splitUnquoted? h⟩
  · rintro ⟨rfl, hbefore⟩
    exact splitUnquoted?_append hbefore after

end Unmarked

/-! ## The places of unquoted marks -/

/-- A mark stands at a place, and the automaton, which is started at another place not behind it,
stands outside quotes there. -/
structure UnquotedAt (quotes : List α) (mark : α) (xs : List α) (start place : Nat) : Prop where
  le : start ≤ place
  mark : xs[place]? = some mark
  accepts : (xs.drop start).take (place - start) ∈ (quoteAutomaton quotes).accepts

section Place

variable {quotes xs : List α} {mark : α} {start place : Nat}

/-- The same, told by what stands before the mark and behind it. -/
theorem unquotedAt_iff :
    UnquotedAt quotes mark xs start place ↔
      ∃ front back, xs.drop start = front ++ mark :: back ∧ place = start + front.length ∧
        front ∈ (quoteAutomaton quotes).accepts := by
  constructor
  · rintro ⟨hle, hmark, haccepts⟩
    obtain ⟨index, rfl⟩ := Nat.exists_eq_add_of_le hle
    rw [← List.getElem?_drop] at hmark
    obtain ⟨hlt, hget⟩ := List.getElem?_eq_some_iff.1 hmark
    rw [Nat.add_sub_cancel_left] at haccepts
    refine ⟨(xs.drop start).take index, (xs.drop start).drop (index + 1), ?_, ?_, haccepts⟩
    · rw [← hget, ← List.drop_eq_getElem_cons hlt, List.take_append_drop]
    · rw [List.length_take, Nat.min_eq_left (Nat.le_of_lt hlt)]
  · rintro ⟨front, back, hxs, rfl, haccepts⟩
    refine ⟨Nat.le_add_right _ _, ?_, ?_⟩
    · rw [← List.getElem?_drop, hxs, List.getElem?_append_right (Nat.le_refl _), Nat.sub_self]
      rfl
    · rwa [Nat.add_sub_cancel_left, hxs, List.take_left]

omit [DecidableEq α] in
/-- Of two marks that are told so, the one at the smaller place stands before the other. -/
theorem exists_of_length_lt {front back before after : List α}
    (h : front ++ mark :: back = before ++ mark :: after) (hlt : front.length < before.length) :
    ∃ between, before = front ++ mark :: between := by
  rcases List.append_eq_append_iff.1 h with ⟨piece, rfl, hpiece⟩ | ⟨piece, rfl, -⟩
  · rcases List.cons_eq_append_iff.1 hpiece with ⟨rfl, -⟩ | ⟨between, rfl, -⟩
    · simp at hlt
    · exact ⟨between, rfl⟩
  · rw [List.length_append] at hlt
    omega

/-- **What is found is the first unquoted mark**, by its place. -/
theorem splitUnquoted?_isLeast_iff (hmark : mark ∉ quotes) (xs : List α) (start place : Nat) :
    (splitUnquoted? quotes mark (xs.drop start)).map (start + ·.1.length) = some place ↔
      IsLeast {p | UnquotedAt quotes mark xs start p} place := by
  constructor
  · intro h
    obtain ⟨⟨before, after⟩, hsplit, rfl⟩ := Option.map_eq_some_iff.1 h
    obtain ⟨hxs, hbefore⟩ := splitUnquoted?_eq_some_iff.1 hsplit
    obtain ⟨haccepts, hno⟩ := (unmarked_iff hmark).1 hbefore
    refine ⟨unquotedAt_iff.2 ⟨before, after, hxs, rfl, haccepts⟩, ?_⟩
    intro p hp
    obtain ⟨front, back, hdrop, rfl, hfront⟩ := unquotedAt_iff.1 hp
    refine Nat.add_le_add_left (Nat.le_of_not_lt fun hlt => ?_) start
    obtain ⟨between, hbetween⟩ := exists_of_length_lt (hdrop.symm.trans hxs) hlt
    exact hno front between hbetween hfront
  · rintro ⟨hplace, hleast⟩
    obtain ⟨before, after, hxs, rfl, haccepts⟩ := unquotedAt_iff.1 hplace
    have hbefore : Unmarked quotes mark before := by
      refine (unmarked_iff hmark).2 ⟨haccepts, fun front back hfront hmem => ?_⟩
      have hdrop : xs.drop start = front ++ mark :: (back ++ mark :: after) := by
        rw [hxs, hfront, List.append_assoc, List.cons_append]
      have hle := hleast (unquotedAt_iff.2 ⟨front, _, hdrop, rfl, hmem⟩)
      rw [hfront, List.length_append, List.length_cons] at hle
      omega
    rw [splitUnquoted?_eq_some_iff.2 ⟨hxs, hbefore⟩]
    rfl

/-- **Nothing is found** where there is no unquoted mark. -/
theorem splitUnquoted?_eq_none_iff (hmark : mark ∉ quotes) (xs : List α) (start : Nat) :
    splitUnquoted? quotes mark (xs.drop start) = none ↔
      ∀ p, ¬ UnquotedAt quotes mark xs start p := by
  constructor
  · intro h p hp
    classical
    have hleast := Nat.isLeast_find ⟨p, hp⟩
    rw [← splitUnquoted?_isLeast_iff hmark, h] at hleast
    cases hleast
  · intro h
    cases hsplit : splitUnquoted? quotes mark (xs.drop start) with
    | none => rfl
    | some found =>
      have hleast := (splitUnquoted?_isLeast_iff hmark xs start (start + found.1.length)).1
        (by rw [hsplit]; rfl)
      exact absurd hleast.1 (h _)

end Place

end Groundwork.Text
