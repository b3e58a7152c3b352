import Groundwork.Proofs.Tree.Links
import Groundwork.Proofs.Tree.Stop

/-!
# `Proofs.Tree.Continuation` — how a text that is parsed goes on

A text that is parsed is taken in token by token up to its end. So at each of its tokens there is a
tree under construction, and from there parsing goes on in the rest of the text. Of what came before
the rest knows that tree only, and whether it is the start of the text: at any other place it is
parsed in the same way.

A text that differs from another one at a single token is therefore compared with it in three parts:
the tokens in front are taken in by both, the token itself is what has to be looked at, and the
rest is parsed elsewhere.

## Contents

* `Tree.exists_of_finish`, `finish_nil_eq_ok_iff` — the next token, and the end.
* `Tree.finish_elsewhere` — **the rest of a text is parsed in the same way at any place.**
* `exists_passes_of_reads`, `parse_of_passes` — parsing up to a token.
* `tokensOf`, `Meets`, `exists_meets_of_parse` — **a text that is parsed, at one of its tokens.**
-/

namespace Groundwork

open Text Xml Groundwork.Tree

/-! ## From a token to the next -/

namespace Tree

variable {builder next : Builder} {start : Nat} {cs rest : List Char} {tree : Tree}

/-- A text that is parsed up to its end starts with a token that is taken in. -/
theorem exists_of_finish {c : Char} (h : finish builder start (c :: cs) = .ok tree) :
    ∃ lexeme rest event next, Lexeme.read start (c :: cs) = .ok (lexeme, rest) ∧
      Event.ofToken lexeme.token = .ok event ∧ builder.step event = .ok next ∧
      finish next (start + lexeme.size) rest = .ok tree := by
  cases hread : Lexeme.read start (c :: cs) with
  | error e => exact nomatch (finish_of_unread hread).symm.trans h
  | ok found =>
    obtain ⟨lexeme, rest⟩ := found
    cases hevent : Event.ofToken lexeme.token with
    | error fault => exact nomatch (finish_of_misread hread hevent).symm.trans h
    | ok event =>
      cases hstep : builder.step event with
      | error fault => exact nomatch (finish_of_refused hread hevent hstep).symm.trans h
      | ok next =>
        rw [finish_of_step hread hevent hstep] at h
        exact ⟨lexeme, rest, event, next, rfl, hevent, hstep, h⟩

/-- Which token that is, if it is known how it is read. -/
theorem exists_of_finish_read {c : Char} {lexeme : Lexeme}
    (hread : Lexeme.read start (c :: cs) = .ok (lexeme, rest))
    (h : finish builder start (c :: cs) = .ok tree) :
    ∃ event next, Event.ofToken lexeme.token = .ok event ∧ builder.step event = .ok next ∧
      finish next (start + lexeme.size) rest = .ok tree := by
  obtain ⟨lexeme', rest', event, next, hread', hevent, hstep, hrest⟩ := exists_of_finish h
  rw [hread] at hread'
  obtain ⟨rfl, rfl⟩ := Prod.mk.inj (Except.ok.inj hread')
  exact ⟨event, next, hevent, hstep, hrest⟩

/-- At the end of a text no element may be open. -/
theorem finish_nil_eq_ok_iff : finish builder start [] = .ok tree ↔
    builder.opened = [] ∧ builder.tree = tree := by
  unfold finish
  rw [Event.reading_nil]
  cases hlast : builder.opened.getLast? with
  | none =>
    have hnil := List.getLast?_eq_none_iff.1 hlast
    simp [Builder.run, hnil]
  | some element =>
    have hne : builder.opened ≠ [] := by
      intro hnil
      rw [hnil] at hlast
      cases hlast
    simp [Builder.run, hlast, hne]

/-- **What comes behind the start of a text is parsed in the same way at any place.** -/
theorem finish_elsewhere {builder : Builder} {start : Nat} {cs : List Char} (hstart : start ≠ 0)
    (h : finish builder start cs = .ok tree) (place : Nat) :
    finish builder place cs = .ok tree := by
  match cs with
  | [] => exact finish_nil_eq_ok_iff.2 (finish_nil_eq_ok_iff.1 h)
  | c :: cs =>
    obtain ⟨lexeme, rest, event, next, hread, hevent, hstep, hrest⟩ := exists_of_finish h
    have hlen : rest.length < (c :: cs).length := Lexeme.length_read hread
    have hbehind : start + lexeme.size ≠ 0 := by omega
    rw [finish_of_step (Lexeme.movable_read start _ _ hstart hread place) hevent hstep]
    exact finish_elsewhere hbehind hrest _
termination_by cs.length
decreasing_by exact hlen

/-- A token in front of the rest. -/
theorem finish_of_token {token : Token} {spelling : List Char} {event : Event}
    (hne : spelling ≠ [])
    (hread : Lexeme.read start (spelling ++ rest) = .ok (⟨token, spelling⟩, rest))
    (hevent : Event.ofToken token = .ok event) (hstep : builder.step event = .ok next) :
    finish builder start (spelling ++ rest) = finish next (start + Utf8.size spelling) rest := by
  obtain ⟨c, cs, rfl⟩ := List.exists_cons_of_ne_nil hne
  exact finish_of_step hread hevent hstep

end Tree

/-! ## Up to a token -/

/-- What has been taken in is a tree under construction. -/
theorem Passes.grounded {back : List Char} {builder last : Builder} {start : Nat}
    {front : List Char} (h : Passes back builder start front last) {entries : List Tree.Entry}
    (hgrounded : builder.Grounded entries) : ∃ others, last.Grounded others := by
  induction h generalizing entries with
  | nil builder start => exact ⟨entries, hgrounded⟩
  | token hne hread hevent hstep _ ih =>
    obtain ⟨others, hothers⟩ := hgrounded.step hstep
    exact ih hothers

/-- What has taken in nothing is as it was. -/
theorem Passes.eq_of_nil {back : List Char} {builder last : Builder} {start : Nat}
    (h : Passes back builder start [] last) : builder = last := by
  generalize hfront : ([] : List Char) = front at h
  cases h with
  | nil => rfl
  | token hne => exact absurd (List.append_eq_nil_iff.1 hfront.symm).1 hne

open Lexeme in
/-- Only a text that is read to its end is parsed. -/
theorem eq_spellAll_of_finish {start : Nat} {cs : List Char} {lexemes : List Lexeme}
    {failure : Option ParseError} (hreads : Reads start cs lexemes failure) {builder : Builder}
    {tree : Tree} (h : finish builder start cs = .ok tree) : cs = spellAll lexemes := by
  induction hreads generalizing builder with
  | done start => rfl
  | stopped hread => exact nomatch (finish_of_unread hread).symm.trans h
  | @next start c cs rest lexeme lexemes failure hread _ ih =>
    obtain ⟨event, next, -, -, hrest⟩ := exists_of_finish_read hread h
    rw [eq_of_read hread, ih hrest, spellAll_cons]

open Lexeme in
/-- A text that is parsed, with the first of its tokens and the others. -/
theorem exists_of_reads_cons {start : Nat} {cs : List Char} {lexeme : Lexeme}
    {back : List Lexeme} {failure : Option ParseError}
    (hreads : Reads start cs (lexeme :: back) failure) {builder : Builder} {tree : Tree}
    (h : finish builder start cs = .ok tree) :
    ∃ event next, lexeme.spelling ≠ [] ∧ read start cs = .ok (lexeme, spellAll back) ∧
      Event.ofToken lexeme.token = .ok event ∧ builder.step event = .ok next ∧
      Reads (start + lexeme.size) (spellAll back) back failure ∧
      finish next (start + lexeme.size) (spellAll back) = .ok tree := by
  cases hreads with
  | next hread hrest =>
    obtain ⟨event, next, hevent, hstep, hfinish⟩ := exists_of_finish_read hread h
    obtain rfl := eq_spellAll_of_finish hrest hfinish
    exact ⟨event, next, spelling_ne_nil_of_read hread, hread, hevent, hstep, hrest, hfinish⟩

open Lexeme in
/-- The tokens in front are taken in, and the rest is parsed behind them. -/
theorem exists_passes_of_reads {start : Nat} {cs : List Char} {front back : List Lexeme}
    {failure : Option ParseError} (hreads : Reads start cs (front ++ back) failure)
    {builder : Builder} {tree : Tree} (h : finish builder start cs = .ok tree) :
    ∃ middle, Passes (spellAll back) builder start (spellAll front) middle ∧
      Reads (start + Utf8.size (spellAll front)) (spellAll back) back failure ∧
      finish middle (start + Utf8.size (spellAll front)) (spellAll back) = .ok tree := by
  induction front generalizing start cs builder with
  | nil =>
    obtain rfl := eq_spellAll_of_finish hreads h
    exact ⟨builder, .nil builder start, hreads, h⟩
  | cons lexeme front ih =>
    obtain ⟨event, next, hne, hread, hevent, hstep, hrest, hfinish⟩ := exists_of_reads_cons hreads h
    obtain ⟨middle, hpasses, hback, htree⟩ := ih hrest hfinish
    have hsize : start + lexeme.size + Utf8.size (spellAll front) =
        start + Utf8.size (spellAll (lexeme :: front)) := by
      rw [spellAll_cons, Utf8.size_append, ← Nat.add_assoc]
      rfl
    rw [hsize] at hback htree
    refine ⟨middle, ?_, hback, htree⟩
    have hhere : read start cs = .ok (lexeme, spellAll front ++ spellAll back) := by
      rw [← spellAll_append]
      exact hread
    rw [eq_of_read hhere] at hhere
    rw [spellAll_cons]
    exact .token hne hhere hevent hstep hpasses

/-- What stands behind the front is exchanged. -/
theorem parse_of_passes {back front other : List Char} {middle : Builder} {tree : Tree}
    (h : Passes back .start 0 front middle) (hother : ∀ c ∈ other.head?, c = '<')
    (hfinish : finish middle (Utf8.size front) other = .ok tree) :
    parse (String.ofList (front ++ other)) = .ok tree := by
  rw [parse_eq_finish, String.toList_ofList, finish_of_passes (h.other hother), Nat.zero_add,
    hfinish]

/-! ## A text at one of its tokens -/

/-- The tokens of a text with their spellings. -/
def tokensOf (text : String) : List Lexeme :=
  (Lexeme.readAll text.toList).lexemes.map (·.item)

/-- Parsing comes to this token in front of the last ones, in this state of the tree under
construction, and goes on behind it to its end. -/
structure Meets (front : List Lexeme) (lexeme : Lexeme) (back : List Lexeme)
    (middle next : Builder) (event : Event) (tree : Tree) : Prop where
  passes : Passes (Lexeme.spellAll (lexeme :: back)) .start 0 (Lexeme.spellAll front) middle
  grounded : ∃ entries, middle.Grounded entries
  nonempty : lexeme.spelling ≠ []
  read : Lexeme.read (Utf8.size (Lexeme.spellAll front)) (Lexeme.spellAll (lexeme :: back)) =
    .ok (lexeme, Lexeme.spellAll back)
  meaning : Event.ofToken lexeme.token = .ok event
  step : middle.step event = .ok next
  behind : ∃ failure, Lexeme.Reads (Utf8.size (Lexeme.spellAll front) + lexeme.size)
    (Lexeme.spellAll back) back failure
  rest : finish next (Utf8.size (Lexeme.spellAll front) + lexeme.size) (Lexeme.spellAll back) =
    .ok tree

/-- A text that is parsed is parsed up to each of its tokens. -/
theorem exists_meets_of_parse {text : String} {tree : Tree} (h : parse text = .ok tree)
    {front back : List Lexeme} {lexeme : Lexeme}
    (htokens : tokensOf text = front ++ lexeme :: back) :
    ∃ middle next event, Meets front lexeme back middle next event tree := by
  obtain ⟨lexemes, failure, hreads⟩ := Lexeme.exists_reads 0 text.toList
  obtain rfl : lexemes = front ++ lexeme :: back := by
    rw [← htokens, tokensOf, Lexeme.readAll, hreads.readFrom_eq, Lexeme.map_item_placeAll]
  rw [parse_eq_finish] at h
  obtain ⟨middle, hpasses, hback, hfinish⟩ := exists_passes_of_reads hreads h
  rw [Nat.zero_add] at hback hfinish
  obtain ⟨event, next, hne, hread, hevent, hstep, hrest, htree⟩ :=
    exists_of_reads_cons hback hfinish
  exact ⟨middle, next, event, {
    passes := hpasses
    grounded := hpasses.grounded Builder.grounded_start
    nonempty := hne
    read := hread
    meaning := hevent
    step := hstep
    behind := ⟨failure, hrest⟩
    rest := htree }⟩

/-- The place behind a token is not the start of the text. -/
theorem Meets.place_ne_zero {front back : List Lexeme} {lexeme : Lexeme} {middle next : Builder}
    {event : Event} {tree : Tree} (h : Meets front lexeme back middle next event tree) :
    Utf8.size (Lexeme.spellAll front) + lexeme.size ≠ 0 := by
  obtain ⟨c, cs, hcs⟩ := List.exists_cons_of_ne_nil h.nonempty
  have hpos := c.utf8Size_pos
  rw [Lexeme.size, hcs, Utf8.size_cons]
  omega

end Groundwork
