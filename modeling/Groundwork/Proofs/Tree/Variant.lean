import Groundwork.Proofs.Tree.Continuation
import Groundwork.Proofs.Xml.Decoding
import Groundwork.Proofs.Xml.StartTag

/-!
# `Proofs.Tree.Variant` — other spellings of one document

An element without content may be written as one tag or as two, and neither the XML declaration nor
a document type leaves a trace in the tree. So a document can be spelled in other ways without a
change to its tree: not to the nodes, nor to their order or their links.

What is changed is one place of the text. All tokens in front of it are read as before, since no
token depends on what follows it; all behind it are read as before, since they no longer stand at
the start. Without the document type between them, two texts may become one, of which nothing is
kept either. In the place itself the tree under construction comes to the same state, with all its
open elements.

## Contents

* `Builder.noting`, `finish_noting` — what is noted of a document type matters to no other token.
* `Builder.addElement_eq_ok_iff` — an element that ends at once.
* `finish_of_blank`, `finish_joined` — blank text on both sides of what is taken out.
* `Variant`, `parse_variant` — **one other spelling gives the same tree.**
* `parse_variants` — **any number of other spellings give the same tree.**
-/

namespace Groundwork

open Text Xml Groundwork.Tree

/-! ## What is noted of a document type -/

namespace Builder

/-- The same under construction, with or without a note of a document type. -/
def noting (flag : Bool) (builder : Builder) : Builder := { builder with hasDoctype := flag }

variable (builder : Builder) (flag : Bool)

theorem addNode_noting (node : Option NodeId → Nat → Node) :
    (builder.noting flag).addNode node = (builder.addNode node).map (noting flag) := by
  obtain ⟨tree, opened, hasRoot, hasDoctype⟩ := builder
  show (if OpenElement.nesting opened + 1 ≤ maxDepth then _ else _) =
    Except.map _ (if OpenElement.nesting opened + 1 ≤ maxDepth then _ else _)
  by_cases hroom : OpenElement.nesting opened + 1 ≤ maxDepth
  · rw [if_pos hroom, if_pos hroom]
    rfl
  · rw [if_neg hroom, if_neg hroom]
    rfl

theorem addElement_noting (name : String) (attributes : List Attribute) :
    (builder.noting flag).addElement name attributes =
      (builder.addElement name attributes).map (noting flag) := by
  unfold addElement
  rw [addNode_noting]
  show (if builder.opened.isEmpty && builder.hasRoot then _ else _) = _
  by_cases hsecond : (builder.opened.isEmpty && builder.hasRoot) = true
  · rw [if_pos hsecond]
    simp only [if_pos hsecond]
    rfl
  · rw [if_neg hsecond]
    simp only [if_neg hsecond]
    cases builder.addNode _ <;> rfl

theorem openElement_noting (name : String) (attributes : List Attribute) :
    (builder.noting flag).openElement name attributes =
      (builder.openElement name attributes).map (noting flag) := by
  unfold openElement
  rw [addElement_noting]
  cases builder.addElement name attributes <;> rfl

theorem closeElement_noting (name : String) :
    (builder.noting flag).closeElement name = (builder.closeElement name).map (noting flag) := by
  obtain ⟨tree, opened, hasRoot, hasDoctype⟩ := builder
  cases opened with
  | nil => rfl
  | cons element opened =>
    simp only [noting, closeElement]
    by_cases hname : element.name = name
    · simp only [if_pos hname]
      rfl
    · simp only [if_neg hname]
      rfl

theorem addText_noting (content : String) (fault : Option Fault) :
    (builder.noting flag).addText content fault =
      (builder.addText content fault).map (noting flag) := by
  obtain ⟨tree, opened, hasRoot, hasDoctype⟩ := builder
  cases opened with
  | nil => cases fault <;> rfl
  | cons element opened => rfl

/-- Only a document type asks whether there has been one. -/
theorem step_noting {event : Event} (hevent : ∀ body, event ≠ .doctype body) :
    (builder.noting flag).step event = (builder.step event).map (noting flag) := by
  cases event with
  | startElement name attributes => exact openElement_noting builder flag name attributes
  | emptyElement name attributes => exact addElement_noting builder flag name attributes
  | endElement name => exact closeElement_noting builder flag name
  | text content => exact addText_noting builder flag content _
  | cdata content => exact addText_noting builder flag content (some .cdataOutsideRoot)
  | comment content => exact addNode_noting builder flag _
  | instruction target data => exact addNode_noting builder flag _
  | declaration => rfl
  | doctype body => exact absurd rfl (hevent body)

/-- Behind a document type there is no second one. -/
theorem step_doctype_noting (body : String) :
    (builder.noting true).step (.doctype body) = .error .multipleDoctypes := rfl

end Builder

/-- **What comes behind a document type is parsed in the same way without it.** -/
theorem finish_noting {builder : Builder} {start : Nat} {cs : List Char} {tree : Tree}
    (h : finish (builder.noting true) start cs = .ok tree) (flag : Bool) :
    finish (builder.noting flag) start cs = .ok tree := by
  match cs with
  | [] =>
    have hdone := finish_nil_eq_ok_iff.1 h
    exact finish_nil_eq_ok_iff.2 hdone
  | c :: cs =>
    obtain ⟨lexeme, rest, event, next, hread, hevent, hstep, hrest⟩ := exists_of_finish h
    have hlen : rest.length < (c :: cs).length := Lexeme.length_read hread
    have hother : ∀ body, event ≠ .doctype body := by
      rintro body rfl
      cases (builder.step_doctype_noting body).symm.trans hstep
    rw [builder.step_noting true hother] at hstep
    cases hwith : builder.step event with
    | error fault =>
      rw [hwith] at hstep
      cases hstep
    | ok between =>
      rw [hwith] at hstep
      obtain rfl : between.noting true = next := Except.ok.inj hstep
      have hwithout : (builder.noting flag).step event = .ok (between.noting flag) := by
        rw [builder.step_noting flag hother, hwith]
        rfl
      rw [finish_of_step hread hevent hwithout]
      exact finish_noting hrest flag
termination_by cs.length
decreasing_by exact hlen

/-! ## Elements that end at once -/

namespace Builder

/-- The end of the last element leaves it as it is, if nothing has been found in it. -/
theorem closeElement_last {tree : Tree} {entries : List Tree.Entry} {e : Tree.Entry}
    (h : tree.Linked (entries ++ [e])) (hvalue : e.label.value = "") (name : String) (level : Nat)
    (opened : List OpenElement) (hasRoot hasDoctype : Bool) :
    (Builder.mk tree (⟨tree.size - 1, name, level, ""⟩ :: opened) hasRoot hasDoctype).closeElement
      name = .ok ⟨tree, opened, hasRoot, hasDoctype⟩ := by
  have hlast : tree.size - 1 = entries.length := by
    rw [← h.length_eq, List.length_append, List.length_singleton, Nat.add_sub_cancel]
  have hmodify : (tree.modify (tree.size - 1) fun node =>
      { node with value := if node.hasChildren then trim "" else "" }) = tree := by
    refine Tree.ext fun id => ?_
    rw [get?_modify, hlast]
    by_cases hid : entries.length = id
    · subst hid
      rw [if_pos rfl, h.get?_last, Option.map_some]
      have htrim : trim "" = "" := rfl
      simp [htrim, Entry.linked, hvalue]
    · rw [if_neg hid]
  show (if name = name then
    Except.ok (Builder.mk (tree.modify (tree.size - 1) _) opened hasRoot hasDoctype) else _) = _
  rw [if_pos rfl, hmodify]

variable {builder next : Builder} {entries : List Tree.Entry}

/-- **An element that ends at once** comes to the same as its start and its end. -/
theorem addElement_eq_ok_iff (h : builder.Grounded entries) {name : String}
    {attributes : List Attribute} :
    builder.addElement name attributes = .ok next ↔
      ∃ inside, builder.openElement name attributes = .ok inside ∧
        inside.closeElement name = .ok next := by
  constructor
  · intro hadd
    have hlinked := (h.addElement hadd).linked
    obtain ⟨tree, opened, hasRoot, hasDoctype⟩ := next
    refine ⟨⟨tree, ⟨tree.size - 1, name, OpenElement.nesting opened + 1, ""⟩ :: opened, hasRoot,
      hasDoctype⟩, ?_, closeElement_last hlinked rfl ..⟩
    simp only [openElement, hadd]
  · rintro ⟨inside, hopen, hclose⟩
    simp only [openElement] at hopen
    split at hopen
    · next tree opened hasRoot hasDoctype hadd =>
      obtain rfl := Except.ok.inj hopen
      have hlinked := (h.addElement hadd).linked
      have hsame := (closeElement_last hlinked rfl name ..).symm.trans hclose
      rw [hadd, hsame]
    · cases hopen

end Builder

/-! ## Blank text -/

namespace Xml.Lexeme

/-- What starts with no `<` is text. -/
theorem isText_of_read {start : Nat} {c : Char} {cs rest : List Char} {lexeme : Lexeme}
    (hc : c ≠ '<') (h : read start (c :: cs) = .ok (lexeme, rest)) :
    lexeme.token.isText = true := by
  rcases markup_or_text_of_read h with ⟨hhead, -⟩ | ⟨-, hread⟩
  · exact absurd (Option.some.inj hhead) hc
  · obtain ⟨rfl, -⟩ := Prod.mk.inj hread
    rfl

/-- Text is read up to the next `<`, or to the end. -/
theorem exists_of_read_text {start : Nat} {cs rest : List Char} {lexeme : Lexeme}
    (h : read start cs = .ok (lexeme, rest)) (htext : lexeme.token.isText = true) :
    ∃ body, lexeme = ⟨.text body, body⟩ ∧ '<' ∉ body := by
  rcases markup_or_text_of_read h with ⟨-, hmarkup⟩ | ⟨-, hread⟩
  · rw [hmarkup.isText_eq] at htext
    cases htext
  · obtain ⟨rfl, -⟩ := Prod.mk.inj hread
    refine ⟨_, rfl, fun hmem => ?_⟩
    simpa using List.all_eq_true.1 List.all_takeWhile _ hmem

end Xml.Lexeme

namespace Xml.Event

/-- How a blank text is written: there is no `]` in it, be it a character or a reference. -/
theorem replaced_of_ofText {body : List Char} {content : String}
    (h : ofText body = .ok (.text content)) (hblank : allBlank content = true) :
    Reference.Replaced Reference.atMostPlus body content.toList ∧ ']' ∉ body := by
  rw [ofText] at h
  split at h
  · cases h
  · split at h
    · next ds hdecode =>
      obtain rfl := Event.text.inj (Except.ok.inj h)
      have hreplaced := Reference.decode_eq_ok_iff.1 hdecode
      rw [String.toList_ofList]
      refine ⟨hreplaced, hreplaced.not_mem fun hmem => ?_⟩
      rw [allBlank, String.toList_ofList, List.all_eq_true] at hblank
      exact absurd (hblank ']' hmem) (by decide)
    · cases h

/-- Two blank texts, one behind the other, are a blank text. -/
theorem ofText_append {body body' : List Char} {content content' : String}
    (h : ofText body = .ok (.text content)) (h' : ofText body' = .ok (.text content'))
    (hblank : allBlank content = true) (hblank' : allBlank content' = true) :
    ofText (body ++ body') = .ok (.text (content ++ content')) := by
  obtain ⟨hreplaced, hbracket⟩ := replaced_of_ofText h hblank
  obtain ⟨hreplaced', hbracket'⟩ := replaced_of_ofText h' hblank'
  have hend : contains cdataEnd (body ++ body') = false := by
    refine contains_eq_false_iff.2 fun hin => ?_
    have hmem : ']' ∈ body ++ body' := hin.subset (by decide)
    exact (List.mem_append.1 hmem).elim hbracket hbracket'
  have hdecode : Reference.decode (body ++ body') = .ok (content ++ content').toList := by
    rw [String.toList_append]
    exact Reference.decode_eq_ok_iff.2 (hreplaced.append hreplaced')
  rw [ofText, hend, hdecode]
  show Except.ok (Event.text (String.ofList (content ++ content').toList)) = _
  rw [String.ofList_toList]

end Xml.Event

namespace Builder

variable {builder next : Builder} {content : String}

/-- Outside of all elements only blank text is taken in, and nothing is kept of it. -/
theorem step_text_top (hopened : builder.opened = []) :
    builder.step (.text content) = .ok next ↔ allBlank content = true ∧ next = builder := by
  obtain ⟨tree, opened, hasRoot, hasDoctype⟩ := builder
  obtain rfl : opened = [] := hopened
  by_cases hblank : allBlank content = true
  · simp [step, addText, hblank, eq_comm]
  · simp [step, addText, hblank]

/-- Text opens no element and ends none. -/
theorem opened_of_step_text (hstep : builder.step (.text content) = .ok next)
    (hnext : next.opened = []) : builder.opened = [] := by
  obtain ⟨tree, opened, hasRoot, hasDoctype⟩ := builder
  cases opened with
  | nil => rfl
  | cons element opened =>
    obtain rfl := Except.ok.inj hstep
    cases hnext

end Builder

/-- Text outside of all elements, in a text that is parsed: it is blank, and goes up to markup. -/
theorem exists_of_finish_text {builder : Builder} (hopened : builder.opened = []) {start : Nat}
    {c : Char} {cs : List Char} {tree : Tree} (hc : c ≠ '<')
    (h : finish builder start (c :: cs) = .ok tree) :
    ∃ body rest content, c :: cs = body ++ rest ∧ '<' ∉ body ∧ (∀ d ∈ rest.head?, d = '<') ∧
      Event.ofText body = .ok (.text content) ∧ allBlank content = true ∧
      finish builder (start + Utf8.size body) rest = .ok tree := by
  obtain ⟨lexeme, rest, event, next, hread, hevent, hstep, hrest⟩ := exists_of_finish h
  have htext := Lexeme.isText_of_read hc hread
  obtain ⟨body, rfl, hplain⟩ := Lexeme.exists_of_read_text hread htext
  obtain ⟨content, rfl⟩ := Event.exists_of_ofText hevent
  obtain ⟨hblank, rfl⟩ := (Builder.step_text_top hopened).1 hstep
  exact ⟨body, rest, content, Lexeme.eq_of_read hread, hplain,
    (Lexeme.head?_of_read_text hread htext).2, hevent, hblank, hrest⟩

/-- Blank text in front of what is parsed outside of all elements, be it text as well. -/
theorem finish_of_blank {builder : Builder} (hopened : builder.opened = []) {body : List Char}
    {content : String} (hne : body ≠ []) (hplain : '<' ∉ body)
    (hevent : Event.ofText body = .ok (.text content)) (hblank : allBlank content = true)
    {place : Nat} {rest : List Char} {tree : Tree} (hplace : place ≠ 0)
    (h : finish builder place rest = .ok tree) (start : Nat) :
    finish builder start (body ++ rest) = .ok tree := by
  have hstep {content : String} (hblank : allBlank content = true) :
      builder.step (.text content) = .ok builder :=
    (Builder.step_text_top hopened).2 ⟨hblank, rfl⟩
  by_cases hmarkup : ∀ c ∈ rest.head?, c = '<'
  · have hread := Lexeme.read_text start hne hplain hmarkup
    rw [finish_of_token hne hread hevent (hstep hblank)]
    exact finish_elsewhere hplace h _
  · -- the two texts are one
    cases rest with
    | nil => exact absurd (by simp) hmarkup
    | cons c cs =>
      have hc : c ≠ '<' := by simpa using hmarkup
      obtain ⟨body', rest, content', hcs, hplain', hmarkup', hevent', hblank', hrest⟩ :=
        exists_of_finish_text hopened hc h
      have hne' : body ++ body' ≠ [] := List.append_ne_nil_of_left_ne_nil hne body'
      have hall : '<' ∉ body ++ body' := by
        rw [List.mem_append, not_or]
        exact ⟨hplain, hplain'⟩
      have hread := Lexeme.read_text start hne' hall hmarkup'
      have hboth := Event.ofText_append hevent hevent' hblank hblank'
      have hblanks : allBlank (content ++ content') = true := by
        rw [allBlank_append, hblank, hblank']
        rfl
      have hbehind : place + Utf8.size body' ≠ 0 := by omega
      rw [hcs, ← List.append_assoc, finish_of_token hne' hread hboth (hstep hblanks)]
      exact finish_elsewhere hbehind hrest _

/-- **A place outside of all elements can be closed up**: the text in front of it is blank, and
stays blank with what comes to stand behind it. -/
theorem finish_joined {back front rest : List Char} {builder last : Builder} {start place : Nat}
    {tree : Tree} (h : Passes back builder start front last) (hlast : last.opened = [])
    (hplace : place ≠ 0) (hrest : finish last place rest = .ok tree) :
    finish builder start (front ++ rest) = .ok tree := by
  induction h with
  | nil builder start => exact finish_elsewhere hplace hrest start
  | @token builder next last start front lexeme event hne hread hevent hstep hbehind ih =>
    by_cases hend : lexeme.token.isText = true ∧ front = []
    · obtain ⟨htext, rfl⟩ := hend
      obtain rfl := hbehind.eq_of_nil
      obtain ⟨body, rfl, hplain⟩ := Lexeme.exists_of_read_text hread htext
      obtain ⟨content, rfl⟩ := Event.exists_of_ofText hevent
      have hopened := Builder.opened_of_step_text hstep hlast
      obtain ⟨hblank, rfl⟩ := (Builder.step_text_top hopened).1 hstep
      rw [List.append_nil]
      exact finish_of_blank hopened hne hplain hevent hblank hplace hrest start
    · -- what follows the token has not changed, or does not matter to it
      have hmarkup (htext : lexeme.token.isText = true) :
          ∀ c ∈ (front ++ rest).head?, c = '<' := by
        cases front with
        | nil => exact absurd ⟨htext, rfl⟩ hend
        | cons c front => exact (Lexeme.head?_of_read_text hread htext).2
      have hlocal : Lexeme.read start (lexeme.spelling ++ (front ++ rest)) =
          .ok (lexeme, front ++ rest) := by
        obtain ⟨c, cs, hcs⟩ := List.exists_cons_of_ne_nil hne
        rw [hcs, List.cons_append] at hread
        exact Lexeme.read_local hread hmarkup
      rw [List.append_assoc, finish_of_token hne hlocal hevent hstep]
      exact ih hlast hrest

/-! ## Other spellings -/

open Lexeme in
/-- The second text is the first one with an element without content written the other way, or
without its declaration, or without its document type. -/
inductive Variant (text : String) : String → Prop where
  /-- An empty tag becomes a start tag and an end tag. -/
  | opened {front back : List Lexeme} {name attributes spelling : List Char}
      (htokens : tokensOf text = front ++ ⟨.emptyTag name attributes, spelling⟩ :: back) :
    Variant text (String.ofList (spellAll front ++
      ((Token.startTag name attributes).render ++ ((Token.endTag name).render ++ spellAll back))))
  /-- A start tag with its end tag right behind it becomes an empty tag. -/
  | closed {front back : List Lexeme} {name attributes spelling spelling' : List Char}
      (htokens : tokensOf text =
        front ++ ⟨.startTag name attributes, spelling⟩ :: ⟨.endTag name, spelling'⟩ :: back) :
    Variant text (String.ofList (spellAll front ++
      ((Token.emptyTag name attributes).render ++ spellAll back)))
  /-- The XML declaration is left out. -/
  | undeclared {front back : List Lexeme} {target : List Char} {data : Option (List Char)}
      {spelling : List Char}
      (htokens : tokensOf text = front ++ ⟨.declaration target data, spelling⟩ :: back) :
    Variant text (String.ofList (spellAll front ++ spellAll back))
  /-- The document type is left out. -/
  | untyped {front back : List Lexeme} {body spelling : List Char}
      (htokens : tokensOf text = front ++ ⟨.doctype body, spelling⟩ :: back) :
    Variant text (String.ofList (spellAll front ++ spellAll back))

namespace Meets

variable {front back : List Lexeme} {lexeme : Lexeme} {middle next : Builder} {event : Event}
  {tree : Tree} {name attributes spelling : List Char}

/-- **An empty tag may be written as two tags.** -/
theorem parse_opened
    (h : Meets front ⟨.emptyTag name attributes, spelling⟩ back middle next event tree) :
    parse (String.ofList (Lexeme.spellAll front ++ ((Token.startTag name attributes).render ++
      ((Token.endTag name).render ++ Lexeme.spellAll back)))) = .ok tree := by
  obtain ⟨hname, hspace⟩ := Event.section_of_read h.read (.inr rfl)
  obtain ⟨as, rfl, hstart, -⟩ := Event.tagSpelled_of_ofTag hname hspace h.meaning
  obtain ⟨entries, hgrounded⟩ := h.grounded
  obtain ⟨inside, hopen, hclose⟩ := (Builder.addElement_eq_ok_iff hgrounded).1 h.step
  obtain ⟨token, hread, htoken⟩ := hstart.exists_read (Utf8.size (Lexeme.spellAll front))
    ((Token.endTag name).render ++ Lexeme.spellAll back)
  have hend (start : Nat) :
      Lexeme.read start ((Token.endTag name).render ++ Lexeme.spellAll back) =
        .ok (⟨.endTag name, (Token.endTag name).render⟩, Lexeme.spellAll back) :=
    Lexeme.read_endTag start hname (Lexeme.spellAll back)
  refine parse_of_passes h.passes (by simp [Token.render]) ?_
  rw [finish_of_token (by simp [Token.render]) hread htoken hopen,
    finish_of_token (by simp [Token.render, endTagOpening]) (hend _) rfl hclose]
  exact finish_elsewhere h.place_ne_zero h.rest _

/-- **Two tags with nothing between them may be written as one.** -/
theorem parse_closed {spelling' : List Char}
    (h : Meets front ⟨.startTag name attributes, spelling⟩ (⟨.endTag name, spelling'⟩ :: back)
      middle next event tree) :
    parse (String.ofList (Lexeme.spellAll front ++
      ((Token.emptyTag name attributes).render ++ Lexeme.spellAll back))) = .ok tree := by
  obtain ⟨hname, hspace⟩ := Event.section_of_read h.read (.inl rfl)
  obtain ⟨as, rfl, -, hempty⟩ := Event.tagSpelled_of_ofTag hname hspace h.meaning
  obtain ⟨entries, hgrounded⟩ := h.grounded
  obtain ⟨failure, hreads⟩ := h.behind
  obtain ⟨event', last, -, -, hevent', hclose, -, hrest⟩ := exists_of_reads_cons hreads h.rest
  obtain rfl : Event.endElement (String.ofList name) = event' := Except.ok.inj hevent'
  have hadd : middle.step (.emptyElement (String.ofList name) as) = .ok last :=
    (Builder.addElement_eq_ok_iff hgrounded).2 ⟨next, h.step, hclose⟩
  obtain ⟨token, hread, htoken⟩ := hempty.exists_read (Utf8.size (Lexeme.spellAll front))
    (Lexeme.spellAll back)
  have hplace := h.place_ne_zero
  refine parse_of_passes h.passes (by simp [Token.render]) ?_
  rw [finish_of_token (by simp [Token.render]) hread htoken hadd]
  exact finish_elsewhere (by omega) hrest _

/-- **The declaration may be left out**: it stands at the start, and says nothing. -/
theorem parse_undeclared {target : List Char} {data : Option (List Char)}
    (h : Meets front ⟨.declaration target data, spelling⟩ back middle next event tree) :
    parse (String.ofList (Lexeme.spellAll front ++ Lexeme.spellAll back)) = .ok tree := by
  have hstart : Utf8.size (Lexeme.spellAll front) = 0 := Lexeme.sound_of_read h.read
  have hfront : Lexeme.spellAll front = [] := by
    cases hchars : Lexeme.spellAll front with
    | nil => rfl
    | cons c cs =>
      have hpos := c.utf8Size_pos
      rw [hchars, Utf8.size_cons] at hstart
      omega
  have hpasses := h.passes
  rw [hfront] at hpasses ⊢
  obtain rfl := hpasses.eq_of_nil
  obtain rfl : event = .declaration := by
    obtain ⟨as, hevent, -⟩ := Event.exists_of_ofTag h.meaning
    exact hevent
  obtain rfl : Builder.start = next := Except.ok.inj h.step
  rw [parse_eq_finish, String.toList_ofList]
  exact finish_elsewhere h.place_ne_zero h.rest 0

/-- **The document type may be left out**, also if there is text on both sides of it. -/
theorem parse_untyped {body : List Char}
    (h : Meets front ⟨.doctype body, spelling⟩ back middle next event tree) :
    parse (String.ofList (Lexeme.spellAll front ++ Lexeme.spellAll back)) = .ok tree := by
  obtain rfl : Event.doctype (String.ofList body) = event := Except.ok.inj h.meaning
  obtain ⟨hbefore, -⟩ := Builder.progress_of_addDoctype h.step
  have hopened : middle.opened = [] := congrArg Progress.opened hbefore
  have hfirst : middle.hasDoctype = false := congrArg Progress.hasDoctype hbefore
  obtain rfl : middle.noting true = next := by
    have hstep := h.step
    obtain ⟨tree, opened, hasRoot, hasDoctype⟩ := middle
    obtain rfl : opened = [] := hopened
    obtain rfl : hasRoot = false := congrArg Progress.hasRoot hbefore
    obtain rfl : hasDoctype = false := hfirst
    exact Except.ok.inj hstep
  have hwithout : middle.noting false = middle := by
    rw [← hfirst]
    rfl
  have hrest := finish_noting h.rest false
  rw [hwithout] at hrest
  rw [parse_eq_finish, String.toList_ofList]
  exact finish_joined h.passes hopened h.place_ne_zero hrest

end Meets

/-- **One other spelling gives the same tree.** -/
theorem parse_variant {text other : String} {tree : Tree} (h : parse text = .ok tree)
    (hvariant : Variant text other) : parse other = .ok tree := by
  cases hvariant with
  | opened htokens =>
    obtain ⟨middle, next, event, hmeets⟩ := exists_meets_of_parse h htokens
    exact hmeets.parse_opened
  | closed htokens =>
    obtain ⟨middle, next, event, hmeets⟩ := exists_meets_of_parse h htokens
    exact hmeets.parse_closed
  | undeclared htokens =>
    obtain ⟨middle, next, event, hmeets⟩ := exists_meets_of_parse h htokens
    exact hmeets.parse_undeclared
  | untyped htokens =>
    obtain ⟨middle, next, event, hmeets⟩ := exists_meets_of_parse h htokens
    exact hmeets.parse_untyped

/-- **Lexical variants give the same tree.** If a text is a document, then so is every text that
comes of it by writing elements without content as one tag or as two, and by leaving out the XML
declaration or the document type; and the tree is the same, node by node. -/
theorem parse_variants {text other : String} {tree : Tree} (h : parse text = .ok tree)
    (hvariants : Relation.ReflTransGen Variant text other) : parse other = .ok tree := by
  induction hvariants with
  | refl => exact h
  | tail _ hvariant ih => exact parse_variant ih hvariant

/-- A document without its type, of which the blank text on both sides becomes one text, and with
an empty tag written as two tags. -/
theorem parse_variants_untyped :
    ∃ tree, parse "\n<!DOCTYPE a>\n<a><b c='1'/></a>" = .ok tree ∧
      parse "\n\n<a><b c='1'></b></a>" = .ok tree := by
  have hparse : parse "\n<!DOCTYPE a>\n<a><b c='1'/></a>" =
      .ok (Forest.tree (.cons ⟨.element, "a", "", []⟩
        (.cons ⟨.element, "b", "", [⟨"c", "1"⟩]⟩ .nil .nil) .nil)) := by
    decide +kernel
  have huntyped : Variant "\n<!DOCTYPE a>\n<a><b c='1'/></a>" "\n\n<a><b c='1'/></a>" := by
    let tokens := tokensOf "\n<!DOCTYPE a>\n<a><b c='1'/></a>"
    have htokens : tokens = tokens.take 1 ++
        ⟨.doctype ['a'], "<!DOCTYPE a>".toList⟩ :: tokens.drop 2 := by
      decide +kernel
    have htext : String.ofList (Lexeme.spellAll (tokens.take 1) ++
        Lexeme.spellAll (tokens.drop 2)) = "\n\n<a><b c='1'/></a>" := by
      decide +kernel
    rw [← htext]
    exact .untyped htokens
  have hopened : Variant "\n\n<a><b c='1'/></a>" "\n\n<a><b c='1'></b></a>" := by
    let tokens := tokensOf "\n\n<a><b c='1'/></a>"
    have htokens : tokens = tokens.take 2 ++
        ⟨.emptyTag ['b'] " c='1'".toList, "<b c='1'/>".toList⟩ :: tokens.drop 3 := by
      decide +kernel
    have htext : String.ofList (Lexeme.spellAll (tokens.take 2) ++
        ((Token.startTag ['b'] " c='1'".toList).render ++ ((Token.endTag ['b']).render ++
          Lexeme.spellAll (tokens.drop 3)))) = "\n\n<a><b c='1'></b></a>" := by
      decide +kernel
    rw [← htext]
    exact .opened htokens
  exact ⟨_, hparse, parse_variants hparse (.tail (.single huntyped) hopened)⟩

end Groundwork
