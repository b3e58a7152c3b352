import Groundwork.Proofs.Tree.Derivation
import Groundwork.Proofs.Tree.Reparse
import Groundwork.Proofs.Xml.Locality

/-!
# `Proofs.Tree.Stop` — where parsing stops

A text is taken in token by token. If it is no document, there is a first token that cannot be read,
or cannot be understood, or is refused where it stands; or else the text ends with an element still
open. All before that place has been taken in, and goes on to be taken in when something else
follows it: the end tags of the elements that are open there make a document of it. So the text is
the start of a document up to the token that a parse error is about.

## Contents

* `Passes`, `Stops` — tokens that are taken in, and why the next one is not.
* `Tree.finish`, `finish_of_passes` — what parsing makes of the rest of a text.
* `exists_stops` — **a text that is no document is taken in up to some place.**
* `Passes.other`, `closing`, `exists_finish_closing` — how a text goes on to be a document.
* `PlacedAt`, `placedAt_of_stops` — where an error is reported.
* `Stop`, `stop_of_parse_error` — **errors are reported at the first token at fault.**
-/

namespace Groundwork

open Text Xml Groundwork.Tree

/-! ## Tokens that are taken in -/

/-- The text up to `back` is made of whole tokens, the first at this byte offset, which can be read
and understood, and take the construction of a tree from one state to another. -/
inductive Passes (back : List Char) : Builder → Nat → List Char → Builder → Prop where
  | nil (builder : Builder) (start : Nat) : Passes back builder start [] builder
  | token {builder next last : Builder} {start : Nat} {front : List Char} {lexeme : Lexeme}
      {event : Event} (hne : lexeme.spelling ≠ [])
      (hread : Lexeme.read start (lexeme.spelling ++ (front ++ back)) = .ok (lexeme, front ++ back))
      (hevent : Event.ofToken lexeme.token = .ok event) (hstep : builder.step event = .ok next)
      (hrest : Passes back next (start + lexeme.size) front last) :
    Passes back builder start (lexeme.spelling ++ front) last

/-- Why the text from a byte offset on is not taken in. -/
inductive Stops (builder : Builder) (start : Nat) : List Char → ParseError → Prop where
  /-- There is a token that cannot be read. -/
  | unread {c : Char} {cs : List Char} {e : ParseError}
      (hread : Lexeme.read start (c :: cs) = .error e) : Stops builder start (c :: cs) e
  /-- There is a token that cannot be understood. -/
  | misread {c : Char} {cs rest : List Char} {lexeme : Lexeme} {fault : Fault}
      (hread : Lexeme.read start (c :: cs) = .ok (lexeme, rest))
      (hevent : Event.ofToken lexeme.token = .error fault) :
    Stops builder start (c :: cs) ⟨fault, start⟩
  /-- There is a token that may not stand here. -/
  | refused {c : Char} {cs rest : List Char} {lexeme : Lexeme} {event : Event} {fault : Fault}
      (hread : Lexeme.read start (c :: cs) = .ok (lexeme, rest))
      (hevent : Event.ofToken lexeme.token = .ok event)
      (hstep : builder.step event = .error fault) :
    Stops builder start (c :: cs) ⟨fault, start⟩
  /-- There is no token left, and this element is the outermost of those still open. -/
  | unclosed {element : OpenElement} (hopened : builder.opened.getLast? = some element) :
    Stops builder start [] ⟨.unclosedTag element.name, start⟩

namespace Tree

/-- What parsing makes of the text from a byte offset on. -/
def finish (builder : Builder) (start : Nat) (cs : List Char) : Except ParseError Tree :=
  match builder.run (Event.reading start cs).1 with
  | .error e => .error e
  | .ok builder =>
    match (Event.reading start cs).2 with
    | some e => .error e
    | none =>
      match builder.opened.getLast? with
      | some element => .error ⟨.unclosedTag element.name, start + Utf8.size cs⟩
      | none => .ok builder.tree

theorem parse_eq_finish (text : String) : parse text = finish .start 0 text.toList := by
  have hsize : 0 + Utf8.size text.toList = text.utf8ByteSize := by
    rw [utf8ByteSize_eq, Nat.zero_add]
  unfold finish
  rw [hsize]
  rfl

variable {builder next last : Builder} {start : Nat} {c : Char} {cs rest : List Char}
  {lexeme : Lexeme} {event : Event}

/-- A token that is taken in. -/
theorem finish_of_step (hread : Lexeme.read start (c :: cs) = .ok (lexeme, rest))
    (hevent : Event.ofToken lexeme.token = .ok event) (hstep : builder.step event = .ok next) :
    finish builder start (c :: cs) = finish next (start + lexeme.size) rest := by
  have hsize : start + Utf8.size (c :: cs) = start + lexeme.size + Utf8.size rest := by
    rw [Lexeme.eq_of_read hread, Utf8.size_append, Lexeme.size, Nat.add_assoc]
  unfold finish
  rw [Event.reading_of_read hread hevent, hsize]
  simp only [Builder.run, hstep]

theorem finish_of_unread {e : ParseError} (hread : Lexeme.read start (c :: cs) = .error e) :
    finish builder start (c :: cs) = .error e := by
  simp only [finish, Event.reading_of_unread hread, Builder.run]

theorem finish_of_misread {fault : Fault}
    (hread : Lexeme.read start (c :: cs) = .ok (lexeme, rest))
    (hevent : Event.ofToken lexeme.token = .error fault) :
    finish builder start (c :: cs) = .error ⟨fault, start⟩ := by
  simp only [finish, Event.reading_of_misread hread hevent, Builder.run]

theorem finish_of_refused {fault : Fault}
    (hread : Lexeme.read start (c :: cs) = .ok (lexeme, rest))
    (hevent : Event.ofToken lexeme.token = .ok event)
    (hstep : builder.step event = .error fault) :
    finish builder start (c :: cs) = .error ⟨fault, start⟩ := by
  simp only [finish, Event.reading_of_read hread hevent, Builder.run, hstep]

theorem finish_of_passes {front back : List Char} (h : Passes back builder start front last) :
    finish builder start (front ++ back) = finish last (start + Utf8.size front) back := by
  induction h with
  | nil builder start => rfl
  | @token builder next last start front lexeme event hne hread hevent hstep _ ih =>
    obtain ⟨c, cs, hcs⟩ := List.exists_cons_of_ne_nil hne
    have hsize : start + Utf8.size (lexeme.spelling ++ front) =
        start + lexeme.size + Utf8.size front := by
      rw [Utf8.size_append, Lexeme.size, Nat.add_assoc]
    rw [hsize, ← ih, List.append_assoc]
    rw [hcs, List.cons_append] at hread ⊢
    exact finish_of_step hread hevent hstep

/-- **A text that is no document is taken in up to some place**, where it stops. -/
theorem exists_stops (builder : Builder) (start : Nat) (cs : List Char) {e : ParseError}
    (h : finish builder start cs = .error e) :
    ∃ front back last, cs = front ++ back ∧ Passes back builder start front last ∧
      Stops last (start + Utf8.size front) back e := by
  match cs with
  | [] =>
    refine ⟨[], [], builder, rfl, .nil builder start, ?_⟩
    unfold finish at h
    simp only [Event.reading_nil, Builder.run] at h
    split at h
    · next element hopened =>
      obtain rfl := Except.error.inj h
      exact .unclosed hopened
    · cases h
  | c :: cs =>
    cases hread : Lexeme.read start (c :: cs) with
    | error e' =>
      obtain rfl := Except.error.inj ((finish_of_unread hread).symm.trans h)
      exact ⟨[], c :: cs, builder, rfl, .nil builder start, .unread hread⟩
    | ok found =>
      obtain ⟨lexeme, rest⟩ := found
      cases hevent : Event.ofToken lexeme.token with
      | error fault =>
        obtain rfl := Except.error.inj ((finish_of_misread hread hevent).symm.trans h)
        exact ⟨[], c :: cs, builder, rfl, .nil builder start, .misread hread hevent⟩
      | ok event =>
        cases hstep : builder.step event with
        | error fault =>
          obtain rfl := Except.error.inj ((finish_of_refused hread hevent hstep).symm.trans h)
          exact ⟨[], c :: cs, builder, rfl, .nil builder start, .refused hread hevent hstep⟩
        | ok next =>
          have hlen : rest.length < (c :: cs).length := Lexeme.length_read hread
          have hcs := Lexeme.eq_of_read hread
          rw [finish_of_step hread hevent hstep] at h
          obtain ⟨front, back, last, rfl, hpasses, hstops⟩ :=
            exists_stops next (start + lexeme.size) rest h
          refine ⟨lexeme.spelling ++ front, back, last, by rw [hcs, List.append_assoc], ?_, ?_⟩
          · rw [hcs] at hread
            exact .token (Lexeme.spelling_ne_nil_of_read (hcs ▸ hread)) hread hevent hstep hpasses
          · rw [Utf8.size_append, ← Nat.add_assoc]
            exact hstops
termination_by cs.length
decreasing_by exact hlen

end Tree

/-! ## Another rest -/

/-- What has been taken in is taken in just so in front of another rest, if markup starts there or
nothing is left. -/
theorem Passes.other {back : List Char} {builder last : Builder} {start : Nat} {front : List Char}
    (h : Passes back builder start front last) {other : List Char}
    (hother : ∀ c ∈ other.head?, c = '<') : Passes other builder start front last := by
  induction h with
  | nil builder start => exact .nil builder start
  | @token builder next last start front lexeme event hne hread hevent hstep _ ih =>
    obtain ⟨c, cs, hcs⟩ := List.exists_cons_of_ne_nil hne
    refine .token hne ?_ hevent hstep ih
    -- a text is followed by the next token taken in, or else by the other rest
    have hmarkup (htext : lexeme.token.isText = true) :
        ∀ d ∈ (front ++ other).head?, d = '<' := by
      cases front with
      | nil => exact hother
      | cons d front => exact (Lexeme.head?_of_read_text hread htext).2
    rw [hcs, List.cons_append] at hread
    exact Lexeme.read_local hread hmarkup

/-! ## The end tags of what is open -/

namespace Builder

/-- The open elements have names that can be written. -/
def Named (builder : Builder) : Prop :=
  ∀ element ∈ builder.opened, isName element.name.toList = true

variable {builder next : Builder}

theorem Named.of_opened (h : builder.Named) (hopened : next.opened = builder.opened) :
    next.Named := by
  intro element helement
  rw [hopened] at helement
  exact h element helement

theorem Named.addText (h : builder.Named) {content : String} {fault : Option Fault}
    (hstep : builder.addText content fault = .ok next) : next.Named := by
  cases hopened : builder.opened with
  | nil => exact h.of_opened (congrArg Progress.opened (progress_of_addText_top hopened hstep).2)
  | cons element opened =>
    have hnext : next.opened = { element with text := element.text ++ content } :: opened :=
      congrArg Progress.opened (progress_of_addText hopened hstep)
    unfold Named at h
    rw [hopened] at h
    intro other hother
    rw [hnext] at hother
    rcases List.mem_cons.1 hother with rfl | hbelow
    · exact h element List.mem_cons_self
    · exact h other (List.mem_cons_of_mem _ hbelow)

/-- An event that has been read leaves the open elements with names. -/
theorem Named.step (h : builder.Named) {event : Event} (hsound : event.Sound)
    (hstep : builder.step event = .ok next) : next.Named := by
  cases event with
  | startElement name attributes =>
    obtain ⟨-, -, id, hprogress⟩ := progress_of_openElement hstep
    have hopened : next.opened = ⟨id, name, builder.progress.nesting + 1, ""⟩ :: builder.opened :=
      congrArg Progress.opened hprogress
    intro element helement
    rw [hopened] at helement
    rcases List.mem_cons.1 helement with rfl | hbelow
    · exact hsound.1
    · exact h element hbelow
  | emptyElement name attributes =>
    exact h.of_opened (congrArg Progress.opened (progress_of_addElement hstep).2.2)
  | endElement name =>
    obtain ⟨element, opened, hbefore, -, hprogress⟩ := progress_of_closeElement hstep
    have hopened : next.opened = opened := congrArg Progress.opened hprogress
    intro other hother
    exact h other (by rw [hbefore, ← hopened]; exact List.mem_cons_of_mem _ hother)
  | text content => exact h.addText hstep
  | cdata content =>
    have hadd : builder.addText content (some .cdataOutsideRoot) = .ok next := hstep
    exact h.addText hadd
  | comment content =>
    exact h.of_opened (congrArg Progress.opened (progress_of_addNode hstep).2)
  | instruction target data =>
    exact h.of_opened (congrArg Progress.opened (progress_of_addNode hstep).2)
  | declaration =>
    obtain rfl := Except.ok.inj hstep
    exact h
  | doctype body =>
    obtain ⟨hbefore, hafter⟩ := progress_of_addDoctype hstep
    exact h.of_opened (by
      rw [show next.opened = [] from congrArg Progress.opened hafter,
        show builder.opened = [] from congrArg Progress.opened hbefore])

theorem isPlain_of_addNode {node : Option NodeId → Nat → Node} {fault : Fault}
    (h : builder.addNode node = .error fault) : fault.isPlain = true := by
  simp only [addNode] at h
  split at h
  · cases h
  · obtain rfl := Except.error.inj h
    rfl

theorem isPlain_of_addElement {name : String} {attributes : List Attribute} {fault : Fault}
    (h : builder.addElement name attributes = .error fault) : fault.isPlain = true := by
  simp only [addElement] at h
  split at h
  · obtain rfl := Except.error.inj h
    rfl
  · split at h
    · cases h
    · next hadd =>
      obtain rfl := Except.error.inj h
      exact isPlain_of_addNode hadd

theorem isPlain_of_openElement {name : String} {attributes : List Attribute} {fault : Fault}
    (h : builder.openElement name attributes = .error fault) : fault.isPlain = true := by
  simp only [openElement] at h
  split at h
  · cases h
  · next hadd =>
    obtain rfl := Except.error.inj h
    exact isPlain_of_addElement hadd

theorem isPlain_of_closeElement {name : String} {fault : Fault}
    (h : builder.closeElement name = .error fault) : fault.isPlain = true := by
  unfold closeElement at h
  split at h
  · obtain rfl := Except.error.inj h
    rfl
  · split at h
    · cases h
    · obtain rfl := Except.error.inj h
      rfl

theorem isPlain_of_addText {content : String} {atTop : Option Fault} {fault : Fault}
    (h : builder.addText content atTop = .error fault)
    (htop : ∀ fault ∈ atTop, fault.isPlain = true) : fault.isPlain = true := by
  unfold addText at h
  split at h
  · cases h
  · split at h
    · obtain rfl := Except.error.inj h
      exact htop _ rfl
    · cases h

theorem isPlain_of_addDoctype {fault : Fault} (h : builder.addDoctype = .error fault) :
    fault.isPlain = true := by
  unfold addDoctype at h
  split at h
  · obtain rfl := Except.error.inj h
    rfl
  split at h
  · obtain rfl := Except.error.inj h
    rfl
  · cases h

/-- A token that is refused has a fault that is reported at its start. -/
theorem isPlain_of_step {event : Event} {fault : Fault} (h : builder.step event = .error fault) :
    fault.isPlain = true := by
  cases event with
  | startElement name attributes => exact isPlain_of_openElement h
  | emptyElement name attributes => exact isPlain_of_addElement h
  | endElement name => exact isPlain_of_closeElement h
  | text content =>
    refine isPlain_of_addText h fun fault hfault => ?_
    split at hfault
    · cases hfault
    · obtain rfl := Option.some.inj hfault
      rfl
  | cdata content =>
    have hadd : builder.addText content (some .cdataOutsideRoot) = .error fault := h
    refine isPlain_of_addText hadd fun fault hfault => ?_
    obtain rfl := Option.some.inj hfault
    rfl
  | comment content => exact isPlain_of_addNode h
  | instruction target data => exact isPlain_of_addNode h
  | declaration => cases h
  | doctype body => exact isPlain_of_addDoctype h

end Builder

theorem Passes.named {back : List Char} {builder last : Builder} {start : Nat} {front : List Char}
    (h : Passes back builder start front last) (hnamed : builder.Named) : last.Named := by
  induction h with
  | nil builder start => exact hnamed
  | token hne hread hevent hstep _ ih =>
    exact ih (hnamed.step (Event.sound_of_ofToken (Lexeme.sound_of_read hread) hevent) hstep)

/-- The end tags of open elements, the innermost first. -/
def closing (opened : List OpenElement) : List Char :=
  opened.flatMap fun element => endTagOpening ++ element.name.toList ++ ['>']

theorem head?_closing (opened : List OpenElement) : ∀ c ∈ (closing opened).head?, c = '<' := by
  intro c hc
  cases opened with
  | nil => simp [closing] at hc
  | cons element opened =>
    have heq : '<' = c := by simpa [closing, endTagOpening] using hc
    exact heq.symm

/-- **The end tags of what is open make a document of it.** -/
theorem exists_finish_closing {builder : Builder} (h : builder.Named) (start : Nat) :
    ∃ tree, finish builder start (closing builder.opened) = .ok tree := by
  obtain ⟨tree, opened, hasRoot, hasDoctype⟩ := builder
  induction opened generalizing tree start with
  | nil => exact ⟨tree, by simp [finish, closing, Event.reading_nil, Builder.run]⟩
  | cons element opened ih =>
    have hname : isName element.name.toList = true := h element List.mem_cons_self
    have hread := Lexeme.read_endTag start hname (closing opened)
    have hstep : ∃ tree', (Builder.mk tree (element :: opened) hasRoot hasDoctype).step
        (.endElement (String.ofList element.name.toList)) =
          .ok ⟨tree', opened, hasRoot, hasDoctype⟩ := by
      simp [Builder.step, Builder.closeElement]
    obtain ⟨tree', hstep⟩ := hstep
    obtain ⟨result, hresult⟩ := ih _ tree' fun other hother =>
      h other (List.mem_cons_of_mem _ hother)
    refine ⟨result, ?_⟩
    show finish _ start ('<' :: _) = _
    exact (finish_of_step hread rfl hstep).trans hresult

/-! ## Errors -/

/-- Where an error is reported, if parsing stops in front of `cs`: at the start of the token at
fault, or behind the name of an element, or, at the end of the text, for an element that is still
open. -/
inductive PlacedAt (start : Nat) (cs : List Char) (e : ParseError) : Prop where
  | plain (h : e.PlainAt start)
  | behindName (h : e.BehindName start cs)
  | unclosed {name : String} (hcs : cs = []) (hfault : e.fault = .unclosedTag name)
      (hposition : e.position = start)

/-- **Where parsing stops, the error is reported.** -/
theorem placedAt_of_stops {builder : Builder} {start : Nat} {cs : List Char} {e : ParseError}
    (h : Stops builder start cs e) : PlacedAt start cs e := by
  cases h with
  | unread hread =>
    rcases Lexeme.place_of_read hread with hplain | hbehind
    · exact .plain hplain
    · exact .behindName hbehind
  | misread _ hevent => exact .plain ⟨rfl, isPlain_of_ofToken hevent⟩
  | refused _ _ hstep => exact .plain ⟨rfl, Builder.isPlain_of_step hstep⟩
  | unclosed _ => exact .unclosed rfl rfl rfl

theorem isValid_of_append {text : String} {front back : List Char}
    (h : text.toList = front ++ back) : String.Pos.Raw.IsValid text ⟨Utf8.size front⟩ := by
  rw [String.Pos.Raw.isValid_iff_exists_append]
  refine ⟨String.ofList front, String.ofList back, ?_, ?_⟩
  · rw [← String.ofList_append, ← h, String.ofList_toList]
  · rw [String.rawEndPos, utf8ByteSize_eq, String.toList_ofList]

namespace PlacedAt

variable {start : Nat} {cs : List Char} {e : ParseError}

theorem eq_nil_of_unclosedTag (h : PlacedAt start cs e) {name : String}
    (hfault : e.fault = .unclosedTag name) : cs = [] := by
  cases h with
  | plain h => exact absurd h.2 (by simp [Fault.isPlain, hfault])
  | behindName h => exact absurd (h.1.symm.trans hfault) (by simp)
  | unclosed hcs => exact hcs

theorem position_eq (h : PlacedAt start cs e) (hfault : e.fault ≠ .invalidNameCharacter) :
    e.position = start := by
  cases h with
  | plain h => exact h.1
  | behindName h => exact absurd h.1 hfault
  | unclosed _ _ hposition => exact hposition

theorem behindName_of_eq (h : PlacedAt start cs e) (hfault : e.fault = .invalidNameCharacter) :
    e.BehindName start cs := by
  cases h with
  | plain h => exact absurd h.2 (by simp [Fault.isPlain, hfault])
  | behindName h => exact h
  | unclosed _ hopen => exact absurd (hopen.symm.trans hfault) (by simp)

/-- The place lies between two characters. -/
theorem isValid {text : String} {front : List Char} (h : PlacedAt (Utf8.size front) cs e)
    (htext : text.toList = front ++ cs) : String.Pos.Raw.IsValid text ⟨e.position⟩ := by
  cases h with
  | plain h => exact h.1 ▸ isValid_of_append htext
  | unclosed _ _ hposition => exact hposition ▸ isValid_of_append htext
  | behindName h =>
    obtain ⟨-, name, after, hcs, -, hposition⟩ := h
    have hsplit : text.toList = (front ++ '<' :: name) ++ after := by
      rw [htext, hcs]
      simp
    have hsize : Utf8.size (front ++ '<' :: name) = e.position := by
      rw [hposition, Utf8.size_append, Utf8.size_cons, Nat.add_assoc]
      rfl
    exact hsize ▸ isValid_of_append hsplit

end PlacedAt

/-- The text is taken in up to `back`, where parsing stops with this error. -/
structure Stop (text : String) (e : ParseError) (front back : List Char) (builder : Builder) :
    Prop where
  parts : text.toList = front ++ back
  passes : Passes back .start 0 front builder
  stops : Stops builder (Utf8.size front) back e
  /-- An element that is still open is reported at the end of the text. -/
  unclosed : ∀ name, e.fault = .unclosedTag name → back = []
  /-- The place is where the token at fault starts. -/
  position : e.fault ≠ .invalidNameCharacter → e.position = Utf8.size front
  /-- Only if the name of an element runs on into something else, the place is behind the name. -/
  behindName : e.fault = .invalidNameCharacter → e.BehindName (Utf8.size front) back
  /-- The place lies in the text, between two characters. -/
  bounded : e.position ≤ text.utf8ByteSize
  boundary : String.Pos.Raw.IsValid text ⟨e.position⟩
  /-- Up to there the text is the start of a document. -/
  viable : ∃ more tree, parse (String.ofList front ++ more) = .ok tree

/-- What has been taken in is the start of a document. -/
theorem exists_parse_of_passes {front back : List Char} {builder : Builder}
    (h : Passes back .start 0 front builder) :
    ∃ more tree, parse (String.ofList front ++ more) = .ok tree := by
  have hnamed : builder.Named := h.named (List.forall_mem_nil _)
  obtain ⟨tree, htree⟩ := exists_finish_closing hnamed (0 + Utf8.size front)
  refine ⟨String.ofList (closing builder.opened), tree, ?_⟩
  rw [parse_eq_finish, String.toList_append, String.toList_ofList, String.toList_ofList,
    finish_of_passes (h.other (head?_closing builder.opened)), htree]

/-- **Errors are reported at the first token at fault.** -/
theorem stop_of_parse_error {text : String} {e : ParseError} (h : parse text = .error e) :
    ∃ front back builder, Stop text e front back builder := by
  rw [parse_eq_finish] at h
  obtain ⟨front, back, builder, hparts, hpasses, hstops⟩ := exists_stops _ _ _ h
  rw [Nat.zero_add] at hstops
  have hplaced := placedAt_of_stops hstops
  have hboundary := hplaced.isValid hparts
  exact ⟨front, back, builder, {
    parts := hparts
    passes := hpasses
    stops := hstops
    unclosed := fun _ hfault => hplaced.eq_nil_of_unclosedTag hfault
    position := hplaced.position_eq
    behindName := hplaced.behindName_of_eq
    bounded := hboundary.le_utf8ByteSize
    boundary := hboundary
    viable := exists_parse_of_passes hpasses }⟩

/-- A name that runs on into something else inside an open element. -/
theorem stop_of_parse_error_name :
    parse "<a><b!/></a>" = .error ⟨.invalidNameCharacter, 5⟩ ∧
      ∃ front back builder, Stop "<a><b!/></a>" ⟨.invalidNameCharacter, 5⟩ front back builder := by
  have hparse : parse "<a><b!/></a>" = .error ⟨.invalidNameCharacter, 5⟩ := by decide +kernel
  exact ⟨hparse, stop_of_parse_error hparse⟩

end Groundwork
