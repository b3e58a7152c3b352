import Groundwork.Proofs.Xml.Attribute
import Groundwork.Xml.Token.Lexer
import Mathlib.Data.List.Basic

/-!
# `Proofs.Xml.Lexeme` — each kind of token, written and read

One lemma for each kind of token says that its spelling, with anything behind it, is read back as
this token and this spelling, and that the rest is left. The conditions are those under which the
spelling can be told from its surroundings; a text token alone also asks that markup or the end of
the text follows. The other way round, `Markup` says once what can be read where markup starts, and
`Sound` gathers what follows for every token.

## Contents

* `read_comment`, `read_cdata`, `read_instruction`, `read_declaration`, `read_endTag_gap`,
  `read_startTag`, `read_emptyTag`, `read_text` — spellings are read back.
* `exists_of_readStartTag` — what a tag that has been read is made of.
* `Markup`, `markup_or_text_of_read` — **what has been read**, one case for each kind of token.
* `Token.Sound`, `sound_of_read` — what a token that has been read satisfies.
-/

namespace Groundwork.Xml

open Text

namespace Lexeme

/-! ## Which reader is chosen -/

theorem read_cons_markup (start : Nat) (cs : List Char) :
    read start ('<' :: cs) = readMarkup start ('<' :: cs) := by
  rw [read]
  exact if_pos rfl

theorem readMarkup_comment (start : Nat) (cs : List Char) :
    readMarkup start (commentOpening ++ cs) = readComment start cs := by
  simp [readMarkup]

theorem readMarkup_cdata (start : Nat) (cs : List Char) :
    readMarkup start (cdataOpening ++ cs) = readCData start cs := by
  have hcomment : stripFront? commentOpening (cdataOpening ++ cs) = none := rfl
  simp [readMarkup, hcomment]

theorem readMarkup_doctype (start : Nat) (cs : List Char) :
    readMarkup start (doctypeOpening ++ cs) = readDoctype start cs := by
  have hcomment : stripFront? commentOpening (doctypeOpening ++ cs) = none := rfl
  have hcdata : stripFront? cdataOpening (doctypeOpening ++ cs) = none := rfl
  simp [readMarkup, hcomment, hcdata]

theorem readMarkup_instruction (start : Nat) (cs : List Char) :
    readMarkup start (instructionOpening ++ cs) = readInstruction start cs := by
  have hcomment : stripFront? commentOpening (instructionOpening ++ cs) = none := rfl
  have hcdata : stripFront? cdataOpening (instructionOpening ++ cs) = none := rfl
  have hdoctype : stripFront? doctypeOpening (instructionOpening ++ cs) = none := rfl
  simp [readMarkup, hcomment, hcdata, hdoctype]

theorem readMarkup_endTag (start : Nat) (cs : List Char) :
    readMarkup start (endTagOpening ++ cs) = readEndTag start cs := by
  have hcomment : stripFront? commentOpening (endTagOpening ++ cs) = none := rfl
  have hcdata : stripFront? cdataOpening (endTagOpening ++ cs) = none := rfl
  have hdoctype : stripFront? doctypeOpening (endTagOpening ++ cs) = none := rfl
  have hinstruction : stripFront? instructionOpening (endTagOpening ++ cs) = none := rfl
  simp [readMarkup, hcomment, hcdata, hdoctype, hinstruction]

/-- No opening but the plain `<` has the start of a name as its second character. -/
theorem stripFront?_of_isNameStart {opening cs : List Char} {c d : Char}
    (hd : isNameStart d = false) (hc : isNameStart c = true) :
    stripFront? ('<' :: d :: opening) ('<' :: c :: cs) = none := by
  have hne : d ≠ c := by
    rintro rfl
    rw [hd] at hc
    exact Bool.false_ne_true hc
  simp [stripFront?, hne]

theorem readMarkup_startTag (start : Nat) {c : Char} (hc : isNameStart c = true) (cs : List Char) :
    readMarkup start ('<' :: c :: cs) = readStartTag start (c :: cs) := by
  have hcomment : stripFront? commentOpening ('<' :: c :: cs) = none :=
    stripFront?_of_isNameStart (by decide) hc
  have hcdata : stripFront? cdataOpening ('<' :: c :: cs) = none :=
    stripFront?_of_isNameStart (by decide) hc
  have hdoctype : stripFront? doctypeOpening ('<' :: c :: cs) = none :=
    stripFront?_of_isNameStart (by decide) hc
  have hinstruction : stripFront? instructionOpening ('<' :: c :: cs) = none :=
    stripFront?_of_isNameStart (by decide) hc
  have hendTag : stripFront? endTagOpening ('<' :: c :: cs) = none :=
    stripFront?_of_isNameStart (by decide) hc
  simp [readMarkup, hcomment, hcdata, hdoctype, hinstruction, hendTag, stripFront?]

/-! ## Comments, CDATA sections and text -/

theorem isCommentBody_iff {body : List Char} :
    isCommentBody body = true ↔ ¬ ['-', '-'] <:+: body ∧ body.getLast? ≠ some '-' := by
  simp [isCommentBody, contains_eq_false_iff]

theorem read_comment (start : Nat) {body : List Char} (h : isCommentBody body = true)
    (rest : List Char) :
    read start (commentOpening ++ body ++ commentEnd ++ rest) =
      .ok (⟨.comment body, commentOpening ++ body ++ commentEnd⟩, rest) := by
  have hno : ¬ ['-', '-'] ++ ['>'] <:+: body := by
    intro hin
    exact (isCommentBody_iff.1 h).1 ((List.prefix_append _ _).isInfix.trans hin)
  have hsplit : splitOnce? commentEnd (body ++ commentEnd ++ rest) = some (body, rest) :=
    splitOnce?_append (by decide) hno rest
  rw [List.append_assoc, List.append_assoc]
  show read start ('<' :: _) = _
  rw [read_cons_markup]
  show readMarkup start (commentOpening ++ _) = _
  rw [readMarkup_comment, readComment, ← List.append_assoc, hsplit]
  simp [h]

theorem read_cdata (start : Nat) {body : List Char} (h : ¬ cdataEnd <:+: body) (rest : List Char) :
    read start (cdataOpening ++ body ++ cdataEnd ++ rest) =
      .ok (⟨.cdata body, cdataOpening ++ body ++ cdataEnd⟩, rest) := by
  have hno : ¬ [']', ']'] ++ ['>'] <:+: body := h
  have hsplit : splitOnce? cdataEnd (body ++ cdataEnd ++ rest) = some (body, rest) :=
    splitOnce?_append (by decide) hno rest
  rw [List.append_assoc, List.append_assoc]
  show read start ('<' :: _) = _
  rw [read_cons_markup]
  show readMarkup start (cdataOpening ++ _) = _
  rw [readMarkup_cdata, readCData, ← List.append_assoc, hsplit]

/-- Text goes on until markup starts. -/
theorem read_text (start : Nat) {body : List Char} (hne : body ≠ []) (h : '<' ∉ body)
    {rest : List Char} (hrest : ∀ c ∈ rest.head?, c = '<') :
    read start (body ++ rest) = .ok (⟨.text body, body⟩, rest) := by
  have hall : ∀ c ∈ body, (decide (c ≠ '<')) = true := by
    intro c hc
    rw [decide_eq_true_eq]
    rintro rfl
    exact h hc
  have htake : rest.takeWhile (· ≠ '<') = [] := by
    cases rest with
    | nil => rfl
    | cons c rest => simp [hrest c rfl]
  have hdrop : rest.dropWhile (· ≠ '<') = rest := by
    cases rest with
    | nil => rfl
    | cons c rest => simp [hrest c rfl]
  have hhead : ¬ (body ++ rest).head? = some '<' := by
    cases body with
    | nil => exact absurd rfl hne
    | cons c body =>
      have hc := hall c (by simp)
      simpa using hc
  rw [read, if_neg hhead, readText, List.takeWhile_append_of_pos hall,
    List.dropWhile_append_of_pos hall, htake, hdrop, List.append_nil]

/-! ## Instructions and the declaration -/

/-- What stands between a target and the end of its instruction. -/
theorem splitOnce?_instructionEnd {inside : List Char} (h : ¬ instructionEnd <:+: inside)
    (rest : List Char) :
    splitOnce? instructionEnd (inside ++ instructionEnd ++ rest) = some (inside, rest) := by
  have hno : ¬ ['?'] ++ ['>'] <:+: inside := h
  exact splitOnce?_append (by decide) hno rest

theorem readInstruction_append (start : Nat) {target inside : List Char}
    (htarget : isName target = true) (hspace : ∀ c ∈ inside.head?, isSpace c = true)
    (hinside : ¬ instructionEnd <:+: inside) (rest : List Char) :
    readInstruction start (target ++ (inside ++ instructionEnd ++ rest)) =
      if !isReserved target then
        .ok (⟨.instruction target (instructionData inside),
          instructionOpening ++ target ++ inside ++ instructionEnd⟩, rest)
      else if start = 0 then
        .ok (⟨.declaration target (instructionData inside),
          instructionOpening ++ target ++ inside ++ instructionEnd⟩, rest)
      else .error ⟨.misplacedDeclaration, start⟩ := by
  have hhead : ∀ c ∈ inside.head?, isNamePart c = false := fun c hc =>
    isNamePart_of_isSpace (hspace c hc)
  have hname : readName? (target ++ (inside ++ instructionEnd ++ rest)) =
      some (target, inside ++ instructionEnd ++ rest) := by
    rw [List.append_assoc inside]
    exact readName?_append _ htarget (isNamePart_head_append hhead (by decide) _)
  have hgap : ¬ (inside.head?.any fun c => !isSpace c) = true := by
    cases inside with
    | nil => simp
    | cons d inside => simp [hspace d rfl]
  rw [readInstruction, hname]
  simp only [splitOnce?_instructionEnd hinside, if_neg hgap]

theorem read_instruction (start : Nat) {target inside : List Char} (htarget : isName target = true)
    (hfree : isReserved target = false) (hspace : ∀ c ∈ inside.head?, isSpace c = true)
    (hinside : ¬ instructionEnd <:+: inside) (rest : List Char) :
    read start (instructionOpening ++ target ++ inside ++ instructionEnd ++ rest) =
      .ok (⟨.instruction target (instructionData inside),
        instructionOpening ++ target ++ inside ++ instructionEnd⟩, rest) := by
  have hread := readInstruction_append start htarget hspace hinside rest
  rw [hfree] at hread
  have happend : instructionOpening ++ target ++ inside ++ instructionEnd ++ rest =
      instructionOpening ++ (target ++ (inside ++ instructionEnd ++ rest)) := by simp
  rw [happend]
  show read start ('<' :: _) = _
  rw [read_cons_markup]
  show readMarkup start (instructionOpening ++ _) = _
  rw [readMarkup_instruction, hread]
  rfl

/-- The declaration is read at the start of a text only. -/
theorem read_declaration {target inside : List Char} (htarget : isName target = true)
    (hreserved : isReserved target = true) (hspace : ∀ c ∈ inside.head?, isSpace c = true)
    (hinside : ¬ instructionEnd <:+: inside) (rest : List Char) :
    read 0 (instructionOpening ++ target ++ inside ++ instructionEnd ++ rest) =
      .ok (⟨.declaration target (instructionData inside),
        instructionOpening ++ target ++ inside ++ instructionEnd⟩, rest) := by
  have hread := readInstruction_append 0 htarget hspace hinside rest
  rw [hreserved] at hread
  have happend : instructionOpening ++ target ++ inside ++ instructionEnd ++ rest =
      instructionOpening ++ (target ++ (inside ++ instructionEnd ++ rest)) := by simp
  rw [happend]
  show read 0 ('<' :: _) = _
  rw [read_cons_markup]
  show readMarkup 0 (instructionOpening ++ _) = _
  rw [readMarkup_instruction, hread]
  rfl

/-! ## Tags -/

/-- White space may stand before the end of an end tag. -/
theorem read_endTag_gap (start : Nat) {name gap : List Char} (h : isName name = true)
    (hgap : ∀ c ∈ gap, isSpace c = true) (rest : List Char) :
    read start (endTagOpening ++ name ++ gap ++ ['>'] ++ rest) =
      .ok (⟨.endTag name, endTagOpening ++ name ++ gap ++ ['>']⟩, rest) := by
  have hhead : ∀ c ∈ gap.head?, isNamePart c = false := by
    intro c hc
    exact isNamePart_of_isSpace (hgap c (List.mem_of_head? hc))
  have hname := readName?_append (gap ++ '>' :: rest) h
    (isNamePart_head_append hhead (by decide) rest)
  have hclose : isSpace '>' = false := by decide
  have htake : (gap ++ '>' :: rest).takeWhile isSpace = gap := by
    rw [List.takeWhile_append_of_pos hgap]
    simp [hclose]
  have happend : endTagOpening ++ name ++ gap ++ ['>'] ++ rest =
      endTagOpening ++ (name ++ (gap ++ '>' :: rest)) := by simp
  rw [happend]
  show read start ('<' :: _) = _
  rw [read_cons_markup]
  show readMarkup start (endTagOpening ++ _) = _
  rw [readMarkup_endTag, readEndTag, hname]
  simp only [dropWhile_isSpace_append hgap hclose, htake]

theorem read_endTag (start : Nat) {name : List Char} (h : isName name = true) (rest : List Char) :
    read start (endTagOpening ++ name ++ ['>'] ++ rest) =
      .ok (⟨.endTag name, endTagOpening ++ name ++ ['>']⟩, rest) := by
  simpa using read_endTag_gap start h (List.forall_mem_nil _) rest

theorem splitSlash_append_slash (attributes : List Char) :
    splitSlash (attributes ++ ['/']) = (attributes, true) := by
  simp [splitSlash]

theorem splitSlash_of_ne {attributes : List Char} (h : attributes.getLast? ≠ some '/') :
    splitSlash attributes = (attributes, false) := by
  rw [splitSlash, if_neg h]

/-- A start tag or an empty tag, given what stands between its name and its `>`. -/
theorem read_tag (start : Nat) {name inside attributes : List Char} {isEmpty : Bool}
    (hname : isName name = true) (hinside : Unmarked Attribute.quotes '>' inside)
    (hend : ∀ c ∈ inside.head?, isNamePart c = false)
    (hslash : splitSlash inside = (attributes, isEmpty))
    (hspace : ∀ c ∈ attributes.head?, isSpace c = true) (rest : List Char) :
    read start ('<' :: name ++ inside ++ ['>'] ++ rest) =
      .ok (⟨if isEmpty then .emptyTag name attributes else .startTag name attributes,
        '<' :: name ++ inside ++ ['>']⟩, rest) := by
  have hread := readName?_append (inside ++ '>' :: rest) hname
    (isNamePart_head_append hend (by decide) rest)
  have hgap : ¬ (attributes.head?.any fun c => !isSpace c) = true := by
    cases attributes with
    | nil => simp
    | cons d attributes => simp [hspace d rfl]
  have happend : '<' :: name ++ inside ++ ['>'] ++ rest =
      '<' :: (name ++ (inside ++ '>' :: rest)) := by simp
  rw [happend]
  cases name with
  | nil => simp [isName] at hname
  | cons c cs =>
    have hc : isNameStart c = true := by
      rw [isName, Bool.and_eq_true] at hname
      exact hname.1
    rw [read_cons_markup, List.cons_append, readMarkup_startTag start hc, ← List.cons_append,
      readStartTag, hread]
    simp only [splitUnquoted?_append hinside rest, hslash, if_neg hgap]

theorem read_startTag (start : Nat) {name attributes : List Char} (hname : isName name = true)
    (hinside : Unmarked Attribute.quotes '>' attributes)
    (hspace : ∀ c ∈ attributes.head?, isSpace c = true) (hlast : attributes.getLast? ≠ some '/')
    (rest : List Char) :
    read start ('<' :: name ++ attributes ++ ['>'] ++ rest) =
      .ok (⟨.startTag name attributes, '<' :: name ++ attributes ++ ['>']⟩, rest) :=
  read_tag start hname hinside (fun c hc => isNamePart_of_isSpace (hspace c hc))
    (splitSlash_of_ne hlast) hspace rest

theorem read_emptyTag (start : Nat) {name attributes : List Char} (hname : isName name = true)
    (hinside : Unmarked Attribute.quotes '>' attributes)
    (hspace : ∀ c ∈ attributes.head?, isSpace c = true) (rest : List Char) :
    read start ('<' :: name ++ attributes ++ emptyTagEnd ++ rest) =
      .ok (⟨.emptyTag name attributes, '<' :: name ++ attributes ++ emptyTagEnd⟩, rest) := by
  have hunmarked : Unmarked Attribute.quotes '>' (attributes ++ ['/']) :=
    hinside.append (.plain (by decide) (by decide) .nil)
  have hend : ∀ c ∈ attributes.head?, isNamePart c = false := fun c hc =>
    isNamePart_of_isSpace (hspace c hc)
  have hread := read_tag start hname hunmarked (isNamePart_head_append hend (by decide) [])
    (splitSlash_append_slash attributes) hspace rest
  simpa [emptyTagEnd] using hread

end Lexeme

/-! ## What has been read -/

/-- What a token satisfies that has been read at a byte offset: names are names, what stands inside
a comment or an instruction cannot end it early, and the declaration is at the start. -/
def Token.Sound (start : Nat) : Token → Prop
  | .startTag name _ | .emptyTag name _ | .endTag name => isName name = true
  | .comment body => isCommentBody body = true
  | .instruction target data =>
    isName target = true ∧ isReserved target = false ∧
      ∀ body ∈ data, ¬ instructionEnd <:+: body ∧ ∃ c cs, body = c :: cs ∧ isSpace c = false
  | .declaration _ _ => start = 0
  | .text _ | .cdata _ | .doctype _ => True

namespace Lexeme

/-- The pieces of markup that can be read at a byte offset, as they are spelled. -/
inductive Markup (start : Nat) : Lexeme → Prop where
  | comment {body : List Char} (hbody : isCommentBody body = true) :
    Markup start ⟨.comment body, commentOpening ++ body ++ commentEnd⟩
  | cdata (body : List Char) : Markup start ⟨.cdata body, cdataOpening ++ body ++ cdataEnd⟩
  | doctype (inside : List Char) :
    Markup start ⟨.doctype (trimBlanks inside), doctypeOpening ++ inside ++ ['>']⟩
  | instruction {target inside : List Char} (htarget : isName target = true)
      (hfree : isReserved target = false) (hspace : ∀ c ∈ inside.head?, isSpace c = true)
      (hinside : ¬ instructionEnd <:+: inside) :
    Markup start ⟨.instruction target (instructionData inside),
      instructionOpening ++ target ++ inside ++ instructionEnd⟩
  | declaration {target inside : List Char} (hspace : ∀ c ∈ inside.head?, isSpace c = true)
      (hstart : start = 0) :
    Markup start ⟨.declaration target (instructionData inside),
      instructionOpening ++ target ++ inside ++ instructionEnd⟩
  | endTag {name gap : List Char} (hname : isName name = true)
      (hgap : ∀ c ∈ gap, isSpace c = true) :
    Markup start ⟨.endTag name, endTagOpening ++ name ++ gap ++ ['>']⟩
  | startTag {name : List Char} (hname : isName name = true) (attributes : List Char) :
    Markup start ⟨.startTag name attributes, '<' :: name ++ attributes ++ ['>']⟩
  | emptyTag {name : List Char} (hname : isName name = true) (attributes : List Char) :
    Markup start ⟨.emptyTag name attributes, '<' :: name ++ attributes ++ emptyTagEnd⟩

variable {start : Nat} {cs rest : List Char} {lexeme : Lexeme}

theorem markup_of_readComment (h : readComment start cs = .ok (lexeme, rest)) :
    Markup start lexeme := by
  unfold readComment at h
  split at h
  · cases h
  · split at h
    · next hbody =>
      obtain ⟨rfl, -⟩ := Prod.mk.inj (Except.ok.inj h)
      exact .comment hbody
    · cases h

theorem markup_of_readCData (h : readCData start cs = .ok (lexeme, rest)) :
    Markup start lexeme := by
  unfold readCData at h
  split at h
  · cases h
  · obtain ⟨rfl, -⟩ := Prod.mk.inj (Except.ok.inj h)
    exact .cdata _

theorem markup_of_readDoctype (h : readDoctype start cs = .ok (lexeme, rest)) :
    Markup start lexeme := by
  unfold readDoctype at h
  split at h
  · cases h
  · obtain ⟨rfl, -⟩ := Prod.mk.inj (Except.ok.inj h)
    exact .doctype _

theorem markup_of_readInstruction (h : readInstruction start cs = .ok (lexeme, rest)) :
    Markup start lexeme := by
  unfold readInstruction at h
  split at h
  · cases h
  · next target afterTarget hname =>
    split at h
    · cases h
    · next inside after hsplit =>
      have hinside : ¬ instructionEnd <:+: inside :=
        not_infix_of_splitOnce? (by simp [instructionEnd]) hsplit
      split at h
      · cases h
      · next hgap =>
        have hspace : ∀ c ∈ inside.head?, isSpace c = true := by
          intro c hc
          rw [hc] at hgap
          simpa using hgap
        split at h
        · next hfree =>
          obtain ⟨rfl, -⟩ := Prod.mk.inj (Except.ok.inj h)
          exact .instruction (isName_of_readName? hname) (by simpa using hfree) hspace hinside
        · split at h
          · next hstart =>
            obtain ⟨rfl, -⟩ := Prod.mk.inj (Except.ok.inj h)
            exact .declaration hspace hstart
          · cases h

theorem markup_of_readEndTag (h : readEndTag start cs = .ok (lexeme, rest)) :
    Markup start lexeme := by
  unfold readEndTag at h
  split at h
  · cases h
  · next name afterName hname =>
    split at h
    · obtain ⟨rfl, -⟩ := Prod.mk.inj (Except.ok.inj h)
      exact .endTag (isName_of_readName? hname) (List.all_eq_true.1 List.all_takeWhile)
    · cases h

/-- A tag that is read has a name, and white space in front of what else is in it. -/
theorem exists_of_readStartTag (h : readStartTag start cs = .ok (lexeme, rest)) :
    ∃ name attributes, isName name = true ∧ (∀ c ∈ attributes.head?, isSpace c = true) ∧
      (lexeme = ⟨.startTag name attributes, '<' :: name ++ attributes ++ ['>']⟩ ∨
        lexeme = ⟨.emptyTag name attributes, '<' :: name ++ attributes ++ emptyTagEnd⟩) := by
  unfold readStartTag at h
  split at h
  · cases h
  · next name afterName hname =>
    have hname := isName_of_readName? hname
    split at h
    · cases h
    · next inside after hsplit =>
      have hspace {attributes : List Char}
          (hgap : ¬ (attributes.head?.any fun c => !isSpace c) = true) :
          ∀ c ∈ attributes.head?, isSpace c = true := by
        intro c hc
        rw [hc] at hgap
        simpa using hgap
      by_cases hslash : inside.getLast? = some '/'
      · obtain ⟨attributes, rfl⟩ : ∃ attributes, inside = attributes ++ ['/'] :=
          ⟨inside.dropLast, (List.dropLast_append_getLast? '/' hslash).symm⟩
        simp only [splitSlash_append_slash] at h
        split at h
        · cases h
        · next hgap =>
          obtain ⟨rfl, -⟩ := Prod.mk.inj (Except.ok.inj h)
          exact ⟨name, attributes, hname, hspace hgap, .inr (by simp [emptyTagEnd])⟩
      · simp only [splitSlash_of_ne hslash] at h
        split at h
        · cases h
        · next hgap =>
          obtain ⟨rfl, -⟩ := Prod.mk.inj (Except.ok.inj h)
          exact ⟨name, inside, hname, hspace hgap, .inl rfl⟩

theorem markup_of_readStartTag (h : readStartTag start cs = .ok (lexeme, rest)) :
    Markup start lexeme := by
  obtain ⟨name, attributes, hname, -, rfl | rfl⟩ := exists_of_readStartTag h
  · exact .startTag hname attributes
  · exact .emptyTag hname attributes

theorem markup_of_readMarkup (h : readMarkup start cs = .ok (lexeme, rest)) :
    Markup start lexeme := by
  unfold readMarkup at h
  split at h
  · exact markup_of_readComment h
  split at h
  · exact markup_of_readCData h
  split at h
  · exact markup_of_readDoctype h
  split at h
  · exact markup_of_readInstruction h
  split at h
  · exact markup_of_readEndTag h
  split at h
  · exact markup_of_readStartTag h
  · cases h

/-- **What is read** is a piece of markup where one starts, and elsewhere the text up to the next
one. -/
theorem markup_or_text_of_read (h : read start cs = .ok (lexeme, rest)) :
    cs.head? = some '<' ∧ Markup start lexeme ∨
      cs.head? ≠ some '<' ∧ readText cs = (lexeme, rest) := by
  unfold read at h
  split at h
  · next hhead => exact .inl ⟨hhead, markup_of_readMarkup h⟩
  · next hhead => exact .inr ⟨hhead, Except.ok.inj h⟩

/-- The data of an instruction start with a character other than white space. -/
theorem exists_of_mem_instructionData {inside body : List Char}
    (h : body ∈ instructionData inside) :
    body <:+ inside ∧ ∃ c cs, body = c :: cs ∧ isSpace c = false := by
  rw [instructionData] at h
  split at h
  · simp at h
  · next c cs hdrop =>
    obtain rfl : c :: cs = body := by simpa using h
    refine ⟨hdrop ▸ List.dropWhile_suffix isSpace, c, cs, rfl, ?_⟩
    have hhead := List.head?_dropWhile_not isSpace inside
    rw [hdrop] at hhead
    simpa using hhead

theorem Markup.sound (h : Markup start lexeme) : lexeme.token.Sound start := by
  cases h with
  | comment hbody => exact hbody
  | cdata body => trivial
  | doctype inside => trivial
  | instruction htarget hfree hspace hinside =>
    refine ⟨htarget, hfree, fun body hbody => ?_⟩
    obtain ⟨hsuffix, hhead⟩ := exists_of_mem_instructionData hbody
    exact ⟨fun hin => hinside (hin.trans hsuffix.isInfix), hhead⟩
  | declaration hspace hstart => exact hstart
  | endTag hname hgap => exact hname
  | startTag hname attributes => exact hname
  | emptyTag hname attributes => exact hname

/-- **Every token that is read is sound.** -/
theorem sound_of_read (h : read start cs = .ok (lexeme, rest)) : lexeme.token.Sound start := by
  rcases markup_or_text_of_read h with ⟨-, hmarkup⟩ | ⟨-, htext⟩
  · exact hmarkup.sound
  · obtain ⟨rfl, -⟩ := Prod.mk.inj htext
    trivial

end Lexeme

end Groundwork.Xml
