import Groundwork.Text.Blank
import Groundwork.Text.Search
import Groundwork.Xml.Fault
import Groundwork.Xml.Token

/-!
# `Xml.Token.Lexer` — from text to tokens

The character after a `<` decides what piece of markup starts there, and each kind has its own way
to find its end. What lies between two pieces is one text token. Reading stops at the first fault.

The readers of one kind take the byte offset of a token and the characters behind its opening, and
give the token with its spelling, the opening included, and what follows. That the spelling and the
rest make up the text again (`eq_of_read`), and that no spelling is empty
(`spelling_ne_nil_of_read`), is what makes offsets add up and the loop end.

## Contents

* `Lexeme.read` — the token at the front of a text; `eq_of_read`, `spelling_ne_nil_of_read`.
* `Lexeme.readAll` — all tokens up to the end or the first fault.
-/

namespace Groundwork.Xml

open Text

namespace Lexeme

/-- What a reader of one token gives: the token in its spelling and the rest of the text, or where
and why it stopped. -/
abbrev Reading := Except ParseError (Lexeme × List Char)

/-! ## Comments and CDATA sections -/

/-- Reads a comment whose opening has been taken off. -/
def readComment (start : Nat) (cs : List Char) : Reading :=
  match splitOnce? commentEnd cs with
  | none => .error ⟨.unterminatedComment, start⟩
  | some (body, rest) =>
    if isCommentBody body then .ok (⟨.comment body, commentOpening ++ body ++ commentEnd⟩, rest)
    else .error ⟨.doubleHyphen, start⟩

/-- Reads a CDATA section whose opening has been taken off. -/
def readCData (start : Nat) (cs : List Char) : Reading :=
  match splitOnce? cdataEnd cs with
  | none => .error ⟨.unterminatedCData, start⟩
  | some (body, rest) => .ok (⟨.cdata body, cdataOpening ++ body ++ cdataEnd⟩, rest)

/-! ## Document types -/

/-- Searches for the end of a document type, with `passed`, newest first, behind it: the first `>`
outside quotes at which no bracket is open. A closing bracket too many changes nothing. -/
def splitDoctypeFrom (passed : List Char) (depth : Nat) (quote : Option Char) :
    List Char → Option (List Char × List Char)
  | [] => none
  | c :: cs =>
    match quote with
    | some q => splitDoctypeFrom (c :: passed) depth (if c = q then none else some q) cs
    | none =>
      if c ∈ Attribute.quotes then splitDoctypeFrom (c :: passed) depth (some c) cs
      else if c = '[' then splitDoctypeFrom (c :: passed) (depth + 1) none cs
      else if c = ']' then splitDoctypeFrom (c :: passed) (depth - 1) none cs
      else if c = '>' && depth = 0 then some (passed.reverse, cs)
      else splitDoctypeFrom (c :: passed) depth none cs

/-- Reads a document type whose opening has been taken off. -/
def readDoctype (start : Nat) (cs : List Char) : Reading :=
  match splitDoctypeFrom [] 0 none cs with
  | none => .error ⟨.unterminatedDoctype, start⟩
  | some (inside, rest) =>
    .ok (⟨.doctype (trimBlanks inside), doctypeOpening ++ inside ++ ['>']⟩, rest)

/-! ## Instructions -/

/-- The data of an instruction, given what stands between its target and its end: nothing, if that
is blank. -/
def instructionData (inside : List Char) : Option (List Char) :=
  match inside.dropWhile isSpace with
  | [] => none
  | c :: data => some (c :: data)

/-- Reads an instruction or the XML declaration, whose opening has been taken off. -/
def readInstruction (start : Nat) (cs : List Char) : Reading :=
  match readName? cs with
  | none => .error ⟨.invalidTarget, start⟩
  | some (target, afterTarget) =>
    match splitOnce? instructionEnd afterTarget with
    | none => .error ⟨.unterminatedInstruction, start⟩
    | some (inside, rest) =>
      -- without white space behind it, the target itself would go on
      if inside.head?.any fun c => !isSpace c then .error ⟨.invalidTarget, start⟩
      else if !isReserved target then
        .ok (⟨.instruction target (instructionData inside),
          instructionOpening ++ target ++ inside ++ instructionEnd⟩, rest)
      else if start = 0 then
        .ok (⟨.declaration target (instructionData inside),
          instructionOpening ++ target ++ inside ++ instructionEnd⟩, rest)
      else .error ⟨.misplacedDeclaration, start⟩

/-! ## Tags -/

/-- Reads an end tag whose opening has been taken off. -/
def readEndTag (start : Nat) (cs : List Char) : Reading :=
  match readName? cs with
  | none => .error ⟨.invalidEndTagName, start⟩
  | some (name, afterName) =>
    match afterName.dropWhile isSpace with
    | '>' :: rest =>
      .ok (⟨.endTag name, endTagOpening ++ name ++ afterName.takeWhile isSpace ++ ['>']⟩, rest)
    | _ => .error ⟨.malformedEndTag, start⟩

/-- Takes a slash off the end of what stands between the name of a tag and its `>`: the attribute
section, and whether the tag was empty. -/
def splitSlash (inside : List Char) : List Char × Bool :=
  if inside.getLast? = some '/' then (inside.dropLast, true) else (inside, false)

/-- Reads a start tag or an empty tag whose `<` has been taken off. The tag ends at the first `>`
outside quotes. -/
def readStartTag (start : Nat) (cs : List Char) : Reading :=
  match readName? cs with
  | none => .error ⟨.invalidMarkup, start⟩
  | some (name, afterName) =>
    match splitUnquoted? Attribute.quotes '>' afterName with
    | none => .error ⟨.unterminatedStartTag, start⟩
    | some (inside, rest) =>
      let (attributes, isEmpty) := splitSlash inside
      -- without white space behind it, the name itself would go on
      if attributes.head?.any fun c => !isSpace c then
        .error ⟨.invalidNameCharacter, start + 1 + Utf8.size name⟩
      else
        let token :=
          if isEmpty then Token.emptyTag name attributes else Token.startTag name attributes
        .ok (⟨token, '<' :: name ++ inside ++ ['>']⟩, rest)

/-! ## Any token -/

/-- Reads the text up to the next `<`. -/
def readText (cs : List Char) : Lexeme × List Char :=
  let body := cs.takeWhile (· ≠ '<')
  (⟨.text body, body⟩, cs.dropWhile (· ≠ '<'))

/-- Reads the piece of markup at the front of a text. -/
def readMarkup (start : Nat) (cs : List Char) : Reading :=
  match stripFront? commentOpening cs with
  | some rest => readComment start rest
  | none =>
  match stripFront? cdataOpening cs with
  | some rest => readCData start rest
  | none =>
  match stripFront? doctypeOpening cs with
  | some rest => readDoctype start rest
  | none =>
  match stripFront? instructionOpening cs with
  | some rest => readInstruction start rest
  | none =>
  match stripFront? endTagOpening cs with
  | some rest => readEndTag start rest
  | none =>
  match stripFront? ['<'] cs with
  | some rest => readStartTag start rest
  | none => .error ⟨.invalidMarkup, start⟩

/-- Reads the token at the front of a text that is not empty. -/
def read (start : Nat) (cs : List Char) : Reading :=
  if cs.head? = some '<' then readMarkup start cs else .ok (readText cs)

/-! ## Nothing is lost -/

/-- The lexeme is spelled by `opening` and the characters up to `rest`. -/
def Spells (opening cs : List Char) (lexeme : Lexeme) (rest : List Char) : Prop :=
  ∃ taken, lexeme.spelling = opening ++ taken ∧ cs = taken ++ rest

theorem spells_of_readComment {start : Nat} {cs rest : List Char} {lexeme : Lexeme}
    (h : readComment start cs = .ok (lexeme, rest)) : Spells commentOpening cs lexeme rest := by
  unfold readComment at h
  split at h
  · simp at h
  · next body after hsplit =>
    split at h
    · simp only [Except.ok.injEq, Prod.mk.injEq] at h
      exact ⟨body ++ commentEnd, by simp [← h.1], by rw [eq_of_splitOnce? hsplit, h.2]⟩
    · simp at h

theorem spells_of_readCData {start : Nat} {cs rest : List Char} {lexeme : Lexeme}
    (h : readCData start cs = .ok (lexeme, rest)) : Spells cdataOpening cs lexeme rest := by
  unfold readCData at h
  split at h
  · simp at h
  · next body after hsplit =>
    simp only [Except.ok.injEq, Prod.mk.injEq] at h
    exact ⟨body ++ cdataEnd, by simp [← h.1], by rw [eq_of_splitOnce? hsplit, h.2]⟩

theorem eq_of_splitDoctypeFrom {passed cs inside rest : List Char} {depth : Nat}
    {quote : Option Char}
    (h : splitDoctypeFrom passed depth quote cs = some (inside, rest)) :
    passed.reverse ++ cs = inside ++ '>' :: rest := by
  fun_induction splitDoctypeFrom passed depth quote cs with
  | case1 => simp at h
  | case6 passed depth c cs _ _ _ hc =>
    simp only [Option.some.injEq, Prod.mk.injEq] at h
    simp only [Bool.and_eq_true, decide_eq_true_eq] at hc
    rw [← h.1, ← h.2, hc.1]
  | _ => simp_all

theorem spells_of_readDoctype {start : Nat} {cs rest : List Char} {lexeme : Lexeme}
    (h : readDoctype start cs = .ok (lexeme, rest)) : Spells doctypeOpening cs lexeme rest := by
  unfold readDoctype at h
  split at h
  · simp at h
  · next inside after hsplit =>
    simp only [Except.ok.injEq, Prod.mk.injEq] at h
    have hcs := eq_of_splitDoctypeFrom hsplit
    exact ⟨inside ++ ['>'], by simp [← h.1], by simpa [h.2] using hcs⟩

theorem spells_of_readInstruction {start : Nat} {cs rest : List Char} {lexeme : Lexeme}
    (h : readInstruction start cs = .ok (lexeme, rest)) :
    Spells instructionOpening cs lexeme rest := by
  unfold readInstruction at h
  split at h
  · simp at h
  · next target afterTarget hname =>
    split at h
    · simp at h
    · next inside after hsplit =>
      have hcs : cs = target ++ inside ++ instructionEnd ++ after := by
        rw [eq_of_readName? hname, eq_of_splitOnce? hsplit]
        simp
      split at h
      · simp at h
      · split at h
        · simp only [Except.ok.injEq, Prod.mk.injEq] at h
          exact ⟨target ++ inside ++ instructionEnd, by simp [← h.1], by rw [hcs, h.2]⟩
        · split at h
          · simp only [Except.ok.injEq, Prod.mk.injEq] at h
            exact ⟨target ++ inside ++ instructionEnd, by simp [← h.1], by rw [hcs, h.2]⟩
          · simp at h

theorem spells_of_readEndTag {start : Nat} {cs rest : List Char} {lexeme : Lexeme}
    (h : readEndTag start cs = .ok (lexeme, rest)) : Spells endTagOpening cs lexeme rest := by
  unfold readEndTag at h
  split at h
  · simp at h
  · next name afterName hname =>
    split at h
    · next after hafter =>
      simp only [Except.ok.injEq, Prod.mk.injEq] at h
      have hspace := List.takeWhile_append_dropWhile (p := isSpace) (l := afterName)
      refine ⟨name ++ afterName.takeWhile isSpace ++ ['>'], by simp [← h.1], ?_⟩
      rw [eq_of_readName? hname, ← h.2]
      rw [hafter] at hspace
      simp [hspace]
    · simp at h

theorem spells_of_readStartTag {start : Nat} {cs rest : List Char} {lexeme : Lexeme}
    (h : readStartTag start cs = .ok (lexeme, rest)) : Spells ['<'] cs lexeme rest := by
  unfold readStartTag at h
  split at h
  · simp at h
  · next name afterName hname =>
    split at h
    · simp at h
    · next inside after hsplit =>
      split at h
      split at h
      · simp at h
      · simp only [Except.ok.injEq, Prod.mk.injEq] at h
        refine ⟨name ++ inside ++ ['>'], by simp [← h.1], ?_⟩
        rw [eq_of_readName? hname, eq_of_splitUnquoted? hsplit, h.2]
        simp

/-- A piece of markup is spelled by its opening and more. -/
theorem spells_of_readMarkup {start : Nat} {cs rest : List Char} {lexeme : Lexeme}
    (h : readMarkup start cs = .ok (lexeme, rest)) :
    ∃ opening after, opening ≠ [] ∧ cs = opening ++ after ∧ Spells opening after lexeme rest := by
  unfold readMarkup at h
  split at h
  · next hcs =>
    exact ⟨_, _, by simp [commentOpening], stripFront?_eq_some_iff.1 hcs,
      spells_of_readComment h⟩
  split at h
  · next hcs =>
    exact ⟨_, _, by simp [cdataOpening], stripFront?_eq_some_iff.1 hcs,
      spells_of_readCData h⟩
  split at h
  · next hcs =>
    exact ⟨_, _, by simp [doctypeOpening], stripFront?_eq_some_iff.1 hcs,
      spells_of_readDoctype h⟩
  split at h
  · next hcs =>
    exact ⟨_, _, by simp [instructionOpening], stripFront?_eq_some_iff.1 hcs,
      spells_of_readInstruction h⟩
  split at h
  · next hcs =>
    exact ⟨_, _, by simp [endTagOpening], stripFront?_eq_some_iff.1 hcs,
      spells_of_readEndTag h⟩
  split at h
  · next hcs => exact ⟨_, _, by simp, stripFront?_eq_some_iff.1 hcs, spells_of_readStartTag h⟩
  · simp at h

/-- The spelling of a token and what follows it make up the text. -/
theorem eq_of_read {start : Nat} {cs rest : List Char} {lexeme : Lexeme}
    (h : read start cs = .ok (lexeme, rest)) : cs = lexeme.spelling ++ rest := by
  unfold read at h
  split at h
  · obtain ⟨opening, after, _, hcs, taken, hspelling, hafter⟩ := spells_of_readMarkup h
    rw [hcs, hspelling, hafter, List.append_assoc]
  · simp only [readText, Except.ok.injEq, Prod.mk.injEq] at h
    rw [← h.1, ← h.2, List.takeWhile_append_dropWhile]

/-- No token is spelled by nothing. -/
theorem spelling_ne_nil_of_read {start : Nat} {c : Char} {cs rest : List Char} {lexeme : Lexeme}
    (h : read start (c :: cs) = .ok (lexeme, rest)) : lexeme.spelling ≠ [] := by
  unfold read at h
  split at h
  · obtain ⟨opening, after, hopening, _, taken, hspelling, _⟩ := spells_of_readMarkup h
    simp [hspelling, hopening]
  · next hc =>
    simp only [readText, Except.ok.injEq, Prod.mk.injEq] at h
    have hne : c ≠ '<' := by simpa using hc
    simp [← h.1, List.takeWhile, hne]

/-- Reading a token takes something off the text. -/
theorem length_read {start : Nat} {c : Char} {cs rest : List Char} {lexeme : Lexeme}
    (h : read start (c :: cs) = .ok (lexeme, rest)) : rest.length < (c :: cs).length := by
  have hlen := congrArg List.length (eq_of_read h)
  have hpos := List.length_pos_iff.2 (spelling_ne_nil_of_read h)
  rw [List.length_append] at hlen
  omega

/-! ## All tokens -/

/-- The tokens of a text in order, as far as they go, and the fault that stopped them, if one
did. -/
structure Sequence where
  lexemes : List (Placed Lexeme)
  failure : Option ParseError
  deriving DecidableEq, Repr

/-- Reads the tokens from byte offset `start` on, with those before it newest first. -/
def readFrom (passed : List (Placed Lexeme)) (start : Nat) (cs : List Char) : Sequence :=
  match cs with
  | [] => ⟨passed.reverse, none⟩
  | c :: cs =>
    match h : read start (c :: cs) with
    | .error e => ⟨passed.reverse, some e⟩
    | .ok (lexeme, rest) =>
      have : rest.length < cs.length + 1 := length_read h
      readFrom (⟨lexeme, start⟩ :: passed) (start + lexeme.size) rest
termination_by cs.length

/-- The tokens of a text. -/
def readAll (cs : List Char) : Sequence := readFrom [] 0 cs

end Lexeme

end Groundwork.Xml
