import Groundwork.Text.Search
import Groundwork.Text.Utf8
import Groundwork.Xml.Name

/-!
# `Xml.Token` — the pieces of a document

A token is one piece of markup or the text between two pieces. Names are taken out of the markup
here; attribute sections and references stay as they are written. A token does not fix its spelling:
white space may stand before the end of an end tag, between an instruction's target and its data,
and around the body of a document type. `Lexeme` keeps the spelling beside the token.

## Contents

* `Token` — the nine kinds of pieces.
* `isCommentBody`, `isReserved` — what a comment may hold, and which target is no instruction's.
* `Token.render` — the plainest way to write a token.
* `Lexeme`, `Placed` — a token with its spelling, and anything with its byte offset.
-/

namespace Groundwork.Xml

open Text

/-- A piece of a document. -/
inductive Token where
  /-- `<name attributes>` -/
  | startTag (name attributes : List Char)
  /-- `</name>` -/
  | endTag (name : List Char)
  /-- `<name attributes/>` -/
  | emptyTag (name attributes : List Char)
  /-- Text between two pieces of markup, references still in it. -/
  | text (body : List Char)
  /-- `<![CDATA[body]]>` -/
  | cdata (body : List Char)
  /-- `<!--body-->` -/
  | comment (body : List Char)
  /-- `<?target data?>` -/
  | instruction (target : List Char) (data : Option (List Char))
  /-- `<?xml data?>`, the name in any case of letters. -/
  | declaration (target : List Char) (data : Option (List Char))
  /-- `<!DOCTYPE body>` -/
  | doctype (body : List Char)
  deriving DecidableEq, Repr

/-! ## Spellings -/

/-- The opening of a comment. -/
def commentOpening : List Char := ['<', '!', '-', '-']

/-- The end of a comment. -/
def commentEnd : List Char := ['-', '-', '>']

/-- The opening of a CDATA section. -/
def cdataOpening : List Char := ['<', '!', '[', 'C', 'D', 'A', 'T', 'A', '[']

/-- The end of a CDATA section. -/
def cdataEnd : List Char := [']', ']', '>']

/-- The opening of a document type. -/
def doctypeOpening : List Char := ['<', '!', 'D', 'O', 'C', 'T', 'Y', 'P', 'E']

/-- The opening of an instruction. -/
def instructionOpening : List Char := ['<', '?']

/-- The end of an instruction. -/
def instructionEnd : List Char := ['?', '>']

/-- The opening of an end tag. -/
def endTagOpening : List Char := ['<', '/']

/-- The end of an empty tag. -/
def emptyTagEnd : List Char := ['/', '>']

/-- The text may stand in a comment: no two hyphens follow each other in it, and none stands before
the end. -/
def isCommentBody (body : List Char) : Bool := !contains ['-', '-'] body && body.getLast? ≠ some '-'

/-- The target is reserved for the XML declaration. -/
def isReserved (target : List Char) : Bool := target.map Char.toLower = ['x', 'm', 'l']

namespace Token

/-- The plainest way to write a token: a space only where data follow a target or a document type
has a body. -/
def render : Token → List Char
  | .startTag name attributes => '<' :: name ++ attributes ++ ['>']
  | .endTag name => endTagOpening ++ name ++ ['>']
  | .emptyTag name attributes => '<' :: name ++ attributes ++ emptyTagEnd
  | .text body => body
  | .cdata body => cdataOpening ++ body ++ cdataEnd
  | .comment body => commentOpening ++ body ++ commentEnd
  | .instruction target none | .declaration target none =>
    instructionOpening ++ target ++ instructionEnd
  | .instruction target (some data) | .declaration target (some data) =>
    instructionOpening ++ target ++ ' ' :: data ++ instructionEnd
  | .doctype body => doctypeOpening ++ ' ' :: body ++ ['>']

end Token

/-! ## Tokens in place -/

/-- A token and the characters it was read from. -/
structure Lexeme where
  token : Token
  spelling : List Char
  deriving DecidableEq, Repr

/-- The number of bytes that a lexeme takes. -/
def Lexeme.size (lexeme : Lexeme) : Nat := Utf8.size lexeme.spelling

/-- Something and the byte offset at which it starts. -/
structure Placed (α : Type) where
  item : α
  start : Nat
  deriving DecidableEq, Repr

end Groundwork.Xml
