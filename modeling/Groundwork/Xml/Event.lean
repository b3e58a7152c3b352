import Groundwork.Xml.Token.Lexer

/-!
# `Xml.Event` — what a document says, token by token

An event is a token with its contents read: attribute sections taken apart and references replaced.
What the XML declaration says is checked as an attribute section and then dropped. Each token gives
one event or one fault, which lies at the token's start; events end at the first fault, whether a
token could not be read or not be understood.

## Contents

* `Event`, `Event.ofToken` — the event of one token.
* `Event.readAll` — the events of a text.
-/

namespace Groundwork.Xml

open Text

/-- A token with its contents read. -/
inductive Event where
  /-- An element starts. -/
  | startElement (name : String) (attributes : List Attribute)
  /-- An element starts and ends. -/
  | emptyElement (name : String) (attributes : List Attribute)
  /-- An element ends. -/
  | endElement (name : String)
  /-- Text, its references replaced. -/
  | text (content : String)
  /-- The text of a CDATA section. -/
  | cdata (content : String)
  /-- The text of a comment. -/
  | comment (content : String)
  /-- An instruction to the application named by its target. -/
  | instruction (target : String) (data : Option String)
  /-- The XML declaration. -/
  | declaration
  /-- The body of a document type. -/
  | doctype (body : String)
  deriving DecidableEq, Repr

namespace Event

/-! ## A single event -/

/-- The event of a tag with this attribute section. -/
def ofTag (event : List Attribute → Event) (attributes : List Char) : Except Fault Event :=
  match Attribute.readAll attributes with
  | .ok attributes => .ok (event attributes)
  | .error e => .error (.attributes e)

/-- The event of the text between two pieces of markup. -/
def ofText (body : List Char) : Except Fault Event :=
  -- what is forbidden is the spelling; a `]]&gt;` may well stand for these characters
  if contains cdataEnd body then .error .sectionEndInText
  else
    match Reference.decode body with
    | .ok content => .ok (.text (String.ofList content))
    | .error e => .error (.reference e)

/-- The event of a token. -/
def ofToken : Token → Except Fault Event
  | .startTag name attributes => ofTag (.startElement (String.ofList name)) attributes
  | .emptyTag name attributes => ofTag (.emptyElement (String.ofList name)) attributes
  | .endTag name => .ok (.endElement (String.ofList name))
  | .text body => ofText body
  | .cdata body => .ok (.cdata (String.ofList body))
  | .comment body => .ok (.comment (String.ofList body))
  | .instruction target data => .ok (.instruction (String.ofList target) (data.map String.ofList))
  | .declaration _ data => ofTag (fun _ => .declaration) (data.getD [])
  | .doctype body => .ok (.doctype (String.ofList body))

/-! ## All events -/

/-- The events of a text in order, as far as they go, the fault that stopped them, if one did, and
the place of the last token that was looked into. A token that could not be read was not looked
into. -/
structure Sequence where
  events : List (Placed Event)
  failure : Option ParseError
  position : Nat
  deriving DecidableEq, Repr

/-- The events of the tokens from here on, with those before them newest first; `failure` is what
ended the tokens, and `position` the place of the token before. -/
def ofLexemes (failure : Option ParseError) (passed : List (Placed Event)) (position : Nat) :
    List (Placed Lexeme) → Sequence
  | [] => ⟨passed.reverse, failure, position⟩
  | lexeme :: lexemes =>
    match ofToken lexeme.item.token with
    | .ok event => ofLexemes failure (⟨event, lexeme.start⟩ :: passed) lexeme.start lexemes
    | .error fault => ⟨passed.reverse, some ⟨fault, lexeme.start⟩, lexeme.start⟩

/-- The events of a text. -/
def readAll (text : String) : Sequence :=
  let tokens := Lexeme.readAll text.toList
  ofLexemes tokens.failure [] 0 tokens.lexemes

end Event

end Groundwork.Xml
