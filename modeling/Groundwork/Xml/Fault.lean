import Groundwork.Xml.Attribute

/-!
# `Xml.Fault` — what can be wrong with a document

Every way in which a text fails to be a document is one cause here, whether it shows in the spelling
of a token, in what a token holds, or in the order of tokens. A `ParseError` adds the byte offset at
which reading stopped.

## Contents

* `Fault`, `Fault.message` — the causes and their wording.
* `ParseError`, `ParseError.message` — a cause and its place.
-/

namespace Groundwork.Xml

/-- Why a text is no document. -/
inductive Fault where
  /-- No `-->` follows a `<!--`. -/
  | unterminatedComment
  /-- A comment has two hyphens in a row before its end. -/
  | doubleHyphen
  /-- No `]]>` follows a `<![CDATA[`. -/
  | unterminatedCData
  /-- No `>` outside quotes and brackets follows a `<!DOCTYPE`. -/
  | unterminatedDoctype
  /-- No name, or a name that runs on into something else, follows a `<?`. -/
  | invalidTarget
  /-- No `?>` follows a `<?`. -/
  | unterminatedInstruction
  /-- Something stands before the XML declaration. -/
  | misplacedDeclaration
  /-- No name follows a `</`. -/
  | invalidEndTagName
  /-- Something other than white space and `>` follows the name in an end tag. -/
  | malformedEndTag
  /-- No `>` outside quotes follows a start tag's name. -/
  | unterminatedStartTag
  /-- An element's name runs on into something else. -/
  | invalidNameCharacter
  /-- What follows a `<` starts no markup. -/
  | invalidMarkup
  /-- An attribute section is malformed. -/
  | attributes (error : AttributeError)
  /-- Text between tags has `]]>` in it. -/
  | sectionEndInText
  /-- A reference in the text between tags stands for nothing. -/
  | reference (error : ReferenceError)
  /-- A second element stands beside the root element. -/
  | multipleRoots
  /-- A node would lie too deep. -/
  | tooDeep
  /-- An end tag stands where no element is open. -/
  | unexpectedEndTag (name : String)
  /-- An end tag has another name than the element that is open. -/
  | tagMismatch (opened closed : String)
  /-- Text other than white space stands outside the root element. -/
  | textOutsideRoot
  /-- A CDATA section stands outside the root element. -/
  | cdataOutsideRoot
  /-- A document has a second document type. -/
  | multipleDoctypes
  /-- A document type stands within or after the root element. -/
  | lateDoctype
  /-- The text ends while an element is open. -/
  | unclosedTag (name : String)
  deriving DecidableEq, Repr

/-- The wording of a cause. -/
def Fault.message : Fault → String
  | .unterminatedComment => "Unterminated comment"
  | .doubleHyphen => "'--' not allowed inside comment"
  | .unterminatedCData => "Unterminated CDATA section"
  | .unterminatedDoctype => "Unterminated DOCTYPE"
  | .invalidTarget => "Invalid processing instruction target"
  | .unterminatedInstruction => "Unterminated processing instruction"
  | .misplacedDeclaration => "XML declaration must be at the start of the document"
  | .invalidEndTagName => "Invalid end tag name"
  | .malformedEndTag => "Malformed end tag"
  | .unterminatedStartTag => "Unterminated start tag"
  | .invalidNameCharacter => "Invalid character in element name"
  | .invalidMarkup => "Invalid markup"
  | .attributes error => error.message
  | .sectionEndInText => "']]>' not allowed in text content"
  | .reference error => error.message
  | .multipleRoots => "Document has multiple root elements"
  | .tooDeep => "Maximum nesting depth exceeded"
  | .unexpectedEndTag name => "Unexpected end tag: </" ++ name ++ "> without matching start tag"
  | .tagMismatch opened closed => "Tag mismatch: <" ++ opened ++ "> closed with </" ++ closed ++ ">"
  | .textOutsideRoot => "Text content not allowed at document level"
  | .cdataOutsideRoot => "CDATA section not allowed at document level"
  | .multipleDoctypes => "Multiple DOCTYPE declarations not allowed"
  | .lateDoctype => "DOCTYPE must come before root element"
  | .unclosedTag name => "Unclosed tag: <" ++ name ++ ">"

/-- A cause and the byte offset at which reading stopped. -/
structure ParseError where
  fault : Fault
  position : Nat
  deriving DecidableEq, Repr

/-- The wording of a parse error. -/
def ParseError.message (e : ParseError) : String :=
  e.fault.message ++ " at byte " ++ toString e.position

end Groundwork.Xml
