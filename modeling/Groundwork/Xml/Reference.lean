import Groundwork.Xml.Name

/-!
# `Xml.Reference` — characters written by reference

In text and in attribute values an ampersand starts a reference, which a semicolon ends: one of five
names, or the number of a character in decimal or, behind an `x`, in hexadecimal digits. One plus
sign may stand before the digits. Writing goes the other way and uses references only where a
character would be taken for markup.

## Contents

* `resolve` — the character of a single reference.
* `decode` — a text with its references replaced; `ReferenceError` where one stands for nothing.
* `escapeText`, `escapeAttribute` — a text as it is written between tags, or between double quotes.
-/

namespace Groundwork.Xml

/-- Why a text with references stands for no text. -/
inductive ReferenceError where
  /-- No semicolon follows the ampersand. -/
  | unterminated
  /-- The number is not written in digits, or is not that of a character that a document may
  hold. -/
  | invalidNumber
  /-- Nothing stands between ampersand and semicolon. -/
  | empty
  /-- The name is none of the five. -/
  | undefined
  deriving DecidableEq, Repr

/-- The wording of a reference error. -/
def ReferenceError.message : ReferenceError → String
  | .unterminated => "Unterminated entity reference"
  | .invalidNumber => "Invalid character reference"
  | .empty => "Empty entity reference"
  | .undefined => "Undefined entity reference"

namespace Reference

/-! ## A single reference -/

/-- The value of a digit, in bases up to sixteen. -/
def digitValue? (base : Nat) (c : Char) : Option Nat :=
  let value :=
    if c.isDigit then c.toNat - '0'.toNat
    else if 'a' ≤ c && c ≤ 'f' then c.toNat - 'a'.toNat + 10
    else if 'A' ≤ c && c ≤ 'F' then c.toNat - 'A'.toNat + 10
    else base
  if value < base then some value else none

/-- One more than the number of the last character. -/
def numberLimit : Nat := 0x110000

/-- Reads digits behind which `value` already stands. Every number past the last character is as
good as the limit, so the value stays small however many digits there are. -/
def numberFrom (base value : Nat) : List Char → Option Nat
  | [] => some value
  | c :: cs =>
    match digitValue? base c with
    | some digit => numberFrom base (min numberLimit (value * base + digit)) cs
    | none => none

/-- The number that some digits write, behind at most one plus sign. -/
def number? (base : Nat) : List Char → Option Nat
  | [] => none
  | '+' :: [] => none
  | '+' :: cs => numberFrom base 0 cs
  | cs => numberFrom base 0 cs

/-- The character with a number that a document may hold. -/
def ofNumber? (n : Option Nat) : Option Char :=
  match n with
  | some n => if isXmlChar n then some (Char.ofNat n) else none
  | none => none

/-- The character of one of the five names. -/
def named? (name : List Char) : Option Char :=
  if name = ['l', 't'] then some '<'
  else if name = ['g', 't'] then some '>'
  else if name = ['a', 'm', 'p'] then some '&'
  else if name = ['q', 'u', 'o', 't'] then some '"'
  else if name = ['a', 'p', 'o', 's'] then some '\x27'
  else none

/-- The character that a reference stands for, given what is between its ampersand and its
semicolon. -/
def resolve (body : List Char) : Except ReferenceError Char :=
  match body with
  | [] => .error .empty
  | '#' :: digits =>
    let c? :=
      match digits with
      | 'x' :: hexDigits => ofNumber? (number? 16 hexDigits)
      | 'X' :: hexDigits => ofNumber? (number? 16 hexDigits)
      | _ => ofNumber? (number? 10 digits)
    match c? with
    | some c => .ok c
    | none => .error .invalidNumber
  | name =>
    match named? name with
    | some c => .ok c
    | none => .error .undefined

/-! ## References in a text -/

/-- Where a decoding stands: in plain text, or inside a reference of which the characters so far are
known, newest first. -/
inductive Mode where
  | plain
  | inside (body : List Char)
  deriving DecidableEq, Repr

/-- Decodes the rest of a text, with what has been decoded before it newest first. -/
def decodeFrom (mode : Mode) (passed : List Char) : List Char → Except ReferenceError (List Char)
  | [] =>
    match mode with
    | .plain => .ok passed.reverse
    | .inside _ => .error .unterminated
  | c :: cs =>
    match mode with
    | .plain =>
      if c = '&' then decodeFrom (.inside []) passed cs else decodeFrom .plain (c :: passed) cs
    | .inside body =>
      if c = ';' then
        match resolve body.reverse with
        | .ok d => decodeFrom .plain (d :: passed) cs
        | .error e => .error e
      else decodeFrom (.inside (c :: body)) passed cs

/-- The text in which every reference is replaced by its character. -/
def decode (cs : List Char) : Except ReferenceError (List Char) := decodeFrom .plain [] cs

/-! ## Escaping -/

/-- A character as it is written between tags. -/
def escapeTextChar : Char → List Char
  | '&' => ['&', 'a', 'm', 'p', ';']
  | '<' => ['&', 'l', 't', ';']
  | '>' => ['&', 'g', 't', ';']
  | c => [c]

/-- A character as it is written between double quotes. Tab and line ends go by number, so that they
survive readers that turn them into spaces. -/
def escapeAttributeChar : Char → List Char
  | '"' => ['&', 'q', 'u', 'o', 't', ';']
  | '\t' => ['&', '#', '9', ';']
  | '\n' => ['&', '#', '1', '0', ';']
  | '\r' => ['&', '#', '1', '3', ';']
  | c => escapeTextChar c

/-- A text as it is written between tags. -/
def escapeText (cs : List Char) : List Char := cs.flatMap escapeTextChar

/-- A text as it is written between double quotes. -/
def escapeAttribute (cs : List Char) : List Char := cs.flatMap escapeAttributeChar

end Reference

end Groundwork.Xml
