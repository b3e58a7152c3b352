import Groundwork.Text.Search

/-!
# `Xml.ByteCursor` — finding the ends of markup in raw bytes

A cursor is a place in a byte sequence, which may lie past its end. The searches look from there on
and give the offset, in the whole sequence, of what they find; they do not move the cursor. What is
found is always the first occurrence, which is all that `memchr` and `memmem`, the usual searches
for one byte and for several, are documented to give.

## Contents

* `remaining`, `peek?`, `isAtEnd` — what lies at the cursor.
* `findTagStart?`, `findTagEnd?`, `find?` — the searches.
-/

namespace Groundwork.Xml

open Text

/-- A byte sequence and an offset into it. -/
structure ByteCursor where
  bytes : List UInt8
  position : Nat
  deriving DecidableEq, Repr

namespace ByteCursor

/-- A cursor at the start of some bytes. -/
def ofBytes (bytes : List UInt8) : ByteCursor := ⟨bytes, 0⟩

/-- The same bytes with the cursor elsewhere. -/
def moveTo (cursor : ByteCursor) (position : Nat) : ByteCursor := { cursor with position }

/-- The bytes from the cursor on. -/
def remaining (cursor : ByteCursor) : List UInt8 := cursor.bytes.drop cursor.position

/-- The byte at the cursor. -/
def peek? (cursor : ByteCursor) : Option UInt8 := cursor.bytes[cursor.position]?

/-- No byte lies at the cursor or behind it. -/
def isAtEnd (cursor : ByteCursor) : Bool := cursor.bytes.length ≤ cursor.position

/-- The offset of the first occurrence of `needle`; the empty one occurs at once. -/
def find? (cursor : ByteCursor) (needle : List UInt8) : Option Nat :=
  (splitOnce? needle cursor.remaining).map fun found => cursor.position + found.1.length

/-- The offset of the first `<`. -/
def findTagStart? (cursor : ByteCursor) : Option Nat := cursor.find? [0x3C]

/-- The offset of the first `>` outside single and double quotes. -/
def findTagEnd? (cursor : ByteCursor) : Option Nat :=
  (splitUnquoted? [0x22, 0x27] 0x3E cursor.remaining).map fun found =>
    cursor.position + found.1.length

end ByteCursor

end Groundwork.Xml
