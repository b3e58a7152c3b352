import Groundwork.Text.Quoted
import Groundwork.Text.Search
import Groundwork.Text.Utf16
import Groundwork.Text.Utf8

/-!
# `Encoding` — text as the bytes of a file

A file is written in one of three encodings. Its bytes are read in the layout they show: a byte
order mark decides, then a zero byte beside the first `<`, and only then the encoding that the
reader was told to expect. The mark is no part of the text.

## Contents

* `Encoding`, `Encoding.label` — what a file is written in.
* `Layout`, `Layout.detect` — what its bytes turn out to be.
* `Encoding.encode`, `Encoding.decode` — between texts and bytes.
* `EncodingError` — why a text has no bytes, or bytes no text.
-/

namespace Groundwork

open Text

/-! ## Encodings and layouts -/

/-- What a file is written in, and read in where its bytes do not tell. -/
inductive Encoding where
  /-- Sixteen-bit units, low byte first, behind a byte order mark. -/
  | utf16
  /-- UTF-8 without a byte order mark. -/
  | utf8
  /-- Seven-bit characters only. -/
  | ascii
  deriving DecidableEq, Repr

namespace Encoding

/-- UTF-16 is what a file is in when nothing else is asked for. -/
instance : Inhabited Encoding := ⟨.utf16⟩

/-- The name of the encoding in an XML declaration. -/
def label : Encoding → String
  | .utf16 => "UTF-16"
  | .utf8 => "UTF-8"
  | .ascii => "US-ASCII"

end Encoding

/-- How the bytes of a file are laid out. -/
inductive Layout where
  | utf8
  | utf16 (order : Utf16.ByteOrder)
  | ascii
  deriving DecidableEq, Repr

namespace Layout

/-- The bytes that announce the layout at the start of a file; none announce ASCII. -/
def mark : Layout → List UInt8
  | .utf8 => [0xEF, 0xBB, 0xBF]
  | .utf16 .little => [0xFF, 0xFE]
  | .utf16 .big => [0xFE, 0xFF]
  | .ascii => []

/-- The layout of a file that does not show its own. -/
def ofEncoding : Encoding → Layout
  | .utf16 => .utf16 .little
  | .utf8 => .utf8
  | .ascii => .ascii

/-- The layout of some bytes, for a reader that expects `configured`. Marks come first; then the two
bytes that `<` takes in either order of UTF-16. -/
def detect (configured : Encoding) (bytes : List UInt8) : Layout :=
  if (mark .utf8).isPrefixOf bytes then .utf8
  else if (mark (.utf16 .little)).isPrefixOf bytes then .utf16 .little
  else if (mark (.utf16 .big)).isPrefixOf bytes then .utf16 .big
  else if [0x00, 0x3C].isPrefixOf bytes then .utf16 .big
  else if [0x3C, 0x00].isPrefixOf bytes then .utf16 .little
  else ofEncoding configured

/-- The bytes behind the mark, where there is one. -/
def body (layout : Layout) (bytes : List UInt8) : List UInt8 :=
  (stripFront? layout.mark bytes).getD bytes

end Layout

/-! ## Errors -/

/-- Why some bytes are no text, or a text cannot be written. -/
inductive EncodingError where
  /-- The bytes behind the mark are not UTF-8. -/
  | invalidUtf8 (place : Utf8.Malformed)
  /-- A byte past 0x7F stands in an ASCII file. -/
  | invalidAscii (byte : UInt8) (index : Nat)
  /-- Half a unit is left over. -/
  | oddLength (order : Utf16.ByteOrder)
  /-- Half a surrogate pair stands alone. -/
  | loneSurrogate (order : Utf16.ByteOrder)
  /-- A character of the text, at this byte offset, has no place in an ASCII file. -/
  | notAscii (c : Char) (offset : Nat)
  deriving DecidableEq, Repr

namespace EncodingError

/-- The two letters by which messages name a byte order. -/
def orderName : Utf16.ByteOrder → String
  | .little => "LE"
  | .big => "BE"

/-- The wording of the place where bytes stop being UTF-8. -/
def utf8Message (place : Utf8.Malformed) : String :=
  match place.defect with
  | .invalid length =>
    "invalid utf-8 sequence of " ++ toString length ++ " bytes from index " ++ toString place.index
  | .incomplete => "incomplete utf-8 byte sequence from index " ++ toString place.index

/-- The wording of an encoding error. -/
def message : EncodingError → String
  | .invalidUtf8 place => "Invalid UTF-8: " ++ utf8Message place
  | .invalidAscii byte index =>
    "Invalid ASCII: byte 0x" ++ hexByte byte ++ " at offset " ++ toString index
  | .oddLength order => "Invalid UTF-16 " ++ orderName order ++ ": odd number of bytes"
  | .loneSurrogate order =>
    "Invalid UTF-16 " ++ orderName order ++ ": invalid utf-16: lone surrogate found"
  | .notAscii c offset =>
    "Character " ++ quoteChar c ++ " at offset " ++ toString offset ++ " is not ASCII"

end EncodingError

/-! ## Decoding -/

namespace Layout

/-- The text of bytes in UTF-8. -/
def decodeUtf8 (bytes : List UInt8) : Except EncodingError String :=
  match Utf8.decode bytes with
  | .ok cs => .ok (String.ofList cs)
  | .error place => .error (.invalidUtf8 place)

/-- The text of bytes in UTF-16. -/
def decodeUtf16 (order : Utf16.ByteOrder) (bytes : List UInt8) : Except EncodingError String :=
  match Utf16.ofBytes? order bytes with
  | none => .error (.oddLength order)
  | some units =>
    match Utf16.decode units with
    | none => .error (.loneSurrogate order)
    | some cs => .ok (String.ofList cs)

/-- The text of bytes in ASCII. -/
def decodeAscii (bytes : List UInt8) : Except EncodingError String :=
  match bytes.zipIdx.find? fun p => 0x80 ≤ p.1 with
  | some (byte, index) => .error (.invalidAscii byte index)
  | none => .ok (String.ofList (bytes.map fun b => Char.ofNat b.toNat))

/-- The text of bytes without a mark. -/
def decode : Layout → List UInt8 → Except EncodingError String
  | .utf8, bytes => decodeUtf8 bytes
  | .utf16 order, bytes => decodeUtf16 order bytes
  | .ascii, bytes => decodeAscii bytes

end Layout

namespace Encoding

/-- The text of a file's bytes, for a reader that expects `configured`. -/
def decode (configured : Encoding) (bytes : List UInt8) : Except EncodingError String :=
  let layout := Layout.detect configured bytes
  layout.decode (layout.body bytes)

/-! ## Encoding -/

/-- The bytes of a file with this text. -/
def encode (encoding : Encoding) (text : String) : Except EncodingError (List UInt8) :=
  let cs := text.toList
  match encoding with
  | .utf8 => .ok (Utf8.encode cs)
  | .ascii =>
    match cs.zipIdx.find? fun p => 0x80 ≤ p.1.toNat with
    | some (c, offset) => .error (.notAscii c offset)
    | none => .ok (Utf8.encode cs)
  | .utf16 => .ok ((Layout.utf16 .little).mark ++ Utf16.toBytes .little (Utf16.encode cs))

end Encoding

end Groundwork
