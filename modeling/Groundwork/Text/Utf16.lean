/-!
# `Text.Utf16` — text as 16-bit units

A character below U+10000 is one unit, any other a high and a low surrogate. Decoding accepts every
unit sequence in which surrogates stand in such pairs. Units are laid down as two bytes each, in
either order.

## Contents

* `encode`, `decode` — between characters and units.
* `ByteOrder`, `toBytes`, `ofBytes?` — between units and bytes.
-/

namespace Groundwork.Text.Utf16

/-! ## Units -/

/-- The units of one character. -/
def encodeChar (c : Char) : List UInt16 :=
  if c.toNat < 0x10000 then [c.toNat.toUInt16]
  else
    let n := c.toNat - 0x10000
    [(0xD800 + n / 0x400).toUInt16, (0xDC00 + n % 0x400).toUInt16]

/-- The units of a text. -/
def encode (cs : List Char) : List UInt16 := cs.flatMap encodeChar

/-- The unit is the first half of a pair. -/
def isHigh (u : UInt16) : Bool := 0xD800 ≤ u && u < 0xDC00

/-- The unit is the second half of a pair. -/
def isLow (u : UInt16) : Bool := 0xDC00 ≤ u && u < 0xE000

/-- The character of a pair of surrogates. -/
def ofPair (high low : UInt16) : Char :=
  Char.ofNat (0x10000 + (high.toNat - 0xD800) * 0x400 + (low.toNat - 0xDC00))

/-- The decoding of `decode` with the text already read newest first. -/
def decodeFrom (passed : List Char) : List UInt16 → Option (List Char)
  | [] => some passed.reverse
  | [u] => if isHigh u || isLow u then none else some (Char.ofNat u.toNat :: passed).reverse
  | u :: v :: units =>
    if isHigh u then
      if isLow v then decodeFrom (ofPair u v :: passed) units else none
    else if isLow u then none
    else decodeFrom (Char.ofNat u.toNat :: passed) (v :: units)

/-- The text whose units these are, unless a surrogate stands alone. -/
def decode (units : List UInt16) : Option (List Char) := decodeFrom [] units

/-! ## Bytes -/

/-- Which half of a unit comes first. -/
inductive ByteOrder where
  /-- The low byte first. -/
  | little
  /-- The high byte first. -/
  | big
  deriving DecidableEq, Repr

/-- The two bytes of a unit. -/
def unitBytes (order : ByteOrder) (u : UInt16) : List UInt8 :=
  let low := u.toUInt8
  let high := (u >>> 8).toUInt8
  match order with
  | .little => [low, high]
  | .big => [high, low]

/-- The bytes of a unit sequence. -/
def toBytes (order : ByteOrder) (units : List UInt16) : List UInt8 :=
  units.flatMap (unitBytes order)

/-- The unit of two bytes. -/
def unitOfBytes (order : ByteOrder) (first second : UInt8) : UInt16 :=
  match order with
  | .little => first.toUInt16 ||| (second.toUInt16 <<< 8)
  | .big => (first.toUInt16 <<< 8) ||| second.toUInt16

/-- The units read by `ofBytes?` with those before them newest first. -/
def ofBytesFrom (order : ByteOrder) (passed : List UInt16) : List UInt8 → Option (List UInt16)
  | [] => some passed.reverse
  | [_] => none
  | first :: second :: bytes => ofBytesFrom order (unitOfBytes order first second :: passed) bytes

/-- The units that these bytes lay down, unless a byte is left over. -/
def ofBytes? (order : ByteOrder) (bytes : List UInt8) : Option (List UInt16) :=
  ofBytesFrom order [] bytes

end Groundwork.Text.Utf16
