import Groundwork.Text.Ranges

/-!
# `Text.Blank` — white space as Unicode defines it

A character is blank when it has the Unicode property White_Space: 25 code points in ten ranges. The
XML grammar knows only four of them (see `Xml.Name`); the wider class decides what may stand around
a root element and how the text of an element with children is trimmed.

## Contents

* `isBlank` — the class.
* `trimBlanks`, `trim` — a text without the blanks at its two ends.
-/

namespace Groundwork.Text

/-! ## The class -/

/-- The code points with the property White_Space, as closed ranges in ascending order. -/
def blankRanges : List (Nat × Nat) :=
  [(0x09, 0x0D), (0x20, 0x20), (0x85, 0x85), (0xA0, 0xA0), (0x1680, 0x1680), (0x2000, 0x200A),
   (0x2028, 0x2029), (0x202F, 0x202F), (0x205F, 0x205F), (0x3000, 0x3000)]

/-- The character is white space. -/
def isBlank (c : Char) : Bool := inRanges blankRanges c.toNat

/-! ## Trimming -/

/-- The characters between the first and the last that are not blank. -/
def trimBlanks (cs : List Char) : List Char :=
  ((cs.dropWhile isBlank).reverse.dropWhile isBlank).reverse

/-- A text without the blanks at its two ends. -/
def trim (s : String) : String := String.ofList (trimBlanks s.toList)

/-- A text of blanks only. -/
def allBlank (s : String) : Bool := s.toList.all isBlank

end Groundwork.Text
