import Groundwork.Text.Printable

/-!
# `Text.Quoted` — characters and strings as messages show them

A message that names a single character puts it in single quotes, and writes it by number, `\u{1f}`,
where it would not be seen or would attach to the quote.

## Contents

* `hex` — a number in lower-case hexadecimal digits.
* `quoteChar` — a character from U+0080 on, in quotes.
-/

namespace Groundwork.Text

/-- A number in hexadecimal, in lower case and without leading zeros. -/
def hex (n : Nat) : String := String.ofList (Nat.toDigits 16 n)

/-- A hexadecimal number in upper case, at least two digits wide. -/
def hexByte (b : UInt8) : String :=
  let digits := (Nat.toDigits 16 b.toNat).map Char.toUpper
  String.ofList (if digits.length < 2 then '0' :: digits else digits)

/-- A character that is not ASCII, in single quotes, by its number where it has no visible form of
its own. -/
def quoteChar (c : Char) : String :=
  if isPrintable c && !extendsGrapheme c then "'" ++ c.toString ++ "'"
  else "'\\u\x7b" ++ hex c.toNat ++ "\x7d'"

end Groundwork.Text
