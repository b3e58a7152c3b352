/-!
# `Xml.Name` — the characters of markup

The classes that the XML grammar is written in. Names are taken generously: every character from
U+0080 on may stand anywhere in a name, since its place there decides nothing about where the name
ends. So a class can be asked of a byte of UTF-8 as well as of a character: all bytes of such a
character are at least 0x80.

## Contents

* `isSpace`, `isNameStart`, `isNamePart` — the classes.
* `isName` — a whole text is a name.
* `readName?` — the name at the front of a text; `eq_of_readName?`.
* `isXmlChar` — the numbers of the characters that a document may hold.
-/

namespace Groundwork.Xml

/-! ## Classes -/

/-- The four characters that separate the parts of a tag. -/
def isSpace (c : Char) : Bool := c = ' ' || c = '\t' || c = '\n' || c = '\r'

/-- The character may start a name. -/
def isNameStart (c : Char) : Bool := c.isAlpha || c = '_' || c = ':' || 0x80 ≤ c.toNat

/-- The character may continue a name. -/
def isNamePart (c : Char) : Bool := isNameStart c || c.isDigit || c = '-' || c = '.'

/-- The number is that of a character which a document may hold, directly or by reference. -/
def isXmlChar (n : Nat) : Bool :=
  n = 0x9 || n = 0xA || n = 0xD || 0x20 ≤ n && n ≤ 0xD7FF || 0xE000 ≤ n && n ≤ 0xFFFD
    || 0x10000 ≤ n && n ≤ 0x10FFFF

/-! ## Names -/

/-- The characters form a name. -/
def isName : List Char → Bool
  | [] => false
  | c :: cs => isNameStart c && cs.all isNamePart

/-- The name at the front of a text, as long as it can be, and what follows it. -/
def readName? : List Char → Option (List Char × List Char)
  | [] => none
  | c :: cs =>
    if isNameStart c then some (c :: cs.takeWhile isNamePart, cs.dropWhile isNamePart) else none

/-- Reading a name loses nothing. -/
theorem eq_of_readName? {cs name rest : List Char} (h : readName? cs = some (name, rest)) :
    cs = name ++ rest := by
  cases cs with
  | nil => simp [readName?] at h
  | cons c cs =>
    rw [readName?] at h
    split at h
    · simp only [Option.some.injEq, Prod.mk.injEq] at h
      rw [← h.1, ← h.2, List.cons_append, List.takeWhile_append_dropWhile]
    · simp at h

/-- What is read is a name. -/
theorem isName_of_readName? {cs name rest : List Char} (h : readName? cs = some (name, rest)) :
    isName name = true := by
  cases cs with
  | nil => simp [readName?] at h
  | cons c cs =>
    rw [readName?] at h
    split at h
    · next hc =>
      simp only [Option.some.injEq, Prod.mk.injEq] at h
      rw [← h.1, isName, hc, Bool.true_and, List.all_takeWhile]
    · simp at h

end Groundwork.Xml
