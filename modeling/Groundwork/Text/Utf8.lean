/-!
# `Text.Utf8` — text as UTF-8 bytes

Encoding is core's, character by character. Decoding accepts the well-formed byte sequences only (no
overlong forms, no surrogates, nothing above U+10FFFF) and says of any other where the first
ill-formed sequence starts and how long its longest well-formed beginning is.

## Contents

* `encode`, `size` — the bytes of a text and their number; `length_encode`, `size_append`.
* `decode` — the text of a byte sequence, or the `Malformed` place in it.
-/

namespace Groundwork.Text.Utf8

/-! ## Encoding -/

/-- The bytes of a text. -/
def encode (cs : List Char) : List UInt8 := cs.flatMap String.utf8EncodeChar

/-- The number of bytes of a text. -/
def size (cs : List Char) : Nat := cs.foldl (fun n c => n + c.utf8Size) 0

@[simp] theorem size_nil : size [] = 0 := rfl

theorem foldl_utf8Size (n : Nat) (cs : List Char) :
    cs.foldl (fun n c => n + c.utf8Size) n = n + size cs := by
  induction cs generalizing n with
  | nil => rfl
  | cons c cs ih => rw [size, List.foldl_cons, List.foldl_cons, ih, ih, Nat.zero_add, Nat.add_assoc]

@[simp] theorem size_cons (c : Char) (cs : List Char) : size (c :: cs) = c.utf8Size + size cs := by
  rw [size, List.foldl_cons, foldl_utf8Size, Nat.zero_add]

@[simp] theorem size_append (cs ds : List Char) : size (cs ++ ds) = size cs + size ds := by
  induction cs with
  | nil => simp
  | cons c cs ih => rw [List.cons_append, size_cons, size_cons, ih, Nat.add_assoc]

theorem length_encode (cs : List Char) : (encode cs).length = size cs := by
  induction cs with
  | nil => rfl
  | cons c cs ih =>
    rw [encode, List.flatMap_cons, List.length_append, String.length_utf8EncodeChar, size_cons,
      ← ih, encode]

/-! ## Decoding -/

/-- What is wrong with a byte sequence where no character can be read off its front. -/
inductive Defect where
  /-- No character starts with these bytes; the longest beginning of one that they show has `length`
  bytes, and `length` is 1 also where they show none. -/
  | invalid (length : Nat)
  /-- The input ends inside a character. -/
  | incomplete
  deriving DecidableEq, Repr

/-- The place of the first character that cannot be read, as an index into the bytes, and what is
wrong there. -/
structure Malformed where
  index : Nat
  defect : Defect
  deriving DecidableEq, Repr

/-- What the first byte of a character says about the rest of it. -/
structure Lead where
  /-- How many bytes follow. -/
  following : Nat
  /-- The least value of the next byte. -/
  low : UInt8
  /-- The greatest value of the next byte. -/
  high : UInt8
  /-- The bits of the code point that the first byte carries. -/
  bits : Nat
  deriving DecidableEq, Repr

/-- The lengths and second-byte ranges of well-formed UTF-8; the narrowed ranges shut out overlong
forms, surrogates and numbers past the last code point. -/
def lead? (b : UInt8) : Option Lead :=
  let n := b.toNat
  if n < 0x80 then some ⟨0, 0x80, 0xBF, n⟩
  -- continuation bytes, and the two that could only start overlong forms
  else if n < 0xC2 then none
  else if n < 0xE0 then some ⟨1, 0x80, 0xBF, n - 0xC0⟩
  else if n = 0xE0 then some ⟨2, 0xA0, 0xBF, 0⟩
  -- from U+D800 on lie the surrogates
  else if n = 0xED then some ⟨2, 0x80, 0x9F, 0xD⟩
  else if n < 0xF0 then some ⟨2, 0x80, 0xBF, n - 0xE0⟩
  else if n = 0xF0 then some ⟨3, 0x90, 0xBF, 0⟩
  else if n < 0xF4 then some ⟨3, 0x80, 0xBF, n - 0xF0⟩
  else if n = 0xF4 then some ⟨3, 0x80, 0x8F, 4⟩
  else none

/-- Reads `following` more bytes of a character of which `seen` bytes gave the number `value`; the
next one has to lie between `low` and `high`, and those after it are any continuation bytes. -/
def readFollowing (low high : UInt8) (seen value : Nat) :
    (following : Nat) → List UInt8 → Except Defect (Nat × List UInt8)
  | 0, bytes => .ok (value, bytes)
  | _ + 1, [] => .error .incomplete
  | following + 1, b :: bytes =>
    if low ≤ b && b ≤ high then
      readFollowing 0x80 0xBF (seen + 1) (value * 0x40 + (b.toNat - 0x80)) following bytes
    else .error (.invalid seen)

/-- Reads the character that starts with `b`. -/
def readChar (b : UInt8) (bytes : List UInt8) : Except Defect (Char × List UInt8) :=
  match lead? b with
  | none => .error (.invalid 1)
  | some lead =>
    match readFollowing lead.low lead.high 1 lead.bits lead.following bytes with
    | .ok (value, rest) => .ok (Char.ofNat value, rest)
    | .error defect => .error defect

theorem length_readFollowing {low high : UInt8} {seen value following v : Nat}
    {bytes rest : List UInt8}
    (h : readFollowing low high seen value following bytes = .ok (v, rest)) :
    rest.length ≤ bytes.length := by
  induction following generalizing low high seen value bytes with
  | zero => simp [readFollowing] at h; simp [h]
  | succ following ih =>
    cases bytes with
    | nil => simp [readFollowing] at h
    | cons b bytes =>
      rw [readFollowing] at h
      split at h
      · exact Nat.le_succ_of_le (ih h)
      · simp at h

theorem length_readChar {b : UInt8} {bytes rest : List UInt8} {c : Char}
    (h : readChar b bytes = .ok (c, rest)) : rest.length ≤ bytes.length := by
  unfold readChar at h
  split at h
  · simp at h
  · split at h
    · next hread =>
      simp only [Except.ok.injEq, Prod.mk.injEq] at h
      exact h.2 ▸ length_readFollowing hread
    · simp at h

/-- The decoding of `decode` from byte `index` on, with the text before it newest first. -/
def decodeFrom (index : Nat) (passed : List Char) : List UInt8 → Except Malformed (List Char)
  | [] => .ok passed.reverse
  | b :: bytes =>
    match h : readChar b bytes with
    | .error defect => .error ⟨index, defect⟩
    | .ok (c, rest) =>
      have : rest.length < bytes.length + 1 := Nat.lt_succ_of_le (length_readChar h)
      decodeFrom (index + c.utf8Size) (c :: passed) rest
termination_by bytes => bytes.length

/-- The text whose bytes these are. -/
def decode (bytes : List UInt8) : Except Malformed (List Char) := decodeFrom 0 [] bytes

end Groundwork.Text.Utf8
