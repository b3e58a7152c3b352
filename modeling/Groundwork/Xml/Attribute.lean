import Groundwork.Text.Search
import Groundwork.Xml.Reference

/-!
# `Xml.Attribute` — named values of an element

An attribute section is what stands between the name of a tag and its end: pairs of a name and a
quoted value, each but the first behind white space. Values hold references and no `<`; names are
pairwise distinct.

## Contents

* `Attribute`, and `get?`, `put`, `remove` on lists of them, which keep the order of insertion;
  `get?_put`, `get?_remove_of_ne`.
* `Attribute.read` — one attribute off the front of a section; `length_read`.
* `Attribute.readAll` — a whole section; `AttributeError` for the first thing wrong with it.
-/

namespace Groundwork.Xml

open Text

/-- A name and its value. -/
structure Attribute where
  name : String
  value : String
  deriving DecidableEq, Repr, Inhabited

/-- Why a text is no attribute section. -/
inductive AttributeError where
  /-- No white space stands between two attributes. -/
  | missingSpace
  /-- Something stands where a name has to start. -/
  | invalidName
  /-- No equals sign follows the name. -/
  | missingValue
  /-- No quote follows the equals sign. -/
  | unquotedValue
  /-- The value's quote is not closed. -/
  | unterminatedValue
  /-- The value holds a `<`. -/
  | markupInValue
  /-- A reference in the value stands for nothing. -/
  | reference (error : ReferenceError)
  /-- The name stands a second time. -/
  | duplicate
  deriving DecidableEq, Repr

/-- The wording of an attribute error. -/
def AttributeError.message : AttributeError → String
  | .missingSpace => "Attributes must be separated by whitespace"
  | .invalidName => "Attribute name must start with letter, underscore, or colon"
  | .missingValue => "Attribute without value"
  | .unquotedValue => "Attribute value must be quoted"
  | .unterminatedValue => "Unterminated attribute value"
  | .markupInValue => "'<' not allowed in attribute value"
  | .reference error => error.message
  | .duplicate => "Duplicate attribute"

namespace Attribute

/-! ## Lists of attributes -/

/-- The value of the first attribute with this name. -/
def get? (name : String) (attributes : List Attribute) : Option String :=
  (attributes.find? fun a => a.name = name).map (·.value)

/-- Gives the first attribute of this name a new value, in its place, or adds one at the end. -/
def put (name value : String) : List Attribute → List Attribute
  | [] => [⟨name, value⟩]
  | a :: rest => if a.name = name then ⟨name, value⟩ :: rest else a :: put name value rest

/-- The list without the first attribute of this name. -/
def remove (name : String) (attributes : List Attribute) : List Attribute :=
  attributes.eraseP fun a => a.name = name

@[simp] theorem get?_nil (name : String) : get? name [] = none := rfl

theorem get?_cons (name : String) (a : Attribute) (attributes : List Attribute) :
    get? name (a :: attributes) = if a.name = name then some a.value else get? name attributes := by
  by_cases h : a.name = name <;> simp [get?, h]

/-- A value that has been put is found under its name, and all others stay. -/
theorem get?_put (name value other : String) (attributes : List Attribute) :
    get? other (put name value attributes) =
      if name = other then some value else get? other attributes := by
  induction attributes with
  | nil => simp [put, get?_cons]
  | cons a rest ih =>
    rw [put]
    split
    · next h => simp only [get?_cons, h]; split <;> rfl
    · next h =>
      simp only [get?_cons, ih]
      split
      · next ha => rw [if_neg (fun hn => h (ha.trans hn.symm))]
      · rfl

/-- Removing a name leaves the values of the others. -/
theorem get?_remove_of_ne {name other : String} (attributes : List Attribute) (h : name ≠ other) :
    get? other (remove name attributes) = get? other attributes := by
  induction attributes with
  | nil => rfl
  | cons a rest ih =>
    rw [remove, List.eraseP_cons]
    by_cases ha : a.name = name
    · simp [ha, get?_cons, h]
    · simp only [ha, decide_false, cond_false, get?_cons]
      rw [← ih]
      rfl

/-! ## Reading -/

/-- The two characters that may stand around a value. -/
def quotes : List Char := ['"', '\x27']

/-- Reads a quoted value: its text, and what follows the closing quote. -/
def readValue : List Char → Except AttributeError (String × List Char)
  | [] => .error .unquotedValue
  | q :: cs =>
    if q ∈ quotes then
      match splitOnce? [q] cs with
      | none => .error .unterminatedValue
      | some (raw, rest) =>
        if '<' ∈ raw then .error .markupInValue
        else
          match Reference.decode raw with
          | .ok value => .ok (String.ofList value, rest)
          | .error e => .error (.reference e)
    else .error .unquotedValue

/-- Reads the attribute at the front of a text: a name, an equals sign and a quoted value, with
white space around the sign. -/
def read (cs : List Char) : Except AttributeError (Attribute × List Char) :=
  match readName? cs with
  | none => .error .invalidName
  | some (name, afterName) =>
    match afterName.dropWhile isSpace with
    | '=' :: afterSign =>
      match readValue (afterSign.dropWhile isSpace) with
      | .ok (value, rest) => .ok (⟨String.ofList name, value⟩, rest)
      | .error e => .error e
    | _ => .error .missingValue

theorem length_readValue {cs rest : List Char} {value : String}
    (h : readValue cs = .ok (value, rest)) :
    rest.length < cs.length := by
  cases cs with
  | nil => simp [readValue] at h
  | cons q cs =>
    rw [readValue] at h
    split at h
    · split at h
      · simp at h
      · next raw after hsplit =>
        have hlen := congrArg List.length (eq_of_splitOnce? hsplit)
        simp only [List.length_append, List.length_cons, List.length_nil] at hlen
        split at h
        · simp at h
        · split at h
          · simp only [Except.ok.injEq, Prod.mk.injEq] at h
            rw [← h.2, List.length_cons]
            omega
          · simp at h
    · simp at h

/-- Reading an attribute takes something off the text. -/
theorem length_read {cs rest : List Char} {a : Attribute} (h : read cs = .ok (a, rest)) :
    rest.length < cs.length := by
  unfold read at h
  split at h
  · simp at h
  · next name afterName hname =>
    have hcs := congrArg List.length (eq_of_readName? hname)
    split at h
    · next afterSign hsign =>
      split at h
      · next value rest' hvalue =>
        simp only [Except.ok.injEq, Prod.mk.injEq] at h
        have h1 := length_readValue hvalue
        have h2 := (List.dropWhile_suffix isSpace (l := afterSign)).length_le
        have h3 := (List.dropWhile_suffix isSpace (l := afterName)).length_le
        rw [hsign, List.length_cons] at h3
        rw [List.length_append] at hcs
        rw [← h.2]
        omega
      · simp at h
    · simp at h

/-- Reads the rest of a section, with the attributes before it newest first. -/
def readFrom (passed : List Attribute) (cs : List Char) : Except AttributeError (List Attribute) :=
  match h : cs.dropWhile isSpace with
  | [] => .ok passed.reverse
  | c :: rest =>
    -- the first attribute is set apart from the name of the tag by whoever took that off
    if !passed.isEmpty && !(cs.head?.any isSpace) then .error .missingSpace
    else
      match hread : read (c :: rest) with
      | .error e => .error e
      | .ok (a, after) =>
        if passed.any fun p => p.name = a.name then .error .duplicate
        else
          have : after.length < cs.length := by
            have h1 := length_read hread
            have h2 := (List.dropWhile_suffix isSpace (l := cs)).length_le
            rw [h] at h2
            omega
          readFrom (a :: passed) after
termination_by cs.length

/-- The attributes of a section, in their order. -/
def readAll (cs : List Char) : Except AttributeError (List Attribute) := readFrom [] cs

end Attribute

end Groundwork.Xml
