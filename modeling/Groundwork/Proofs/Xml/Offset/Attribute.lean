import Groundwork.Proofs.Xml.Attribute
import Groundwork.Proofs.Xml.ByteCursor
import Groundwork.Proofs.Xml.Offset.Reference

/-!
# `Proofs.Xml.Offset.Attribute` — attribute sections, by byte offsets

Names and white space are passed over byte by byte, and a value is looked for by its closing quote.
All bytes of a character that is not ASCII may stand in a name and none of them is white space, so a
name ends between two characters.

## Contents

* `steadyClass_isSpace`, `steadyClass_isNamePart` — the classes, asked of bytes.
* `Offset.attributeAt`, `Offset.attributeAt_eq` — one attribute.
* `Offset.attributes`, `Offset.attributes_eq` — **a section read by places**, and that no cut fails.
-/

namespace Groundwork.Xml

open Text

/-! ## Classes -/

theorem isNameStart_of_not_isAscii {c : Char} (h : ¬ IsAscii c) : isNameStart c = true := by
  have hle : 0x80 ≤ c.toNat := Nat.le_of_not_lt h
  simp [isNameStart, hle]

theorem steadyClass_isNameStart : SteadyClass isNameStart :=
  .inl fun _ => isNameStart_of_not_isAscii

theorem steadyClass_isNamePart : SteadyClass isNamePart :=
  .inl fun c h => by rw [isNamePart, isNameStart_of_not_isAscii h]; rfl

theorem steadyClass_isSpace : SteadyClass isSpace := by
  refine .inr fun c h => Bool.eq_false_iff.2 fun hspace => h ?_
  simp only [isSpace, Bool.or_eq_true, decide_eq_true_eq] at hspace
  rcases hspace with ((rfl | rfl) | rfl) | rfl <;> decide

/-! ## One attribute, in two halves -/

namespace Attribute

/-- Reads what follows the name of an attribute: an equals sign, with white space around it, and a
quoted value. -/
def readAssigned (cs : List Char) : Except AttributeError (String × List Char) :=
  match cs.dropWhile isSpace with
  | '=' :: afterSign => readValue (afterSign.dropWhile isSpace)
  | _ => .error .missingValue

theorem readAssigned_of_eq {cs afterSign : List Char}
    (h : cs.dropWhile isSpace = '=' :: afterSign) :
    readAssigned cs = readValue (afterSign.dropWhile isSpace) := by
  simp only [readAssigned, h]

theorem readAssigned_of_ne {cs : List Char} (h : (cs.dropWhile isSpace).head? ≠ some '=') :
    readAssigned cs = .error .missingValue := by
  unfold readAssigned
  split
  · next hcs =>
    rw [hcs] at h
    exact absurd rfl h
  · rfl

theorem read_eq (cs : List Char) :
    read cs =
      match readName? cs with
      | none => .error .invalidName
      | some (name, afterName) =>
        (readAssigned afterName).map fun found => (⟨String.ofList name, found.1⟩, found.2) := by
  unfold read
  cases readName? cs with
  | none => rfl
  | some found =>
    simp only
    split
    · next afterSign hsign =>
      rw [readAssigned_of_eq hsign]
      cases readValue (afterSign.dropWhile isSpace) <;> rfl
    · next hother =>
      have hne : (found.2.dropWhile isSpace).head? ≠ some '=' := by
        intro hhead
        obtain ⟨afterSign, hsign⟩ := List.head?_eq_some_iff.1 hhead
        exact hother afterSign hsign
      rw [readAssigned_of_ne hne]
      rfl

/-- One step of the loop over a section. -/
theorem readFrom_of_cons {cs rest : List Char} {c : Char} (h : cs.dropWhile isSpace = c :: rest)
    (passed : List Attribute) :
    readFrom passed cs =
      if !passed.isEmpty && !cs.head?.any isSpace then .error .missingSpace
      else
        match read (c :: rest) with
        | .error e => .error e
        | .ok (a, after) =>
          if passed.any fun p => p.name = a.name then .error .duplicate
          else readFrom (a :: passed) after := by
  rw [readFrom]
  split
  · next hnil =>
    rw [hnil] at h
    cases h
  · next c' rest' hcons =>
    obtain ⟨rfl, rfl⟩ := List.cons.inj (hcons.symm.trans h)
    congr 1
    split
    · next e he => simp only [he]
    · next a after hread => simp only [hread]

end Attribute

namespace Offset

/-! ## One attribute -/

/-- Reads a value, from the place behind its opening quote on: the value, and the place behind its
closing quote. -/
def valueAt (cs : List Char) (quote : Char) (place : Nat) :
    Option (Except AttributeError (String × Nat)) := do
  match ← findFrom? (Utf8.encode cs) place (Utf8.encode [quote]) with
  | none => return .error .unterminatedValue
  | some stop =>
    let raw ← slice? cs place stop
    if '<' ∈ raw then return .error .markupInValue
    else
      match ← decode raw with
      | .ok value => return .ok (String.ofList value, stop + 1)
      | .error e => return .error (.reference e)

/-- Reads a value together with its quotes. -/
def quotedAt (cs : List Char) (place : Nat) : Option (Except AttributeError (String × Nat)) :=
  match (Utf8.encode cs)[place]? with
  | none => some (.error .unquotedValue)
  | some b =>
    if Char.ofUInt8 b ∈ Attribute.quotes then valueAt cs (Char.ofUInt8 b) (place + 1)
    else some (.error .unquotedValue)

/-- Reads an equals sign, with white space around it, and a value. -/
def assignedAt (cs : List Char) (place : Nat) : Option (Except AttributeError (String × Nat)) := do
  let sign ← skip isSpace (Utf8.encode cs) place
  if (Utf8.encode cs)[sign]? ≠ some (asciiByte '=') then return .error .missingValue
  else
    let quote ← skip isSpace (Utf8.encode cs) (sign + 1)
    quotedAt cs quote

/-- Reads the attribute whose name starts at a place: the attribute, and the place behind it. -/
def attributeAt (cs : List Char) (place : Nat) :
    Option (Except AttributeError (Attribute × Nat)) := do
  let b ← (Utf8.encode cs)[place]?
  if !isNameStart (Char.ofUInt8 b) then return .error .invalidName
  else
    let nameEnd ← skip isNamePart (Utf8.encode cs) place
    let name ← slice? cs place nameEnd
    match ← assignedAt cs nameEnd with
    | .ok (value, next) => return .ok (⟨String.ofList name, value⟩, next)
    | .error e => return .error e

theorem valueAt_eq {cs rest : List Char} {place : Nat} {quote : Char}
    (h : StandsAt cs (place + 1) rest) (hquote : quote ∈ Attribute.quotes) :
    valueAt cs quote (place + 1) =
      some ((Attribute.readValue (quote :: rest)).map fun found =>
        (found.1, Utf8.size cs - Utf8.size found.2)) := by
  have hascii := isAscii_of_mem_quotes hquote
  rw [valueAt, h.findFrom? hascii, Attribute.readValue, if_pos hquote]
  cases hsplit : splitOnce? [quote] rest with
  | none => rfl
  | some found =>
    obtain ⟨raw, after⟩ := found
    have hrest : rest = raw ++ (quote :: after) := by simpa using eq_of_splitOnce? hsplit
    rw [hrest] at h
    have hnext : StandsAt cs (place + 1 + Utf8.size raw + 1) after := h.advance.succ hascii
    simp only [Option.map_some, Option.bind_eq_bind, Option.bind_some, h.slice?, decode_eq]
    split
    · rfl
    · cases Reference.decode raw with
      | error e => rfl
      | ok value =>
        rw [hnext.eq_sub]
        rfl

theorem quotedAt_eq {cs rest : List Char} {place : Nat} (h : StandsAt cs place rest) :
    quotedAt cs place =
      some ((Attribute.readValue rest).map fun found =>
        (found.1, Utf8.size cs - Utf8.size found.2)) := by
  cases rest with
  | nil =>
    rw [quotedAt, h.getElem?]
    rfl
  | cons c rest =>
    obtain ⟨b, hmem, hbyte⟩ := h.exists_byte
    rw [quotedAt, hbyte]
    simp only
    by_cases hc : c ∈ Attribute.quotes
    · have hascii := isAscii_of_mem_quotes hc
      have hb : Char.ofUInt8 b = c := (ofUInt8_eq_iff hascii hmem).2 rfl
      rw [hb, if_pos hc, valueAt_eq (h.succ hascii) hc]
    · have hb : Char.ofUInt8 b ∉ Attribute.quotes := fun hquote =>
        hc ((ofUInt8_eq_iff (isAscii_of_mem_quotes hquote) hmem).1 rfl ▸ hquote)
      rw [if_neg hb, Attribute.readValue, if_neg hc]
      rfl

theorem assignedAt_eq {cs rest : List Char} {place : Nat} (h : StandsAt cs place rest) :
    assignedAt cs place =
      some ((Attribute.readAssigned rest).map fun found =>
        (found.1, Utf8.size cs - Utf8.size found.2)) := by
  have hsign := h.dropWhile isSpace
  rw [assignedAt, h.skip steadyClass_isSpace, Option.bind_eq_bind, Option.bind_some,
    hsign.getElem?]
  split
  · next hother =>
    rw [Ne, head?_encode_eq_iff (by decide)] at hother
    rw [Attribute.readAssigned_of_ne hother]
    rfl
  · next hequals =>
    rw [Decidable.not_not, head?_encode_eq_iff (by decide)] at hequals
    obtain ⟨afterSign, hcs⟩ := List.head?_eq_some_iff.1 hequals
    rw [hcs] at hsign
    have hbehind : StandsAt cs (place + Utf8.size (rest.takeWhile isSpace) + 1) afterSign :=
      hsign.succ (by decide)
    rw [hbehind.skip steadyClass_isSpace, Option.bind_some,
      quotedAt_eq (hbehind.dropWhile isSpace), Attribute.readAssigned_of_eq hcs]

/-- A name is read as far as its characters go. -/
theorem readName?_of_isNameStart {c : Char} (hc : isNameStart c = true) (cs : List Char) :
    readName? (c :: cs) =
      some ((c :: cs).takeWhile isNamePart, (c :: cs).dropWhile isNamePart) := by
  have hpart : isNamePart c = true := by rw [isNamePart, hc]; rfl
  rw [readName?, if_pos hc, List.takeWhile_cons, List.dropWhile_cons, hpart]
  rfl

theorem readName?_eq_none {cs : List Char} (h : ¬ cs.head?.any isNameStart = true) :
    readName? cs = none := by
  cases cs with
  | nil => rfl
  | cons c cs => exact if_neg h

theorem attributeAt_eq {cs rest : List Char} {c : Char} {place : Nat}
    (h : StandsAt cs place (c :: rest)) :
    attributeAt cs place =
      some ((Attribute.read (c :: rest)).map fun found =>
        (found.1, Utf8.size cs - Utf8.size found.2)) := by
  obtain ⟨b, hmem, hbyte⟩ := h.exists_byte
  rw [attributeAt, hbyte, Option.bind_eq_bind, Option.bind_some,
    steadyClass_isNameStart.eq_of_mem hmem, Attribute.read_eq]
  cases hc : isNameStart c with
  | false =>
    rw [readName?, hc]
    rfl
  | true =>
    have hname : StandsAt cs place
        ((c :: rest).takeWhile isNamePart ++ (c :: rest).dropWhile isNamePart) := by
      rwa [List.takeWhile_append_dropWhile]
    rw [readName?_of_isNameStart hc]
    simp only [Bool.not_true, Bool.false_eq_true, if_false, h.skip steadyClass_isNamePart,
      Option.bind_eq_bind, Option.bind_some, hname.slice?, assignedAt_eq hname.advance]
    cases Attribute.readAssigned ((c :: rest).dropWhile isNamePart) <;> rfl

/-! ## A whole section -/

section Progress

variable {cs : List Char} {quote : Char} {place next : Nat} {value : String}

theorem lt_of_valueAt (h : valueAt cs quote place = some (.ok (value, next))) : place < next := by
  unfold valueAt at h
  obtain ⟨found, hfind, h⟩ := Option.bind_eq_some_iff.1 h
  cases found with
  | none => cases h
  | some stop =>
    have hle := le_of_findFrom? hfind
    obtain ⟨raw, -, h⟩ := Option.bind_eq_some_iff.1 h
    split at h
    · cases h
    · obtain ⟨decoded, -, h⟩ := Option.bind_eq_some_iff.1 h
      cases decoded with
      | error e => cases h
      | ok out =>
        obtain ⟨-, rfl⟩ := Prod.mk.inj (Except.ok.inj (Option.some.inj h))
        omega

theorem lt_of_quotedAt (h : quotedAt cs place = some (.ok (value, next))) : place < next := by
  unfold quotedAt at h
  split at h
  · cases h
  split at h
  · have hlt := lt_of_valueAt h
    omega
  · cases h

theorem lt_of_assignedAt (h : assignedAt cs place = some (.ok (value, next))) : place < next := by
  unfold assignedAt at h
  obtain ⟨sign, hsign, h⟩ := Option.bind_eq_some_iff.1 h
  split at h
  · cases h
  · obtain ⟨quote, hquote, h⟩ := Option.bind_eq_some_iff.1 h
    have hle := le_of_skip hsign
    have hbehind := le_of_skip hquote
    have hlt := lt_of_quotedAt h
    omega

/-- Reading an attribute moves on. -/
theorem lt_of_attributeAt {a : Attribute} (h : attributeAt cs place = some (.ok (a, next))) :
    place < next := by
  unfold attributeAt at h
  obtain ⟨b, -, h⟩ := Option.bind_eq_some_iff.1 h
  split at h
  · cases h
  · obtain ⟨nameEnd, hskip, h⟩ := Option.bind_eq_some_iff.1 h
    obtain ⟨name, -, h⟩ := Option.bind_eq_some_iff.1 h
    obtain ⟨found, hfound, h⟩ := Option.bind_eq_some_iff.1 h
    cases found with
    | error e => cases h
    | ok found =>
      obtain ⟨-, rfl⟩ := Prod.mk.inj (Except.ok.inj (Option.some.inj h))
      have hle := le_of_skip hskip
      have hlt := lt_of_assignedAt hfound
      omega

end Progress

/-- Reads the rest of a section, with the attributes before it newest first. -/
def attributesFrom (cs : List Char) (passed : List Attribute) (place : Nat) :
    Option (Except AttributeError (List Attribute)) :=
  match hskip : skip isSpace (Utf8.encode cs) place with
  | none => none
  | some start =>
    if hend : (Utf8.encode cs).length ≤ start then some (.ok passed.reverse)
    else if !passed.isEmpty && start = place then some (.error .missingSpace)
    else
      match hread : attributeAt cs start with
      | none => none
      | some (.error e) => some (.error e)
      | some (.ok (a, next)) =>
        if passed.any fun p => p.name = a.name then some (.error .duplicate)
        else
          have : (Utf8.encode cs).length - next < (Utf8.encode cs).length - place := by
            have hle := le_of_skip hskip
            have hlt := lt_of_attributeAt hread
            omega
          attributesFrom cs (a :: passed) next
termination_by (Utf8.encode cs).length - place

/-- The attributes of a section, in their order. -/
def attributes (cs : List Char) : Option (Except AttributeError (List Attribute)) :=
  attributesFrom cs [] 0

/-- One step of the loop. -/
theorem attributesFrom_of_lt {cs : List Char} {place start : Nat}
    (hskip : skip isSpace (Utf8.encode cs) place = some start)
    (hlt : start < (Utf8.encode cs).length) (passed : List Attribute) :
    attributesFrom cs passed place =
      if !passed.isEmpty && start = place then some (.error .missingSpace)
      else
        match attributeAt cs start with
        | none => none
        | some (.error e) => some (.error e)
        | some (.ok (a, next)) =>
          if passed.any fun p => p.name = a.name then some (.error .duplicate)
          else attributesFrom cs (a :: passed) next := by
  rw [attributesFrom]
  split
  · next hnone => simp [hskip] at hnone
  · next start' hsome =>
    obtain rfl := Option.some.inj (hskip.symm.trans hsome)
    rw [dif_neg (by omega)]
    congr 1
    split
    · next he => simp only [he]
    · next he => simp only [he]
    · next hread => simp only [hread]

/-- Whether there is white space shows in how far one gets. -/
theorem decide_add_size_takeWhile {cs rest : List Char} {c : Char}
    (h : cs.dropWhile isSpace = c :: rest) (place : Nat) :
    decide (place + Utf8.size (cs.takeWhile isSpace) = place) = !cs.head?.any isSpace := by
  cases cs with
  | nil => cases h
  | cons d cs =>
    have hpos := d.utf8Size_pos
    show _ = !isSpace d
    rw [List.takeWhile_cons]
    cases isSpace d with
    | false => exact decide_eq_true rfl
    | true =>
      refine decide_eq_false fun heq => ?_
      rw [if_pos rfl, Utf8.size_cons] at heq
      omega

/-- **No cut fails**, and what comes out are the attributes read character by character. -/
theorem attributesFrom_eq {cs rest : List Char} {place : Nat} (h : StandsAt cs place rest)
    (passed : List Attribute) :
    attributesFrom cs passed place = some (Attribute.readFrom passed rest) := by
  induction hn : rest.length using Nat.strongRecOn generalizing rest place passed with
  | ind n ih =>
    have hskip := h.skip steadyClass_isSpace
    have hstart := h.dropWhile isSpace
    have hend := hstart.add_size
    rw [← Utf8.length_encode cs] at hend
    -- the end of the bytes is reached where only white space is left
    cases hdrop : rest.dropWhile isSpace with
    | nil =>
      rw [Attribute.readFrom_of_isSpace passed (List.dropWhile_eq_nil_iff.1 hdrop), attributesFrom]
      rw [hdrop, Utf8.size_nil, Nat.add_zero] at hend
      split
      · next hnone => simp [hskip] at hnone
      · next start hsome =>
        obtain rfl := Option.some.inj (hskip.symm.trans hsome)
        rw [dif_pos (Nat.le_of_eq hend.symm)]
    | cons c later =>
      rw [hdrop] at hstart hend
      have hpos := c.utf8Size_pos
      rw [Utf8.size_cons] at hend
      rw [attributesFrom_of_lt hskip (by omega), Attribute.readFrom_of_cons hdrop,
        attributeAt_eq hstart]
      rw [decide_add_size_takeWhile hdrop]
      split
      · rfl
      cases hread : Attribute.read (c :: later) with
      | error e => rfl
      | ok found =>
        obtain ⟨a, after⟩ := found
        obtain ⟨front, hfront, -⟩ := Attribute.exists_of_read hread
        have hlength := Attribute.length_read hread
        have hle := (List.dropWhile_suffix isSpace (l := rest)).length_le
        rw [hdrop] at hle
        rw [hfront] at hstart
        simp only [Except.map]
        split
        · rfl
        · exact ih _ (by omega) hstart.behind _ rfl

/-- **Sections read by places are sections read.** -/
theorem attributes_eq (cs : List Char) : attributes cs = some (Attribute.readAll cs) :=
  attributesFrom_eq (StandsAt.zero cs) []

end Offset

end Groundwork.Xml
