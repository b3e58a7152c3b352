import Groundwork.Proofs.Xml.Event
import Mathlib.Data.List.DropRight

/-!
# `Proofs.Xml.Piece` — documents written piece by piece

A printer writes a document in pieces: tags, comments, instructions, and the text between them. Each
piece has one spelling, and each is read back as one event, provided that no two texts follow each
other; texts that do are read back as one. What is written loses white space only in one place: an
instruction's data come back without the white space in front of them.

## Contents

* `Piece`, `Piece.spelling`, `Piece.event` — what is written, and as what it is read.
* `Piece.Writable`, `Separated` — when a piece, and a list of pieces, can be told apart again.
* `reading_spellAll` — **a list of pieces is read back as its events, each at its place.**
* `merge`, `reading_merge` — the same of pieces in which texts may follow each other.
* `reading_declaration` — the XML declaration in front of a document.
-/

namespace Groundwork.Xml

open Text

/-- A piece of a document as a printer writes it. -/
inductive Piece where
  | text (content : String)
  | startTag (name : String) (attributes : List Attribute)
  | emptyTag (name : String) (attributes : List Attribute)
  | endTag (name : String)
  | comment (body : String)
  | instruction (target data : String)
  deriving DecidableEq

namespace Piece

/-! ## A single piece -/

/-- The data of an instruction behind the space that separates them from the target. -/
def spellData (data : String) : List Char := if data.isEmpty then [] else ' ' :: data.toList

/-- How a piece is written. -/
def spelling : Piece → List Char
  | .text content => Reference.escapeText content.toList
  | .startTag name attributes => '<' :: name.toList ++ Attribute.spellAll attributes ++ ['>']
  | .emptyTag name attributes => '<' :: name.toList ++ Attribute.spellAll attributes ++ emptyTagEnd
  | .endTag name => endTagOpening ++ name.toList ++ ['>']
  | .comment body => commentOpening ++ body.toList ++ commentEnd
  | .instruction target data =>
    instructionOpening ++ target.toList ++ spellData data ++ instructionEnd

/-- The token that a piece is read as. -/
def token : Piece → Token
  | .text content => .text (Reference.escapeText content.toList)
  | .startTag name attributes => .startTag name.toList (Attribute.spellAll attributes)
  | .emptyTag name attributes => .emptyTag name.toList (Attribute.spellAll attributes)
  | .endTag name => .endTag name.toList
  | .comment body => .comment body.toList
  | .instruction target data =>
    .instruction target.toList (Lexeme.instructionData (spellData data))

/-- The event that a piece is read as. -/
def event : Piece → Event
  | .text content => .text content
  | .startTag name attributes => .startElement name attributes
  | .emptyTag name attributes => .emptyElement name attributes
  | .endTag name => .endElement name
  | .comment body => .comment body
  | .instruction target data =>
    .instruction target ((Lexeme.instructionData (spellData data)).map String.ofList)

/-- The piece is text. -/
def isText : Piece → Bool
  | .text _ => true
  | _ => false

/-- What a piece has to satisfy to be read back. -/
def Writable : Piece → Prop
  | .text content => content ≠ ""
  | .startTag name attributes | .emptyTag name attributes =>
    isName name.toList = true ∧ Attribute.Named attributes
  | .endTag name => isName name.toList = true
  | .comment body => isCommentBody body.toList = true
  | .instruction target data =>
    isName target.toList = true ∧ isReserved target.toList = false ∧
      ¬ instructionEnd <:+: data.toList

/-- Everything but text starts with `<`. -/
theorem exists_spelling_eq {piece : Piece} (h : piece.isText = false) :
    ∃ cs, piece.spelling = '<' :: cs := by
  cases piece with
  | text content => simp [isText] at h
  | startTag name attributes => exact ⟨_, rfl⟩
  | emptyTag name attributes => exact ⟨_, rfl⟩
  | endTag name => exact ⟨_, rfl⟩
  | comment body => exact ⟨_, rfl⟩
  | instruction target data => exact ⟨_, rfl⟩

theorem spelling_ne_nil {piece : Piece} (h : piece.Writable) : piece.spelling ≠ [] := by
  cases htext : piece.isText with
  | false =>
    obtain ⟨cs, hcs⟩ := exists_spelling_eq htext
    simp [hcs]
  | true =>
    cases piece with
    | text content => simpa [spelling, Reference.escapeText_eq_nil_iff, Writable] using h
    | _ => simp [isText] at htext

theorem not_infix_spellData {data : String} (h : ¬ instructionEnd <:+: data.toList) :
    ¬ instructionEnd <:+: spellData data := by
  rw [spellData]
  split
  · simp [instructionEnd]
  · rw [List.infix_cons_iff, not_or]
    refine ⟨?_, h⟩
    rintro ⟨rest, hrest⟩
    simp [instructionEnd] at hrest

theorem isSpace_of_mem_head?_spellData (data : String) :
    ∀ c ∈ (spellData data).head?, isSpace c = true := by
  rw [spellData]
  split
  · simp
  · intro c hc
    obtain rfl : ' ' = c := by simpa using hc
    decide

/-- **A piece is read back**, if text is followed by markup or by nothing. -/
theorem read_spelling (start : Nat) {piece : Piece} (h : piece.Writable) {rest : List Char}
    (hrest : piece.isText = true → ∀ c ∈ rest.head?, c = '<') :
    Lexeme.read start (piece.spelling ++ rest) = .ok (⟨piece.token, piece.spelling⟩, rest) := by
  cases piece with
  | text content =>
    exact Lexeme.read_text start (spelling_ne_nil h)
      (Reference.not_mem_escapeText (by decide) _) (hrest rfl)
  | startTag name attributes =>
    have hspelled := Attribute.allSpelled_spellAll h.2.isName
    exact Lexeme.read_startTag start h.1 hspelled.unmarked hspelled.isSpace_head
      hspelled.getLast?_ne rest
  | emptyTag name attributes =>
    have hspelled := Attribute.allSpelled_spellAll h.2.isName
    exact Lexeme.read_emptyTag start h.1 hspelled.unmarked hspelled.isSpace_head rest
  | endTag name => exact Lexeme.read_endTag start h rest
  | comment body => exact Lexeme.read_comment start h rest
  | instruction target data =>
    exact Lexeme.read_instruction start h.1 h.2.1 (isSpace_of_mem_head?_spellData data)
      (not_infix_spellData h.2.2) rest

theorem ofTag_spellAll (make : List Attribute → Event) {attributes : List Attribute}
    (h : Attribute.Named attributes) :
    Event.ofTag make (Attribute.spellAll attributes) = .ok (make attributes) := by
  rw [Event.ofTag, Attribute.readAll_spellAll h]

theorem ofText_escapeText (content : String) :
    Event.ofText (Reference.escapeText content.toList) = .ok (.text content) := by
  have hno : contains cdataEnd (Reference.escapeText content.toList) = false :=
    contains_eq_false_iff.2 (Reference.not_infix_escapeText _)
  simp [Event.ofText, hno, Reference.decode_escapeText]

theorem ofToken_token {piece : Piece} (h : piece.Writable) :
    Event.ofToken piece.token = .ok piece.event := by
  cases piece with
  | text content => exact ofText_escapeText content
  | startTag name attributes => simpa [token, event, Event.ofToken] using ofTag_spellAll _ h.2
  | emptyTag name attributes => simpa [token, event, Event.ofToken] using ofTag_spellAll _ h.2
  | endTag name => simp [token, event, Event.ofToken]
  | comment body => simp [token, event, Event.ofToken]
  | instruction target data => simp [token, event, Event.ofToken]

/-! ## Lists of pieces -/

/-- No two texts follow each other. -/
def Separated : List Piece → Prop
  | [] => True
  | piece :: pieces =>
    (piece.isText = true → ∀ next ∈ pieces.head?, next.isText = false) ∧ Separated pieces

/-- How pieces are written one after the other. -/
def spellAll (pieces : List Piece) : List Char := pieces.flatMap spelling

theorem spellAll_cons (piece : Piece) (pieces : List Piece) :
    spellAll (piece :: pieces) = piece.spelling ++ spellAll pieces :=
  List.flatMap_cons

theorem spellAll_append (front back : List Piece) :
    spellAll (front ++ back) = spellAll front ++ spellAll back :=
  List.flatMap_append

/-- The events of pieces, each at the byte offset where its piece starts. -/
def placeAll (start : Nat) : List Piece → List (Placed Event)
  | [] => []
  | piece :: pieces =>
    ⟨piece.event, start⟩ :: placeAll (start + Utf8.size piece.spelling) pieces

theorem map_item_placeAll (start : Nat) (pieces : List Piece) :
    (placeAll start pieces).map (·.item) = pieces.map event := by
  induction pieces generalizing start with
  | nil => rfl
  | cons piece pieces ih => rw [placeAll, List.map_cons, List.map_cons, ih]

theorem placeAll_append (start : Nat) (front back : List Piece) :
    placeAll start (front ++ back) =
      placeAll start front ++ placeAll (start + Utf8.size (spellAll front)) back := by
  induction front generalizing start with
  | nil => rfl
  | cons piece front ih =>
    rw [List.cons_append, placeAll, ih, placeAll, List.cons_append, spellAll_cons,
      Utf8.size_append, Nat.add_assoc]

/-- **Pieces are read back as their events.** -/
theorem reading_spellAll (start : Nat) {pieces : List Piece} (hw : ∀ p ∈ pieces, p.Writable)
    (hs : Separated pieces) :
    Event.reading start (spellAll pieces) = (placeAll start pieces, none) := by
  induction pieces generalizing start with
  | nil => exact Event.reading_nil start
  | cons piece pieces ih =>
    have hpiece := hw piece (by simp)
    have hrest : piece.isText = true → ∀ c ∈ (spellAll pieces).head?, c = '<' := by
      intro htext c hc
      cases pieces with
      | nil => simp [spellAll] at hc
      | cons next pieces =>
        obtain ⟨cs, hcs⟩ := exists_spelling_eq (hs.1 htext next rfl)
        simpa [spellAll_cons, hcs, eq_comm] using hc
    have hread := read_spelling start hpiece hrest
    rw [spellAll_cons]
    cases hchars : piece.spelling with
    | nil => exact absurd hchars (spelling_ne_nil hpiece)
    | cons c cs =>
      rw [hchars, List.cons_append] at hread
      rw [List.cons_append, Event.reading_of_read hread (ofToken_token hpiece),
        ih _ (fun p hp => hw p (by simp [hp])) hs.2]
      simp [placeAll, Lexeme.size, hchars]

/-! ## Text beside text -/

/-- Puts text in front of pieces, as one piece with the text that they start with. -/
def consText (content : String) : List Piece → List Piece
  | .text next :: pieces => .text (content ++ next) :: pieces
  | pieces => if content = "" then pieces else .text content :: pieces

/-- The pieces with texts that follow each other made one, and empty texts left out. -/
def merge : List Piece → List Piece
  | [] => []
  | .text content :: pieces => consText content (merge pieces)
  | piece :: pieces => piece :: merge pieces

theorem merge_cons {piece : Piece} (h : piece.isText = false) (pieces : List Piece) :
    merge (piece :: pieces) = piece :: merge pieces := by
  cases piece with
  | text content => cases h
  | _ => rfl

theorem spellAll_consText (content : String) (pieces : List Piece) :
    spellAll (consText content pieces) =
      Reference.escapeText content.toList ++ spellAll pieces := by
  unfold consText
  split
  · simp [spellAll_cons, spelling, Reference.escapeText_append]
  · split
    · next hempty => simp [hempty, Reference.escapeText]
    · rw [spellAll_cons, spelling]

theorem spellAll_merge (pieces : List Piece) : spellAll (merge pieces) = spellAll pieces := by
  induction pieces with
  | nil => rfl
  | cons piece pieces ih =>
    cases piece with
    | text content => rw [merge, spellAll_consText, ih, spellAll_cons, spelling]
    | _ => rw [merge_cons rfl, spellAll_cons, ih, spellAll_cons]

theorem writable_consText {content : String} {pieces : List Piece}
    (h : ∀ p ∈ pieces, p.Writable) : ∀ p ∈ consText content pieces, p.Writable := by
  unfold consText
  split
  · next next pieces =>
    intro p hp
    rcases List.mem_cons.1 hp with rfl | hp
    · have hnext : next ≠ "" := h (.text next) (by simp)
      simpa [Writable] using fun _ => hnext
    · exact h p (by simp [hp])
  · split
    · exact h
    · next hne =>
      intro p hp
      rcases List.mem_cons.1 hp with rfl | hp
      · exact hne
      · exact h p hp

theorem writable_merge {pieces : List Piece}
    (h : ∀ p ∈ pieces, p.isText = false → p.Writable) : ∀ p ∈ merge pieces, p.Writable := by
  induction pieces with
  | nil => simp [merge]
  | cons piece pieces ih =>
    rw [List.forall_mem_cons] at h
    cases htext : piece.isText with
    | true =>
      cases piece with
      | text content => exact writable_consText (ih h.2)
      | _ => cases htext
    | false =>
      rw [merge_cons htext, List.forall_mem_cons]
      exact ⟨h.1 htext, ih h.2⟩

theorem separated_consText {content : String} {pieces : List Piece} (h : Separated pieces) :
    Separated (consText content pieces) := by
  unfold consText
  split
  · exact h
  · next hnot =>
    split
    · exact h
    · refine ⟨fun _ next hnext => ?_, h⟩
      cases next with
      | text next =>
        obtain ⟨rest, rfl⟩ := List.head?_eq_some_iff.1 hnext
        exact absurd rfl (hnot next rest)
      | _ => rfl

/-- Markup in front of pieces keeps them apart. -/
theorem separated_cons {piece : Piece} {pieces : List Piece} (hpiece : piece.isText = false)
    (h : Separated pieces) : Separated (piece :: pieces) :=
  ⟨fun htext => absurd htext (by simp [hpiece]), h⟩

theorem separated_merge (pieces : List Piece) : Separated (merge pieces) := by
  induction pieces with
  | nil => trivial
  | cons piece pieces ih =>
    cases piece with
    | text content => exact separated_consText ih
    | _ => exact separated_cons rfl ih

/-- Text joins nothing behind markup. -/
theorem consText_append_cons {piece : Piece} (h : piece.isText = false) (content : String)
    (front back : List Piece) :
    consText content (front ++ piece :: back) = consText content front ++ piece :: back := by
  cases front with
  | nil =>
    cases piece with
    | text next => cases h
    | _ => by_cases hempty : content = "" <;> simp [consText, hempty]
  | cons first front =>
    cases first with
    | text next => rfl
    | _ => by_cases hempty : content = "" <;> simp [consText, hempty]

/-- Pieces around markup are merged apart from each other. -/
theorem merge_append_cons {piece : Piece} (h : piece.isText = false) (front back : List Piece) :
    merge (front ++ piece :: back) = merge front ++ piece :: merge back := by
  induction front with
  | nil => exact merge_cons h back
  | cons first front ih =>
    cases first with
    | text content =>
      rw [List.cons_append, merge, ih, consText_append_cons h, merge]
    | _ => rw [List.cons_append, merge_cons rfl, ih, merge_cons rfl, List.cons_append]

/-- **Any pieces are read back as the events of the merged pieces.** -/
theorem reading_merge (start : Nat) {pieces : List Piece}
    (h : ∀ p ∈ pieces, p.isText = false → p.Writable) :
    Event.reading start (spellAll pieces) = (placeAll start (merge pieces), none) := by
  rw [← spellAll_merge]
  exact reading_spellAll start (writable_merge h) (separated_merge pieces)

/-! ## The XML declaration -/

/-- The spelling of an XML declaration with these attributes. -/
def spellDeclaration (attributes : List Attribute) : List Char :=
  instructionOpening ++ ['x', 'm', 'l'] ++ Attribute.spellAll attributes ++ instructionEnd

theorem not_mem_spellAll {attributes : List Attribute} (h : Attribute.Named attributes) :
    '>' ∉ Attribute.spellAll attributes := by
  rw [Attribute.spellAll, List.mem_flatMap]
  rintro ⟨a, ha, hmem⟩
  have hname : '>' ∉ a.name.toList := by
    intro hin
    exact absurd (isNamePart_of_isName (h.isName a ha) '>' hin) (by decide)
  have hvalue := Reference.not_mem_escapeAttribute (d := '>') (by decide) a.value.toList
  simp [Attribute.spell, hname, hvalue] at hmem

theorem ofToken_declaration {attributes : List Attribute} (h : Attribute.Named attributes) :
    Event.ofToken (.declaration ['x', 'm', 'l']
      (Lexeme.instructionData (Attribute.spellAll attributes))) = .ok .declaration := by
  have hdata : (Lexeme.instructionData (Attribute.spellAll attributes)).getD [] =
      (Attribute.spellAll attributes).dropWhile isSpace := by
    rw [Lexeme.instructionData]
    split
    · next hnil => rw [hnil]; rfl
    · next c data hcons => rw [hcons]; rfl
  have hread := Attribute.readAll_spellAll h
  rw [Attribute.readAll_eq] at hread
  rw [Event.ofToken, Event.ofTag, hdata, Attribute.readAll_eq, List.dropWhile_idempotent, hread]

/-- **A declaration is read as such in front of a document.** -/
theorem reading_declaration {attributes : List Attribute} (h : Attribute.Named attributes)
    (rest : List Char) :
    Event.reading 0 (spellDeclaration attributes ++ rest) =
      (⟨.declaration, 0⟩ :: (Event.reading (Utf8.size (spellDeclaration attributes)) rest).1,
        (Event.reading (Utf8.size (spellDeclaration attributes)) rest).2) := by
  have hspace := (Attribute.allSpelled_spellAll h.isName).isSpace_head
  have hend : ¬ instructionEnd <:+: Attribute.spellAll attributes := by
    intro hin
    exact not_mem_spellAll h (hin.subset (by simp [instructionEnd]))
  have hread : Lexeme.read 0 (spellDeclaration attributes ++ rest) =
      .ok (⟨.declaration ['x', 'm', 'l'] (Lexeme.instructionData (Attribute.spellAll attributes)),
        spellDeclaration attributes⟩, rest) :=
    Lexeme.read_declaration (by decide) (by decide) hspace hend rest
  have hstep := Event.reading_of_read hread (ofToken_declaration h)
  rw [Nat.zero_add] at hstep
  exact hstep

end Piece

end Groundwork.Xml
