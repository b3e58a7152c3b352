import Groundwork.Proofs.Xml.Event
import Groundwork.Proofs.Xml.Offset.Token

/-!
# `Proofs.Xml.Offset.Run` — a whole text, by byte offsets

A token moves the place on, wherever it has been read; so the loop over the tokens of a text ends
without a look at what they are. From the start of a text this loop gets from boundary to boundary.
It asks for nothing that is not there, and neither does what reads the contents of the tokens.

## Contents

* `Offset.lt_of_tokenAt` — **a token moves the place on**, from any place.
* `Offset.tokens`, `Offset.events` — the loops over the tokens and over the events of a text.
* `Offset.Safe`, `Offset.safe` — **no cut fails**, in any text.
-/

namespace Groundwork.Xml

open Text

namespace Offset

/-! ## Progress -/

section Progress

variable {cs body name mark : List Char} {token : Token} {start next : Nat}

theorem eq_of_reading {read : Token × Nat}
    (h : (some (.ok read) : Reading) = some (.ok (token, next))) : read.2 = next :=
  congrArg Prod.snd (Except.ok.inj (Option.some.inj h))

theorem lt_of_textAt (hlt : start < (Utf8.encode cs).length)
    (hplain : (ByteCursor.mk (Utf8.encode cs) start).peek? ≠ some (asciiByte '<'))
    (h : textAt cs start = some (.ok (token, next))) : start < next := by
  unfold textAt at h
  obtain ⟨found, hsearch, h⟩ := Option.bind_eq_some_iff.1 h
  obtain ⟨body, -, h⟩ := Option.bind_eq_some_iff.1 h
  obtain rfl := eq_of_reading h
  cases found with
  | none => exact hlt
  | some stop => exact ByteCursor.lt_of_search? hsearch hplain

theorem le_of_untilAt (h : untilAt cs start mark = some (some (body, next))) : start ≤ next := by
  unfold untilAt at h
  obtain ⟨found, hsearch, h⟩ := Option.bind_eq_some_iff.1 h
  cases found with
  | none => cases h
  | some stop =>
    have hle := ByteCursor.le_of_search? hsearch
    obtain ⟨piece, -, h⟩ := Option.bind_eq_some_iff.1 h
    obtain ⟨-, rfl⟩ := Prod.mk.inj (Option.some.inj (Option.some.inj h))
    exact Nat.le_trans hle (Nat.le_add_right _ _)

theorem lt_of_nameAt (h : nameAt cs start = some (some (name, next))) : start < next := by
  unfold nameAt at h
  split at h
  · obtain ⟨stop, hskip, h⟩ := Option.bind_eq_some_iff.1 h
    obtain ⟨piece, -, h⟩ := Option.bind_eq_some_iff.1 h
    obtain ⟨-, rfl⟩ := Prod.mk.inj (Option.some.inj (Option.some.inj h))
    exact le_of_skip hskip
  · cases h

theorem lt_of_commentAt (h : commentAt cs start = some (.ok (token, next))) : start < next := by
  unfold commentAt at h
  obtain ⟨found, huntil, h⟩ := Option.bind_eq_some_iff.1 h
  cases found with
  | none => cases h
  | some found =>
    have hle := le_of_untilAt huntil
    simp only at h
    split at h
    · obtain rfl := eq_of_reading h
      omega
    · cases h

theorem lt_of_cdataAt (h : cdataAt cs start = some (.ok (token, next))) : start < next := by
  unfold cdataAt at h
  obtain ⟨found, huntil, h⟩ := Option.bind_eq_some_iff.1 h
  cases found with
  | none => cases h
  | some found =>
    have hle := le_of_untilAt huntil
    obtain rfl := eq_of_reading h
    omega

theorem lt_of_doctypeAt (h : doctypeAt cs start = some (.ok (token, next))) : start < next := by
  unfold doctypeAt at h
  obtain ⟨⟨stop, state⟩, hscan, h⟩ := Option.bind_eq_some_iff.1 h
  have hle := le_of_scan hscan
  cases state with
  | some s => cases h
  | none =>
    obtain ⟨inside, -, h⟩ := Option.bind_eq_some_iff.1 h
    obtain rfl := eq_of_reading h
    simp only at hle
    omega

theorem lt_of_instructionAt (h : instructionAt cs start = some (.ok (token, next))) :
    start < next := by
  unfold instructionAt at h
  obtain ⟨found, hname, h⟩ := Option.bind_eq_some_iff.1 h
  cases found with
  | none => cases h
  | some target =>
    have hlt := lt_of_nameAt hname
    obtain ⟨found, huntil, h⟩ := Option.bind_eq_some_iff.1 h
    cases found with
    | none => cases h
    | some found =>
      have hle := le_of_untilAt huntil
      have hnext : found.2 = next := by
        simp only at h
        split at h
        · cases h
        split at h
        · exact eq_of_reading h
        split at h
        · cases h
        · exact eq_of_reading h
      omega

theorem lt_of_endTagAt (h : endTagAt cs start = some (.ok (token, next))) : start < next := by
  unfold endTagAt at h
  obtain ⟨found, hname, h⟩ := Option.bind_eq_some_iff.1 h
  cases found with
  | none => cases h
  | some found =>
    have hlt := lt_of_nameAt hname
    obtain ⟨stop, hskip, h⟩ := Option.bind_eq_some_iff.1 h
    have hle := le_of_skip hskip
    split at h
    · cases h
    · obtain rfl := eq_of_reading h
      omega

theorem lt_of_sectionAt {nameEnd close : Nat}
    (h : sectionAt cs name nameEnd close = some (.ok (token, next))) : close < next := by
  unfold sectionAt at h
  obtain ⟨isEmpty, -, h⟩ := Option.bind_eq_some_iff.1 h
  obtain ⟨isGlued, -, h⟩ := Option.bind_eq_some_iff.1 h
  split at h
  · cases h
  · obtain ⟨attributes, -, h⟩ := Option.bind_eq_some_iff.1 h
    have hnext : close + 1 = next := by
      split at h <;> exact eq_of_reading h
    omega

theorem lt_of_startTagAt (h : startTagAt cs start = some (.ok (token, next))) : start < next := by
  unfold startTagAt at h
  obtain ⟨found, hname, h⟩ := Option.bind_eq_some_iff.1 h
  cases found with
  | none => cases h
  | some found =>
    have hlt := lt_of_nameAt hname
    obtain ⟨found, hend, h⟩ := Option.bind_eq_some_iff.1 h
    cases found with
    | none => cases h
    | some close =>
      have hle := ByteCursor.le_of_tagEndFrom? hend
      have hnext := lt_of_sectionAt h
      omega

theorem lt_of_markupAt (h : markupAt cs start = some (.ok (token, next))) : start < next := by
  unfold markupAt at h
  obtain ⟨rest, -, h⟩ := Option.bind_eq_some_iff.1 h
  split at h
  · exact lt_of_commentAt h
  split at h
  · exact lt_of_cdataAt h
  split at h
  · exact lt_of_doctypeAt h
  split at h
  · exact lt_of_instructionAt h
  split at h
  · exact lt_of_endTagAt h
  split at h
  · exact lt_of_startTagAt h
  · cases h

/-- **A token moves the place on**, from any place that does not lie at the end. -/
theorem lt_of_tokenAt (hlt : start < (Utf8.encode cs).length)
    (h : tokenAt cs start = some (.ok (token, next))) : start < next := by
  unfold tokenAt at h
  split at h
  · exact lt_of_markupAt h
  · next hplain => exact lt_of_textAt hlt hplain h

end Progress

/-! ## The tokens of a text -/

/-- A token with the places of its two ends. -/
structure Span where
  token : Token
  start : Nat
  stop : Nat
  deriving DecidableEq, Repr

/-- The tokens of a text in order, and the fault that stopped them, if one did. -/
structure Tokens where
  spans : List Span
  failure : Option ParseError
  deriving DecidableEq, Repr

/-- Where a lexeme lies. -/
def Span.ofLexeme (lexeme : Placed Lexeme) : Span :=
  ⟨lexeme.item.token, lexeme.start, lexeme.start + lexeme.item.size⟩

/-- Where lexemes lie. -/
def Tokens.ofLexemes (sequence : Lexeme.Sequence) : Tokens :=
  ⟨sequence.lexemes.map Span.ofLexeme, sequence.failure⟩

/-- Reads tokens from a place on, with those before it newest first. -/
def tokensFrom (cs : List Char) (passed : List Span) (place : Nat) : Option Tokens :=
  if hend : (Utf8.encode cs).length ≤ place then some ⟨passed.reverse, none⟩
  else
    match hread : tokenAt cs place with
    | none => none
    | some (.error e) => some ⟨passed.reverse, some e⟩
    | some (.ok (token, next)) =>
      have : (Utf8.encode cs).length - next < (Utf8.encode cs).length - place := by
        have hlt := lt_of_tokenAt (Nat.lt_of_not_le hend) hread
        omega
      tokensFrom cs (⟨token, place, next⟩ :: passed) next
termination_by (Utf8.encode cs).length - place

/-- The tokens of a text. -/
def tokens (cs : List Char) : Option Tokens := tokensFrom cs [] 0

variable {cs rest : List Char} {place : Nat}

/-- One step of the loop. -/
theorem tokensFrom_of_lt (hlt : place < (Utf8.encode cs).length) (passed : List Span) :
    tokensFrom cs passed place =
      match tokenAt cs place with
      | none => none
      | some (.error e) => some ⟨passed.reverse, some e⟩
      | some (.ok (token, next)) => tokensFrom cs (⟨token, place, next⟩ :: passed) next := by
  rw [tokensFrom, dif_neg (Nat.not_le_of_lt hlt)]
  split
  · next he => simp only [he]
  · next he => simp only [he]
  · next hread => simp only [hread]

/-- Where something is left, the end has not been reached. -/
theorem lt_length_of_cons {c : Char} (h : StandsAt cs place (c :: rest)) :
    place < (Utf8.encode cs).length := by
  have hsize := h.add_size
  have hpos := c.utf8Size_pos
  rw [Utf8.size_cons, ← Utf8.length_encode cs] at hsize
  omega

/-- What has been read ends at the place that comes next. -/
theorem outcome_of_read {lexeme : Lexeme} {after : List Char} (h : StandsAt cs place rest)
    (hread : Lexeme.read place rest = .ok (lexeme, after)) :
    StandsAt cs (place + lexeme.size) after ∧
      outcome cs (.ok (lexeme, after)) = .ok (lexeme.token, place + lexeme.size) := by
  rw [Lexeme.eq_of_read hread] at h
  have hplace : place + lexeme.size = _ := h.advance.eq_sub
  refine ⟨h.advance, ?_⟩
  rw [hplace]
  rfl

/-- **No cut fails**, and what comes out are the tokens read character by character. -/
theorem tokensFrom_eq (h : StandsAt cs place rest) (passed : List (Placed Lexeme)) :
    tokensFrom cs (passed.map Span.ofLexeme) place =
      some (.ofLexemes (Lexeme.readFrom passed place rest)) := by
  -- the place stays where the rest stands, for a token is as long as its spelling
  induction hn : rest.length using Nat.strongRecOn generalizing rest place passed with
  | ind n ih =>
    cases rest with
    | nil =>
      have hend : (Utf8.encode cs).length ≤ place := by
        rw [Utf8.length_encode, ← h.add_size]
        exact Nat.le_refl _
      rw [tokensFrom, dif_pos hend, ← List.map_reverse, Lexeme.readFrom]
      rfl
    | cons c rest =>
      rw [tokensFrom_of_lt (lt_length_of_cons h), tokenAt_eq h]
      cases hread : Lexeme.read place (c :: rest) with
      | error e =>
        rw [Lexeme.readFrom_of_error passed hread, ← List.map_reverse]
        rfl
      | ok found =>
        obtain ⟨lexeme, after⟩ := found
        have hlength := Lexeme.length_read hread
        obtain ⟨hafter, houtcome⟩ := outcome_of_read h hread
        rw [Lexeme.readFrom_of_ok passed hread, houtcome]
        exact ih _ (by omega) hafter (⟨lexeme, place⟩ :: passed) rfl

/-- The tokens are pieces of the text, and none of them is empty. -/
theorem slice?_of_mem_readFrom {passed : List (Placed Lexeme)} (h : StandsAt cs place rest)
    (hpassed : ∀ lexeme ∈ passed, 0 < lexeme.item.size ∧
      slice? cs lexeme.start (lexeme.start + lexeme.item.size) = some lexeme.item.spelling) :
    ∀ lexeme ∈ (Lexeme.readFrom passed place rest).lexemes, 0 < lexeme.item.size ∧
      slice? cs lexeme.start (lexeme.start + lexeme.item.size) = some lexeme.item.spelling := by
  fun_induction Lexeme.readFrom passed place rest with
  | case1 passed place => simpa using hpassed
  | case2 passed place c rest e hread => simpa using hpassed
  | case3 passed place c rest lexeme after hread hlength ih =>
    rw [Lexeme.eq_of_read hread] at h
    exact ih h.advance (List.forall_mem_cons.2
      ⟨⟨Lexeme.size_pos_of_read hread, h.slice?⟩, hpassed⟩)

/-! ## The events of a text -/

/-- The event of a tag with this attribute section. -/
def ofTag (event : List Attribute → Event) (body : List Char) : Option (Except Fault Event) := do
  match ← attributes body with
  | .ok attributes => return .ok (event attributes)
  | .error e => return .error (.attributes e)

/-- The event of the text between two pieces of markup. -/
def ofText (body : List Char) : Option (Except Fault Event) :=
  if contains cdataEnd body then some (.error .sectionEndInText)
  else do
    match ← decode body with
    | .ok content => return .ok (.text (String.ofList content))
    | .error e => return .error (.reference e)

/-- The event of a token. Those whose contents are taken over as they are ask for nothing. -/
def ofToken : Token → Option (Except Fault Event)
  | .startTag name attributes => ofTag (.startElement (String.ofList name)) attributes
  | .emptyTag name attributes => ofTag (.emptyElement (String.ofList name)) attributes
  | .text body => ofText body
  | .declaration _ data => ofTag (fun _ => .declaration) (data.getD [])
  | token => some (Event.ofToken token)

theorem ofTag_eq (event : List Attribute → Event) (body : List Char) :
    ofTag event body = some (Event.ofTag event body) := by
  rw [ofTag, attributes_eq, Event.ofTag]
  cases Attribute.readAll body <;> rfl

theorem ofText_eq (body : List Char) : ofText body = some (Event.ofText body) := by
  rw [ofText, decode_eq, Event.ofText]
  split
  · rfl
  · cases Reference.decode body <;> rfl

theorem ofToken_eq (token : Token) : ofToken token = some (Event.ofToken token) := by
  cases token with
  | startTag name attributes => exact ofTag_eq _ _
  | emptyTag name attributes => exact ofTag_eq _ _
  | text body => exact ofText_eq body
  | declaration target data => exact ofTag_eq _ _
  | _ => rfl

/-- Reads events from a place on, with those before it newest first and the place of the token
before. One token is read at a time. -/
def eventsFrom (cs : List Char) (passed : List (Placed Event)) (position place : Nat) :
    Option Event.Sequence :=
  if hend : (Utf8.encode cs).length ≤ place then some ⟨passed.reverse, none, position⟩
  else
    match hread : tokenAt cs place with
    | none => none
    | some (.error e) => some ⟨passed.reverse, some e, position⟩
    | some (.ok (token, next)) =>
      match ofToken token with
      | none => none
      | some (.error fault) => some ⟨passed.reverse, some ⟨fault, place⟩, place⟩
      | some (.ok event) =>
        have : (Utf8.encode cs).length - next < (Utf8.encode cs).length - place := by
          have hlt := lt_of_tokenAt (Nat.lt_of_not_le hend) hread
          omega
        eventsFrom cs (⟨event, place⟩ :: passed) place next
termination_by (Utf8.encode cs).length - place

/-- The events of a text. -/
def events (cs : List Char) : Option Event.Sequence := eventsFrom cs [] 0 0

/-- One step of the loop. -/
theorem eventsFrom_of_lt (hlt : place < (Utf8.encode cs).length) (passed : List (Placed Event))
    (position : Nat) :
    eventsFrom cs passed position place =
      match tokenAt cs place with
      | none => none
      | some (.error e) => some ⟨passed.reverse, some e, position⟩
      | some (.ok (token, next)) =>
        match Event.ofToken token with
        | .error fault => some ⟨passed.reverse, some ⟨fault, place⟩, place⟩
        | .ok event => eventsFrom cs (⟨event, place⟩ :: passed) place next := by
  rw [eventsFrom, dif_neg (Nat.not_le_of_lt hlt)]
  split
  · next he => simp only [he]
  · next he => simp only [he]
  · next token next hread =>
    simp only [hread, ofToken_eq]
    cases Event.ofToken token <;> rfl

/-- **One token at a time or all tokens first**: the events are the same. -/
theorem eventsFrom_eq (h : StandsAt cs place rest) (passed : List (Placed Event))
    (position : Nat) :
    eventsFrom cs passed position place =
      some (Event.ofLexemes (Lexeme.readFrom [] place rest).failure passed position
        (Lexeme.readFrom [] place rest).lexemes) := by
  induction hn : rest.length using Nat.strongRecOn generalizing rest place passed position with
  | ind n ih =>
    cases rest with
    | nil =>
      have hend : (Utf8.encode cs).length ≤ place := by
        rw [Utf8.length_encode, ← h.add_size]
        exact Nat.le_refl _
      rw [eventsFrom, dif_pos hend, Lexeme.readFrom]
      rfl
    | cons c rest =>
      rw [eventsFrom_of_lt (lt_length_of_cons h), tokenAt_eq h]
      cases hread : Lexeme.read place (c :: rest) with
      | error e =>
        rw [Lexeme.readFrom_of_error [] hread]
        rfl
      | ok found =>
        obtain ⟨lexeme, after⟩ := found
        have hlength := Lexeme.length_read hread
        obtain ⟨hafter, houtcome⟩ := outcome_of_read h hread
        rw [Lexeme.readFrom_of_ok [] hread, Lexeme.readFrom_passed, houtcome,
          List.reverse_singleton, List.singleton_append, Event.ofLexemes]
        simp only
        cases Event.ofToken lexeme.token with
        | error fault => rfl
        | ok event =>
          exact ih _ (by omega) hafter (⟨event, place⟩ :: passed) place rfl

/-! ## No cut fails -/

/-- A text can be read by places, and nothing that this asks for is missing. -/
structure Safe (text : String) : Prop where
  /-- What can be cut out of the text, and what cannot. -/
  pieces : ∀ start stop, (slice? text.toList start stop).isSome ↔
    start ≤ stop ∧ stop ≤ (Utf8.encode text.toList).length ∧
      IsBoundary text.toList start ∧ IsBoundary text.toList stop
  /-- A piece of it is spelled by the bytes between its two ends. -/
  spelled : ∀ start stop piece, slice? text.toList start stop = some piece →
    Utf8.encode piece = ((Utf8.encode text.toList).drop start).take (stop - start)
  /-- Its tokens are read to the end. -/
  tokens : tokens text.toList = some (.ofLexemes (Lexeme.readAll text.toList))
  /-- All of them are pieces of the text that are not empty. -/
  lexemes : ∀ lexeme ∈ (Lexeme.readAll text.toList).lexemes, 0 < lexeme.item.size ∧
    slice? text.toList lexeme.start (lexeme.start + lexeme.item.size) =
      some lexeme.item.spelling
  /-- Each of them is turned into its event. -/
  converted : ∀ lexeme ∈ (Lexeme.readAll text.toList).lexemes,
    ofToken lexeme.item.token = some (Event.ofToken lexeme.item.token)
  /-- Its events are read, one token at a time. -/
  events : events text.toList = some (Event.readAll text)
  /-- It is read as an attribute section. -/
  attributes : attributes text.toList = some (Attribute.readAll text.toList)
  /-- Its references are replaced. -/
  decoded : decode text.toList = some (Reference.decode text.toList)
  /-- A token moves the place on, wherever it has been read. -/
  advance : ∀ place token next, place < (Utf8.encode text.toList).length →
    tokenAt text.toList place = some (.ok (token, next)) → place < next

/-- **No cut fails, in any text**: whatever is cut out of it lies between two of its boundaries, and
the loops over it end. -/
theorem safe (text : String) : Safe text where
  pieces start stop := by
    rw [Utf8.length_encode]
    exact isSome_slice?_iff
  spelled _ _ _ := encode_of_slice?
  tokens := tokensFrom_eq (StandsAt.zero _) []
  lexemes := slice?_of_mem_readFrom (StandsAt.zero _) (List.forall_mem_nil _)
  converted lexeme _ := ofToken_eq lexeme.item.token
  events := eventsFrom_eq (StandsAt.zero _) [] 0
  attributes := attributes_eq _
  decoded := decode_eq _
  advance _ _ _ hlt hread := lt_of_tokenAt hlt hread

end Offset

end Groundwork.Xml
