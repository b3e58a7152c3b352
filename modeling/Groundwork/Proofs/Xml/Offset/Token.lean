import Groundwork.Proofs.Xml.ByteCursor
import Groundwork.Proofs.Xml.Offset.Attribute
import Groundwork.Proofs.Xml.Pairing

/-!
# `Proofs.Xml.Offset.Token` — tokens, by byte offsets

Here each kind of token is read by places: its end is searched for in the bytes, and its parts are
cut out of the text. The readers on characters are what they are compared with. Where a reader on
characters leaves a rest, the one here gives the place at which this rest stands.

## Contents

* `Offset.tokenAt` — the token at a place, one definition for each kind.
* `Offset.byteBetween`, `Offset.opens` — the questions asked of single bytes.
* `Offset.tokenAt_eq` — **it is the token that is read there**, and no cut fails.
-/

namespace Groundwork.Xml

open Text

/-! ## The search for the end of a document type, as a loop -/

namespace Search

/-- Nothing but ASCII matters to the search. -/
theorem steady_step : Steady step fun s => ∀ q ∈ s.quote, q ∈ Attribute.quotes where
  alike := by
    refine .inl fun s hs c hc => ?_
    have hne : ∀ d, IsAscii d → c ≠ d := fun d hd heq => hc (heq ▸ hd)
    obtain ⟨depth, quote⟩ := s
    cases quote with
    | some q =>
      have hquote : c ≠ q := hne q (isAscii_of_mem_quotes (hs q rfl))
      rw [step_inside, turn, if_neg hquote]
    | none =>
      have hquote : c ∉ Attribute.quotes := fun hmem => hc (isAscii_of_mem_quotes hmem)
      have hbracket : c ∉ ['[', ']'] := by
        simp [hne '[' (by decide), hne ']' (by decide)]
      exact step_plain hquote hbracket fun hend => hne '>' (by decide) hend.1
  closed hs hstep := by
    rw [(step_cases hstep).1]
    exact mem_quotes_of_foldl_turn hs [_]

/-- The search, as a loop. -/
theorem splitDoctypeFrom_eq_walk (passed : List Char) (s : Search) (cs : List Char) :
    Lexeme.splitDoctypeFrom passed s.depth s.quote cs =
      match (walk step s cs).2 with
      | none =>
        some (passed.reverse ++ (walk step s cs).1, cs.drop ((walk step s cs).1.length + 1))
      | some _ => none := by
  induction cs generalizing passed s with
  | nil => rfl
  | cons c cs ih =>
    rw [Lexeme.splitDoctypeFrom_cons, walk]
    cases step s c with
    | none => simp
    | some s' =>
      simp only
      rw [ih (c :: passed) s']
      simp

end Search

namespace Offset

/-- What a reader by places gives: nothing, if it asks for what is not there, and otherwise a token
with the place behind it, or where and why it stopped. -/
abbrev Reading := Option (Except ParseError (Token × Nat))

variable (cs : List Char)

/-! ## Readers -/

/-- Reads text up to the next `<`. -/
def textAt (start : Nat) : Reading := do
  let found ← (ByteCursor.mk (Utf8.encode cs) start).search? (Utf8.encode ['<'])
  let stop := found.getD (Utf8.encode cs).length
  let body ← slice? cs start stop
  return .ok (.text body, stop)

/-- What stands between a place and the next occurrence of a mark, and the place behind the mark. -/
def untilAt (start : Nat) (mark : List Char) : Option (Option (List Char × Nat)) := do
  match ← (ByteCursor.mk (Utf8.encode cs) start).search? (Utf8.encode mark) with
  | none => return none
  | some stop =>
    let body ← slice? cs start stop
    return some (body, stop + Utf8.size mark)

/-- Reads a comment. -/
def commentAt (start : Nat) : Reading := do
  match ← untilAt cs (start + 4) commentEnd with
  | none => return .error ⟨.unterminatedComment, start⟩
  | some (body, next) =>
    if isCommentBody body then return .ok (.comment body, next)
    else return .error ⟨.doubleHyphen, start⟩

/-- Reads a CDATA section. -/
def cdataAt (start : Nat) : Reading := do
  match ← untilAt cs (start + 9) cdataEnd with
  | none => return .error ⟨.unterminatedCData, start⟩
  | some (body, next) => return .ok (.cdata body, next)

/-- Reads a document type. -/
def doctypeAt (start : Nat) : Reading := do
  let (stop, state) ← scan Search.step (Utf8.encode cs) Search.start (start + 9)
  match state with
  | some _ => return .error ⟨.unterminatedDoctype, start⟩
  | none =>
    let inside ← slice? cs (start + 9) stop
    return .ok (.doctype (trimBlanks inside), stop + 1)

/-- The name at a place, and the place behind it. -/
def nameAt (start : Nat) : Option (Option (List Char × Nat)) :=
  if (Utf8.encode cs)[start]?.any fun b => isNameStart (Char.ofUInt8 b) then do
    let stop ← skip isNamePart (Utf8.encode cs) (start + 1)
    let name ← slice? cs start stop
    return some (name, stop)
  else some none

/-- Reads an instruction or the XML declaration. -/
def instructionAt (start : Nat) : Reading := do
  match ← nameAt cs (start + 2) with
  | none => return .error ⟨.invalidTarget, start⟩
  | some (target, nameEnd) =>
    match ← untilAt cs nameEnd instructionEnd with
    | none => return .error ⟨.unterminatedInstruction, start⟩
    | some (body, next) =>
      if !body.isEmpty && Utf8.size (body.dropWhile isSpace) = Utf8.size body then
        return .error ⟨.invalidTarget, start⟩
      else if !isReserved target then
        return .ok (.instruction target (Lexeme.instructionData body), next)
      else if start ≠ 0 then return .error ⟨.misplacedDeclaration, start⟩
      else return .ok (.declaration target (Lexeme.instructionData body), next)

/-- Reads an end tag. -/
def endTagAt (start : Nat) : Reading := do
  match ← nameAt cs (start + 2) with
  | none => return .error ⟨.invalidEndTagName, start⟩
  | some (name, nameEnd) =>
    let stop ← skip isSpace (Utf8.encode cs) nameEnd
    if (Utf8.encode cs)[stop]? ≠ some (asciiByte '>') then
      return .error ⟨.malformedEndTag, start⟩
    else return .ok (.endTag name, stop + 1)

/-- Whether the byte at a place between two others is of a kind. Without a byte between them it is
not asked for. -/
def byteBetween (start stop place : Nat) (p : Char → Bool) : Option Bool :=
  if start < stop then (Utf8.encode cs)[place]?.map fun b => p (Char.ofUInt8 b) else some false

/-- Reads what stands between the name of a tag, which ends at one place, and the `>` at another. -/
def sectionAt (name : List Char) (nameEnd close : Nat) : Reading := do
  let isEmpty ← byteBetween cs nameEnd close (close - 1) (· = '/')
  let stop := if isEmpty then close - 1 else close
  let isGlued ← byteBetween cs nameEnd stop nameEnd fun c => !isSpace c
  if isGlued then return .error ⟨.invalidNameCharacter, nameEnd⟩
  else
    let attributes ← slice? cs nameEnd stop
    if isEmpty then return .ok (.emptyTag name attributes, close + 1)
    else return .ok (.startTag name attributes, close + 1)

/-- Reads a start tag or an empty tag. -/
def startTagAt (start : Nat) : Reading := do
  match ← nameAt cs (start + 1) with
  | none => return .error ⟨.invalidMarkup, start⟩
  | some (name, nameEnd) =>
    match ← ByteCursor.tagEndFrom? (Utf8.encode cs) nameEnd with
    | none => return .error ⟨.unterminatedStartTag, start⟩
    | some close => sectionAt cs name nameEnd close

/-- The bytes start with those of an opening. -/
def opens (opening : List Char) (bytes : List UInt8) : Bool :=
  (Utf8.encode opening).isPrefixOf bytes

/-- Reads a piece of markup. -/
def markupAt (start : Nat) : Reading := do
  let rest ← (ByteCursor.mk (Utf8.encode cs) start).remaining?
  if opens commentOpening rest then commentAt cs start
  else if opens cdataOpening rest then cdataAt cs start
  else if opens doctypeOpening rest then doctypeAt cs start
  else if opens instructionOpening rest then instructionAt cs start
  else if opens endTagOpening rest then endTagAt cs start
  else if rest[1]?.any fun b => isNameStart (Char.ofUInt8 b) then startTagAt cs start
  else return .error ⟨.invalidMarkup, start⟩

/-- Reads the token at a place. -/
def tokenAt (start : Nat) : Reading :=
  if (ByteCursor.mk (Utf8.encode cs) start).peek? = some (asciiByte '<') then markupAt cs start
  else textAt cs start

/-! ## What they are compared with -/

/-- What a reader on characters gives, with the place of the rest that it leaves. -/
def outcome (reading : Lexeme.Reading) : Except ParseError (Token × Nat) :=
  reading.map fun found => (found.1.token, Utf8.size cs - Utf8.size found.2)

variable {cs} {rest : List Char} {start : Nat}

/-- What stands before the first `<`, and what from there on. -/
theorem exists_split (rest : List Char) :
    ∃ body after, rest = body ++ after ∧ rest.takeWhile (· ≠ '<') = body ∧
      rest.dropWhile (· ≠ '<') = after ∧ '<' ∉ body ∧ (after = [] ∨ after.head? = some '<') := by
  refine ⟨_, _, List.takeWhile_append_dropWhile.symm, rfl, rfl, fun hmem => ?_, ?_⟩
  · simpa using List.mem_takeWhile_imp hmem
  · have hstop := List.head?_dropWhile_not (fun c : Char => decide (c ≠ '<')) rest
    cases hafter : rest.dropWhile (· ≠ '<') with
    | nil => exact .inl rfl
    | cons c after =>
      rw [hafter] at hstop
      exact .inr (by simpa using hstop)

theorem textAt_eq (h : StandsAt cs start rest) :
    textAt cs start = some (outcome cs (.ok (Lexeme.readText rest))) := by
  obtain ⟨body, after, rfl, htake, hdrop, hbody, hafter⟩ := exists_split rest
  have hsearch := search?_of_standsAt h (show IsAscii '<' by decide) []
  have hstop : ((splitOnce? ['<'] (body ++ after)).map fun found =>
      start + Utf8.size found.1).getD (Utf8.encode cs).length = start + Utf8.size body := by
    rcases hafter with rfl | hafter
    · rw [List.append_nil] at h ⊢
      rw [splitOnce?_singleton_eq_none hbody, Utf8.length_encode, ← h.add_size]
      rfl
    · obtain ⟨later, rfl⟩ := List.head?_eq_some_iff.1 hafter
      rw [splitOnce?_singleton hbody]
      rfl
  rw [textAt, hsearch, Option.bind_eq_bind, Option.bind_some]
  simp only
  rw [hstop, h.slice?, h.advance.eq_sub, outcome, Lexeme.readText]
  simp only [htake, hdrop]
  rfl

theorem untilAt_eq (h : StandsAt cs start rest) {first : Char} (hfirst : IsAscii first)
    (mark : List Char) :
    untilAt cs start (first :: mark) =
      some ((splitOnce? (first :: mark) rest).map fun found =>
        (found.1, Utf8.size cs - Utf8.size found.2)) := by
  rw [untilAt, search?_of_standsAt h hfirst, Option.bind_eq_bind, Option.bind_some]
  cases hsplit : splitOnce? (first :: mark) rest with
  | none => rfl
  | some found =>
    have hcut := eq_of_splitOnce? hsplit
    rw [hcut, List.append_assoc] at h
    simp only [Option.map_some]
    rw [h.slice?, h.advance.advance.eq_sub]
    rfl

theorem commentAt_eq (h : StandsAt cs start (commentOpening ++ rest)) :
    commentAt cs start = some (outcome cs (Lexeme.readComment start rest)) := by
  have hbody : StandsAt cs (start + 4) rest := h.advance
  rw [commentAt, commentEnd, untilAt_eq hbody (by decide), ← commentEnd, Option.bind_eq_bind,
    Option.bind_some, Lexeme.readComment]
  cases splitOnce? commentEnd rest with
  | none => rfl
  | some found =>
    simp only [Option.map_some]
    split <;> rfl

theorem cdataAt_eq (h : StandsAt cs start (cdataOpening ++ rest)) :
    cdataAt cs start = some (outcome cs (Lexeme.readCData start rest)) := by
  have hbody : StandsAt cs (start + 9) rest := h.advance
  rw [cdataAt, cdataEnd, untilAt_eq hbody (by decide), ← cdataEnd, Option.bind_eq_bind,
    Option.bind_some, Lexeme.readCData]
  cases splitOnce? cdataEnd rest <;> rfl

theorem doctypeAt_eq (h : StandsAt cs start (doctypeOpening ++ rest)) :
    doctypeAt cs start = some (outcome cs (Lexeme.readDoctype start rest)) := by
  have hinside : StandsAt cs (start + 9) rest := h.advance
  have hscan := hinside.scan Search.steady_step (s := Search.start) (by simp [Search.start])
  have hwalk : Lexeme.splitDoctypeFrom [] 0 none rest = _ :=
    Search.splitDoctypeFrom_eq_walk [] Search.start rest
  rw [doctypeAt, hscan, Option.bind_eq_bind, Option.bind_some, Lexeme.readDoctype]
  cases hstate : (walk Search.step Search.start rest).2 with
  | some s =>
    rw [hstate] at hwalk
    rw [hwalk]
    rfl
  | none =>
    rw [hstate] at hwalk
    have hcut := Lexeme.eq_of_splitDoctypeFrom hwalk
    rw [List.reverse_nil, List.nil_append, List.nil_append] at hcut
    rw [hcut] at hinside
    have hplace : start + 9 + Utf8.size (walk Search.step Search.start rest).1 + 1 = _ :=
      (hinside.advance.succ (by decide)).eq_sub
    rw [hwalk]
    simp only
    rw [hinside.slice?, hplace]
    rfl

/-- The characters of a name, from the first one on. -/
theorem nameAt_eq (h : StandsAt cs start rest) :
    nameAt cs start =
      some ((readName? rest).map fun found => (found.1, Utf8.size cs - Utf8.size found.2)) := by
  have hany := any_head?_encode steadyClass_isNameStart rest
  rw [← h.getElem?] at hany
  rw [nameAt, hany]
  cases rest with
  | nil => rfl
  | cons c rest =>
    cases hc : isNameStart c with
    | false =>
      rw [readName?, hc]
      simp [hc]
    | true =>
      obtain ⟨b, hmem, hbyte⟩ := h.exists_byte
      have hpart : isNamePart (Char.ofUInt8 b) = true := by
        rw [isNamePart, steadyClass_isNameStart.eq_of_mem hmem, hc]
        rfl
      have hname : StandsAt cs start
          ((c :: rest).takeWhile isNamePart ++ (c :: rest).dropWhile isNamePart) := by
        rwa [List.takeWhile_append_dropWhile]
      have hhead : (c :: rest).head?.any isNameStart = true := hc
      rw [if_pos hhead, readName?_of_isNameStart hc, skip_succ hbyte hpart,
        h.skip steadyClass_isNamePart, Option.bind_eq_bind, Option.bind_some, hname.slice?,
        hname.advance.eq_sub]
      rfl

/-- Whether white space has been taken off shows in the size. -/
theorem isGlued_eq (body : List Char) :
    (!body.isEmpty && decide (Utf8.size (body.dropWhile isSpace) = Utf8.size body)) =
      body.head?.any fun c => !isSpace c := by
  cases body with
  | nil => rfl
  | cons c body =>
    have hpos := c.utf8Size_pos
    show decide (_ = _) = !isSpace c
    rw [List.dropWhile_cons]
    cases isSpace c with
    | false => exact decide_eq_true rfl
    | true =>
      obtain ⟨gap, hgap⟩ := List.dropWhile_suffix isSpace (l := body)
      have hsize := congrArg Utf8.size hgap
      refine decide_eq_false fun heq => ?_
      rw [Utf8.size_append] at hsize
      rw [if_pos rfl, Utf8.size_cons] at heq
      omega

theorem instructionAt_eq (h : StandsAt cs start (instructionOpening ++ rest)) :
    instructionAt cs start = some (outcome cs (Lexeme.readInstruction start rest)) := by
  have htarget : StandsAt cs (start + 2) rest := h.advance
  rw [instructionAt, nameAt_eq htarget, Option.bind_eq_bind, Option.bind_some,
    Lexeme.readInstruction]
  cases hname : readName? rest with
  | none => rfl
  | some found =>
    obtain ⟨target, afterTarget⟩ := found
    rw [eq_of_readName? hname] at htarget
    simp only [Option.map_some]
    rw [instructionEnd, untilAt_eq htarget.behind (by decide), ← instructionEnd, Option.bind_some]
    cases splitOnce? instructionEnd afterTarget with
    | none => rfl
    | some found =>
      simp only [Option.map_some, isGlued_eq]
      split
      · rfl
      split
      · rfl
      by_cases hstart : start = 0
      · simp only [hstart, ne_eq, not_true_eq_false, if_false, if_true]
        rfl
      · simp only [hstart, ne_eq, not_false_eq_true, if_true, if_false]
        rfl

theorem endTagAt_eq (h : StandsAt cs start (endTagOpening ++ rest)) :
    endTagAt cs start = some (outcome cs (Lexeme.readEndTag start rest)) := by
  have hname : StandsAt cs (start + 2) rest := h.advance
  rw [endTagAt, nameAt_eq hname, Option.bind_eq_bind, Option.bind_some, Lexeme.readEndTag]
  cases hread : readName? rest with
  | none => rfl
  | some found =>
    obtain ⟨name, afterName⟩ := found
    rw [eq_of_readName? hread] at hname
    have hspace := hname.behind.dropWhile isSpace
    simp only [Option.map_some]
    rw [hname.behind.skip steadyClass_isSpace, Option.bind_eq_bind, Option.bind_some,
      hspace.getElem?]
    split
    · next hother =>
      rw [Ne, head?_encode_eq_iff (by decide)] at hother
      split
      · next after hcs =>
        rw [hcs] at hother
        exact absurd rfl hother
      · rfl
    · next hend =>
      rw [Decidable.not_not, head?_encode_eq_iff (by decide)] at hend
      obtain ⟨after, hcs⟩ := List.head?_eq_some_iff.1 hend
      rw [hcs] at hspace
      have hplace : _ + 1 = _ := (hspace.succ (by decide)).eq_sub
      rw [hplace]
      simp only [hcs]
      rfl

/-- The first byte of a piece of a text. -/
theorem byteBetween_first {piece : List Char} (h : StandsAt cs start (piece ++ rest))
    {p : Char → Bool} (hp : SteadyClass p) :
    byteBetween cs start (start + Utf8.size piece) start p = some (piece.head?.any p) := by
  cases piece with
  | nil => rw [byteBetween, Utf8.size_nil, if_neg (by omega)]; rfl
  | cons c piece =>
    have hpos := c.utf8Size_pos
    obtain ⟨b, hmem, hbyte⟩ := h.exists_byte
    rw [Utf8.size_cons, byteBetween, if_pos (by omega), hbyte]
    exact congrArg some (hp.eq_of_mem hmem)

/-- The last byte of a piece of a text. -/
theorem byteBetween_last {piece : List Char} (h : StandsAt cs start (piece ++ rest)) {d : Char}
    (hd : IsAscii d) :
    byteBetween cs start (start + Utf8.size piece) (start + Utf8.size piece - 1) (· = d) =
      some (decide (piece.getLast? = some d)) := by
  rcases List.eq_nil_or_concat piece with rfl | ⟨front, c, rfl⟩
  · rw [byteBetween, Utf8.size_nil, if_neg (by omega)]
    rfl
  · have hlast := c.utf8Size_pos
    have hlength : (String.utf8EncodeChar c).length = c.utf8Size := String.length_utf8EncodeChar c
    have hfront : StandsAt cs (start + Utf8.size front) (c :: rest) := by
      refine StandsAt.advance ?_
      simpa using h
    have hbyte : (Utf8.encode cs)[start + Utf8.size front + (c.utf8Size - 1)]? =
        (String.utf8EncodeChar c)[c.utf8Size - 1]? := by
      rw [← List.getElem?_drop, hfront.drop_encode, Utf8.encode_cons,
        List.getElem?_append_left (by omega)]
    obtain ⟨b, hb⟩ : ∃ b, (String.utf8EncodeChar c)[c.utf8Size - 1]? = some b :=
      ⟨_, List.getElem?_eq_getElem (by omega)⟩
    have hsize : Utf8.size (front ++ [c]) = Utf8.size front + c.utf8Size := by
      rw [Utf8.size_append, Utf8.size_cons, Utf8.size_nil, Nat.add_zero]
    have hplace : start + (Utf8.size front + c.utf8Size) - 1 =
        start + Utf8.size front + (c.utf8Size - 1) := by omega
    rw [List.concat_eq_append, hsize, byteBetween, if_pos (by omega), hplace, hbyte, hb,
      List.getLast?_concat, Option.map_some]
    simp only [Option.some.injEq, decide_eq_decide]
    exact ofUInt8_eq_iff hd (List.mem_of_getElem? hb)

/-- Taking a slash off, and what has been taken off. -/
theorem exists_splitSlash (inside : List Char) :
    ∃ attributes slash isEmpty, Lexeme.splitSlash inside = (attributes, isEmpty) ∧
      inside = attributes ++ slash ∧ decide (inside.getLast? = some '/') = isEmpty ∧
        Utf8.size slash = if isEmpty then 1 else 0 := by
  by_cases hslash : inside.getLast? = some '/'
  · exact ⟨inside.dropLast, ['/'], true, if_pos hslash,
      (List.dropLast_append_getLast? '/' hslash).symm, decide_eq_true hslash, rfl⟩
  · exact ⟨inside, [], false, if_neg hslash, (List.append_nil inside).symm,
      decide_eq_false hslash, rfl⟩

/-- The attribute section of a tag lies between two characters, with or without a slash behind
it. -/
theorem sectionAt_eq {name inside spelling : List Char}
    (h : StandsAt cs start (inside ++ '>' :: rest)) :
    sectionAt cs name start (start + Utf8.size inside) =
      some (outcome cs
        (if (Lexeme.splitSlash inside).1.head?.any fun c => !isSpace c then
          .error ⟨.invalidNameCharacter, start⟩
        else
          .ok (⟨if (Lexeme.splitSlash inside).2 then .emptyTag name (Lexeme.splitSlash inside).1
            else .startTag name (Lexeme.splitSlash inside).1, spelling⟩, rest))) := by
  have hnext : StandsAt cs (start + Utf8.size inside + 1) rest := h.advance.succ (by decide)
  obtain ⟨attributes, slash, isEmpty, hslash, rfl, hlast, hsize⟩ := exists_splitSlash inside
  have hattributes : StandsAt cs start (attributes ++ (slash ++ '>' :: rest)) := by simpa using h
  have hstop :
      (if isEmpty then start + Utf8.size (attributes ++ slash) - 1
        else start + Utf8.size (attributes ++ slash)) = start + Utf8.size attributes := by
    rw [Utf8.size_append, hsize]
    cases isEmpty <;> rfl
  rw [sectionAt, byteBetween_last h (by decide), Option.bind_eq_bind, Option.bind_some, hlast]
  simp only [hstop]
  rw [byteBetween_first hattributes steadyClass_isSpace.not, Option.bind_eq_bind, Option.bind_some,
    hslash]
  split
  · rfl
  · rw [hattributes.slice?, Option.bind_some, hnext.eq_sub]
    cases isEmpty <;> rfl

theorem startTagAt_eq (h : StandsAt cs start ('<' :: rest)) :
    startTagAt cs start = some (outcome cs (Lexeme.readStartTag start rest)) := by
  have hname : StandsAt cs (start + 1) rest := h.succ (by decide)
  rw [startTagAt, nameAt_eq hname, Option.bind_eq_bind, Option.bind_some, Lexeme.readStartTag]
  cases hread : readName? rest with
  | none => rfl
  | some found =>
    obtain ⟨name, afterName⟩ := found
    rw [eq_of_readName? hread] at hname
    have hinside : StandsAt cs (start + 1 + Utf8.size name) afterName := hname.advance
    simp only [Option.map_some]
    rw [← hinside.eq_sub, tagEndFrom?_of_standsAt hinside, Option.bind_eq_bind, Option.bind_some]
    cases hsplit : splitUnquoted? Attribute.quotes '>' afterName with
    | none => rfl
    | some found =>
      rw [eq_of_splitUnquoted? hsplit] at hinside
      exact sectionAt_eq hinside

/-- An opening shows in the bytes. -/
theorem opens_encode (opening rest : List Char) :
    opens opening (Utf8.encode rest) = (stripFront? opening rest).isSome := by
  rw [Bool.eq_iff_iff, opens, List.isPrefixOf_iff_prefix, Utf8.encode_prefix_iff,
    Option.isSome_iff_exists]
  constructor
  · rintro ⟨after, rfl⟩
    exact ⟨after, stripFront?_eq_some_iff.2 rfl⟩
  · rintro ⟨after, hafter⟩
    exact ⟨after, (stripFront?_eq_some_iff.1 hafter).symm⟩

/-- One branch: what starts with an opening has its own reader. -/
theorem opens_branch {opening : List Char} {readAt otherAt : Reading}
    {read : List Char → Lexeme.Reading} {other : Lexeme.Reading} (h : StandsAt cs start rest)
    (hread : ∀ {after}, StandsAt cs start (opening ++ after) →
      readAt = some (outcome cs (read after)))
    (hother : stripFront? opening rest = none → otherAt = some (outcome cs other)) :
    (if opens opening (Utf8.encode rest) then readAt else otherAt) =
      some (outcome cs (match stripFront? opening rest with
        | some after => read after
        | none => other)) := by
  rw [opens_encode]
  cases hopening : stripFront? opening rest with
  | some after =>
    rw [stripFront?_eq_some_iff.1 hopening] at h
    exact hread h
  | none => exact hother hopening

/-- The kind of a tag shows in the byte behind its `<`. -/
theorem startTagAt_branch {rest : List Char} (h : StandsAt cs start ('<' :: rest)) :
    (if (Utf8.encode ('<' :: rest))[1]?.any fun b => isNameStart (Char.ofUInt8 b) then
        startTagAt cs start
      else some (.error ⟨.invalidMarkup, start⟩)) =
      some (outcome cs (Lexeme.readStartTag start rest)) := by
  have hbyte : (Utf8.encode ('<' :: rest))[1]? = (Utf8.encode rest).head? := by
    rw [Utf8.encode_cons, utf8EncodeChar_of_isAscii (by decide), List.singleton_append,
      List.getElem?_cons_succ, List.head?_eq_getElem?]
  rw [hbyte, any_head?_encode steadyClass_isNameStart]
  split
  · exact startTagAt_eq h
  · next hother =>
    rw [Lexeme.readStartTag, readName?_eq_none hother]
    rfl

theorem markupAt_eq (h : StandsAt cs start ('<' :: rest)) :
    markupAt cs start = some (outcome cs (Lexeme.readMarkup start ('<' :: rest))) := by
  rw [markupAt, remaining?_of_standsAt h]
  exact opens_branch h commentAt_eq fun _ => opens_branch h cdataAt_eq fun _ =>
    opens_branch h doctypeAt_eq fun _ => opens_branch h instructionAt_eq fun _ =>
    opens_branch h endTagAt_eq fun _ => startTagAt_branch h

/-- **The token at a place is the token read there**, and no cut fails. -/
theorem tokenAt_eq (h : StandsAt cs start rest) :
    tokenAt cs start = some (outcome cs (Lexeme.read start rest)) := by
  rw [tokenAt, ByteCursor.peek?, h.getElem?, Lexeme.read]
  by_cases hmarkup : rest.head? = some '<'
  · obtain ⟨after, rfl⟩ := List.head?_eq_some_iff.1 hmarkup
    rw [if_pos ((head?_encode_eq_iff (by decide) _).2 hmarkup), if_pos hmarkup, markupAt_eq h]
  · rw [if_neg (hmarkup ∘ (head?_encode_eq_iff (by decide) _).1), if_neg hmarkup, textAt_eq h]

end Offset

end Groundwork.Xml
