import Groundwork.Proofs.Xml.Lexeme
import Groundwork.Proofs.Xml.Pairing

/-!
# `Proofs.Xml.Doctype` — where a document type ends

The search for the end of a document type knows quotes and brackets. That is enough for literals, in
which nothing but their own quote counts, and for declarations, which hold no brackets outside
literals: with these alone, a document type is read up to its own end. Comments and instructions in
an internal subset are not known to the search. Where the quotes and brackets in each of them pair
up, they do no harm either. But an apostrophe in a comment is taken for a quote that opens, and no
literal behind it closes it for good, so the end of the document type is missed.

## Contents

* `Declared`, `SubsetPiece`, `Doctype` — **the grammar** of document types.
* `Search.behind_of_declared`, `Doctype.behind_inside` — the search in a document type.
* `Doctype.read_iff` — which document types are read, in terms of the search.
* `Doctype.EndFound`, `Doctype.endFound` — **which ones are read**, in terms of the grammar.
* `Doctype.unread_apostrophe` — one that is not.
-/

namespace Groundwork.Xml

open Text

/-! ## The grammar -/

/-- The characters that the search for the end of a document type stops at. -/
def doctypeMarks : List Char := Attribute.quotes ++ ['[', ']', '<', '>']

/-- What may stand in a declaration: literals, and between them characters that are neither quotes
nor brackets of either kind. Every declaration of the XML grammar is of this form. -/
inductive Declared : List Char → Prop where
  | nil : Declared []
  | plain {c : Char} {cs : List Char} (hc : c ∉ doctypeMarks) (h : Declared cs) : Declared (c :: cs)
  | literal {q : Char} {body cs : List Char} (hq : q ∈ Attribute.quotes) (hbody : q ∉ body)
      (h : Declared cs) : Declared (q :: (body ++ q :: cs))

/-- The words that a declaration may start with. -/
def declarationWords : List (List Char) :=
  ["ELEMENT".toList, "ATTLIST".toList, "ENTITY".toList, "NOTATION".toList]

/-- A piece of an internal subset. -/
inductive SubsetPiece where
  /-- White space. -/
  | gap (cs : List Char)
  /-- `<!word inside>` -/
  | declaration (word inside : List Char)
  /-- `<?target inside?>` -/
  | instruction (target inside : List Char)
  /-- `<!--body-->` -/
  | comment (body : List Char)
  deriving DecidableEq, Repr

namespace SubsetPiece

/-- A piece as it is written. -/
def spelling : SubsetPiece → List Char
  | .gap cs => cs
  | .declaration word inside => '<' :: '!' :: (word ++ inside ++ ['>'])
  | .instruction target inside => instructionOpening ++ target ++ inside ++ instructionEnd
  | .comment body => commentOpening ++ body ++ commentEnd

/-- What a piece has to satisfy. -/
def WellFormed : SubsetPiece → Prop
  | .gap cs => ∀ c ∈ cs, isSpace c = true
  | .declaration word inside =>
    word ∈ declarationWords ∧ (∀ c ∈ inside.head?, isSpace c = true) ∧ Declared inside
  | .instruction target inside =>
    isName target = true ∧ isReserved target = false ∧ (∀ c ∈ inside.head?, isSpace c = true) ∧
      ¬ instructionEnd <:+: inside
  | .comment body => isCommentBody body = true

/-- A piece whose text is none of the markup around it. -/
def IsRemark : SubsetPiece → Prop
  | .gap _ | .declaration _ _ => False
  | .instruction _ _ | .comment _ => True

end SubsetPiece

/-- How the literal of an external identifier may be spelled, behind white space. -/
inductive LiteralSpelled : List Char → Prop where
  | intro {gap body : List Char} {q : Char} (hne : gap ≠ []) (hgap : ∀ c ∈ gap, isSpace c = true)
      (hq : q ∈ Attribute.quotes) (hbody : q ∉ body) : LiteralSpelled (gap ++ q :: body ++ [q])

/-- How an external identifier may be spelled, behind white space, if there is one. -/
inductive ExternalSpelled : List Char → Prop where
  | none : ExternalSpelled []
  | system {gap location : List Char} (hne : gap ≠ []) (hgap : ∀ c ∈ gap, isSpace c = true)
      (hlocation : LiteralSpelled location) :
    ExternalSpelled (gap ++ "SYSTEM".toList ++ location)
  | publicly {gap identifier location : List Char} (hne : gap ≠ [])
      (hgap : ∀ c ∈ gap, isSpace c = true) (hidentifier : LiteralSpelled identifier)
      (hlocation : LiteralSpelled location) :
    ExternalSpelled (gap ++ "PUBLIC".toList ++ identifier ++ location)

/-- A document type: white space and a name, an external identifier if there is one, white space,
and an internal subset in brackets, if there is one, with white space behind it. -/
structure Doctype where
  gap : List Char
  name : List Char
  external : List Char
  between : List Char
  subset : Option (List SubsetPiece × List Char)
  gap_ne_nil : gap ≠ []
  isSpace_gap : ∀ c ∈ gap, isSpace c = true
  isName_name : isName name = true
  external_spelled : ExternalSpelled external
  isSpace_between : ∀ c ∈ between, isSpace c = true
  wellFormed : ∀ inner ∈ subset, ∀ piece ∈ inner.1, piece.WellFormed
  isSpace_behind : ∀ inner ∈ subset, ∀ c ∈ inner.2, isSpace c = true

namespace Doctype

/-- The pieces of the internal subset. -/
def pieces (doctype : Doctype) : List SubsetPiece :=
  match doctype.subset with
  | some (pieces, _) => pieces
  | none => []

/-- What stands in front of the internal subset, or of the end. -/
def front (doctype : Doctype) : List Char :=
  doctype.gap ++ doctype.name ++ doctype.external ++ doctype.between

/-- What stands between the opening and the end. -/
def inside (doctype : Doctype) : List Char :=
  match doctype.subset with
  | some (pieces, behind) =>
    doctype.front ++ '[' :: (pieces.flatMap SubsetPiece.spelling ++ ']' :: behind)
  | none => doctype.front

/-- A document type as it is written. -/
def spelling (doctype : Doctype) : List Char := doctypeOpening ++ doctype.inside ++ ['>']

end Doctype

/-! ## Declarations are passed over -/

theorem Declared.append {front back : List Char} (hfront : Declared front) (hback : Declared back) :
    Declared (front ++ back) := by
  induction hfront with
  | nil => exact hback
  | plain hc _ ih => exact .plain hc ih
  | @literal q body cs hq hbody _ ih =>
    rw [List.cons_append, List.append_assoc, List.cons_append]
    exact .literal hq hbody ih

theorem Declared.of_plain {cs : List Char} (h : cs.all (· ∉ doctypeMarks) = true) :
    Declared cs := by
  induction cs with
  | nil => exact .nil
  | cons c cs ih =>
    rw [List.all_cons, Bool.and_eq_true, decide_eq_true_eq] at h
    exact .plain h.1 (ih h.2)

/-- Characters of a kind that none of the marks is of. -/
theorem Declared.of_forall {p : Char → Bool} {cs : List Char}
    (hp : doctypeMarks.any p = false) (h : ∀ c ∈ cs, p c = true) : Declared cs := by
  refine .of_plain (List.all_eq_true.2 fun c hc => decide_eq_true fun hmark => ?_)
  exact List.any_eq_false.1 hp c hmark (h c hc)

theorem Declared.of_isSpace {gap : List Char} (h : ∀ c ∈ gap, isSpace c = true) : Declared gap :=
  .of_forall (by decide) h

theorem Declared.of_isName {name : List Char} (h : isName name = true) : Declared name :=
  .of_forall (by decide) (isNamePart_of_isName h)

theorem Declared.of_literalSpelled {cs : List Char} (h : LiteralSpelled cs) : Declared cs := by
  cases h with
  | @intro gap body q hne hgap hq hbody =>
    have hliteral : Declared (q :: (body ++ q :: [])) := .literal hq hbody .nil
    simpa using (Declared.of_isSpace hgap).append hliteral

theorem Declared.of_externalSpelled {cs : List Char} (h : ExternalSpelled cs) : Declared cs := by
  cases h with
  | none => exact .nil
  | system hne hgap hlocation =>
    have hword : Declared "SYSTEM".toList := .of_plain (by decide)
    exact ((of_isSpace hgap).append hword).append (of_literalSpelled hlocation)
  | publicly hne hgap hidentifier hlocation =>
    have hword : Declared "PUBLIC".toList := .of_plain (by decide)
    exact (((of_isSpace hgap).append hword).append (of_literalSpelled hidentifier)).append
      (of_literalSpelled hlocation)

theorem Doctype.declared_front (doctype : Doctype) : Declared doctype.front :=
  (((Declared.of_isSpace doctype.isSpace_gap).append (.of_isName doctype.isName_name)).append
    (.of_externalSpelled doctype.external_spelled)).append (.of_isSpace doctype.isSpace_between)

/-! ## Quotes and brackets in a document type -/

theorem Declared.paired {cs : List Char} (h : Declared cs) : Paired cs := by
  induction h with
  | nil => exact .nil
  | plain hc _ ih =>
    rw [doctypeMarks, List.mem_append, not_or] at hc
    refine .plain hc.1 (fun hbracket => hc.2 ?_) ih
    exact List.mem_append_left ['<', '>'] hbracket
  | literal hq hbody _ ih => exact .quoted hq hbody ih

/-- Only remarks can hold quotes and brackets that do not pair up. -/
theorem SubsetPiece.WellFormed.paired {piece : SubsetPiece} (h : piece.WellFormed)
    (hremark : ¬ piece.IsRemark) : Paired piece.spelling := by
  cases piece with
  | gap cs => exact (Declared.of_isSpace h).paired
  | declaration word inside =>
    obtain ⟨hword, -, hinside⟩ := h
    have hopening : Paired ['<', '!'] := .of_plain (by decide)
    have hend : Paired ['>'] := .of_plain (by decide)
    have hpaired : Paired word := by
      have hall : declarationWords.all (·.all (· ∉ Attribute.quotes ++ ['[', ']'])) = true := by
        decide
      exact .of_plain (List.all_eq_true.1 hall word hword)
    exact hopening.append ((hpaired.append hinside.paired).append hend)
  | instruction target inside => exact absurd trivial hremark
  | comment body => exact absurd trivial hremark

theorem Paired.flatMap {pieces : List SubsetPiece} (h : ∀ piece ∈ pieces, Paired piece.spelling) :
    Paired (pieces.flatMap SubsetPiece.spelling) := by
  induction pieces with
  | nil => exact .nil
  | cons piece pieces ih =>
    rw [List.forall_mem_cons] at h
    exact h.1.append (ih h.2)

namespace Search

/-- **Declarations are passed over**, in brackets and outside. -/
theorem behind_of_declared {inside : List Char} (h : Declared inside) (depth : Nat) :
    behind ⟨depth, none⟩ inside = some ⟨depth, none⟩ := by
  induction h with
  | nil => rfl
  | @plain c inside hc _ ih =>
    have hquote : c ∉ Attribute.quotes := fun hmem => hc (List.mem_append_left _ hmem)
    have hbracket : c ∉ ['[', ']'] := fun hmem =>
      hc (List.mem_append_right _ (List.mem_append_left ['<', '>'] hmem))
    have hend : ¬ (c = '>' ∧ depth = 0) := by
      rintro ⟨rfl, -⟩
      exact hc (by decide)
    rw [behind_cons, step_plain hquote hbracket hend, Option.bind_some, ih]
  | literal hq hbody _ ih => rw [behind_literal hq hbody, ih]

end Search

/-! ## Document types are read -/

namespace Doctype

open Lexeme

/-- The internal subset as it is written, without the brackets around it. -/
def subsetText (doctype : Doctype) : List Char := doctype.pieces.flatMap SubsetPiece.spelling

variable (doctype : Doctype)

theorem read_spelling_append (start : Nat) (rest : List Char) :
    read start (doctype.spelling ++ rest) = readDoctype start (doctype.inside ++ '>' :: rest) := by
  have hopening : doctype.spelling ++ rest = doctypeOpening ++ (doctype.inside ++ '>' :: rest) := by
    simp [spelling]
  have hcons : ∀ cs, read start (doctypeOpening ++ cs) = readMarkup start (doctypeOpening ++ cs) :=
    fun cs => read_cons_markup start _
  rw [hopening, hcons, readMarkup_doctype]

/-- The token, if the search ends where it should. -/
theorem read_of_behind {doctype : Doctype}
    (h : Search.start.behind doctype.inside = some Search.start) (start : Nat) (rest : List Char) :
    read start (doctype.spelling ++ rest) =
      .ok (⟨.doctype (trimBlanks doctype.inside), doctype.spelling⟩, rest) := by
  have hsearch : splitDoctypeFrom [] 0 none (doctype.inside ++ '>' :: rest) =
      some (doctype.inside, rest) := splitDoctypeFrom_eq_some_iff.2 h
  rw [read_spelling_append, readDoctype, hsearch]
  rfl

/-- **Which document types are read up to their own end.** -/
theorem read_iff (start : Nat) (rest : List Char) :
    (∃ token behind, read start (doctype.spelling ++ rest) =
      .ok (⟨token, doctype.spelling⟩, behind)) ↔
        Search.start.behind doctype.inside = some Search.start := by
  constructor
  · rintro ⟨token, behind, h⟩
    rw [read_spelling_append] at h
    unfold readDoctype at h
    split at h
    · cases h
    · next inside after hsearch =>
      obtain ⟨hlexeme, -⟩ := Prod.mk.inj (Except.ok.inj h)
      have hspelling : doctypeOpening ++ inside ++ ['>'] = doctype.spelling :=
        (Lexeme.mk.inj hlexeme).2
      have hinside : inside = doctype.inside := by simpa [spelling] using hspelling
      have hrest := eq_of_splitDoctypeFrom hsearch
      obtain rfl : after = rest := by simpa [hinside, eq_comm] using hrest
      rw [hinside] at hsearch
      exact splitDoctypeFrom_eq_some_iff.1 hsearch
  · intro h
    exact ⟨_, _, read_of_behind h start rest⟩

/-- The search of a document type with an internal subset, behind the opening bracket. -/
theorem behind_inside {pieces : List SubsetPiece} {gap : List Char}
    (hsubset : doctype.subset = some (pieces, gap)) :
    Search.start.behind doctype.inside =
      Search.behind ⟨1, none⟩ (doctype.subsetText ++ ']' :: gap) := by
  have htext : doctype.inside = doctype.front ++ '[' :: (doctype.subsetText ++ ']' :: gap) := by
    simp [inside, subsetText, Doctype.pieces, hsubset]
  rw [htext, Search.behind_append, Search.start,
    Search.behind_of_declared doctype.declared_front, Option.bind_some, Search.behind_cons,
    Search.step_open, Option.bind_some]

/-- **A document type is read, if quotes and brackets pair up in its internal subset.** -/
theorem behind_inside_of_paired (h : Paired doctype.subsetText) :
    Search.start.behind doctype.inside = some Search.start := by
  match hsubset : doctype.subset with
  | none =>
    have htext : doctype.inside = doctype.front := by simp [inside, hsubset]
    rw [htext]
    exact Search.behind_of_declared doctype.declared_front 0
  | some (pieces, gap) =>
    have hgap : Declared gap := .of_isSpace (doctype.isSpace_behind (pieces, gap) hsubset)
    rw [behind_inside doctype hsubset, Search.behind_append,
      Search.behind_of_paired h Nat.one_ne_zero, Option.bind_some, Search.behind_cons,
      Search.step_close, Option.bind_some, Search.behind_of_declared hgap]
    rfl

/-- **A document type that is read has an internal subset in which quotes pair up**, and without
closing brackets, brackets as well. -/
theorem pair_of_behind_inside (h : Search.start.behind doctype.inside = some Search.start) :
    QuotesPair doctype.subsetText ∧ (']' ∉ doctype.subsetText → Paired doctype.subsetText) := by
  match hsubset : doctype.subset with
  | none =>
    have htext : doctype.subsetText = [] := by simp [subsetText, Doctype.pieces, hsubset]
    rw [htext]
    exact ⟨.nil, fun _ => .nil⟩
  | some (pieces, gap) =>
    have hgap : Declared gap := .of_isSpace (doctype.isSpace_behind (pieces, gap) hsubset)
    rw [behind_inside doctype hsubset] at h
    have hquotes : QuotesPair doctype.subsetText := by
      have hall : QuotesPair (doctype.subsetText ++ ']' :: gap) :=
        (quotesPair_iff _).2 (Search.quote_of_behind h).symm
      exact hall.of_append (.plain (by decide) hgap.paired.quotesPair)
    refine ⟨hquotes, fun hclose => ?_⟩
    rw [Search.behind_append] at h
    obtain ⟨⟨depth, quote⟩, htext, hrest⟩ := Option.bind_eq_some_iff.1 h
    have hquote : quote = none := by
      have hturn := Search.quote_of_behind htext
      rw [(quotesPair_iff _).1 hquotes] at hturn
      exact hturn
    subst hquote
    rw [Search.behind_cons, Search.step_close, Option.bind_some,
      Search.behind_of_declared hgap] at hrest
    have hdepth : depth - 1 = 0 := congrArg Search.depth (Option.some.inj hrest)
    have hle : 1 ≤ depth := Search.depth_le_of_behind htext hclose
    obtain rfl : depth = 1 := by omega
    exact Search.paired_of_behind hclose htext

theorem wellFormed_of_mem_pieces {piece : SubsetPiece} (h : piece ∈ doctype.pieces) :
    piece.WellFormed := by
  match hsubset : doctype.subset with
  | none => simp [Doctype.pieces, hsubset] at h
  | some inner =>
    have hmem : piece ∈ inner.1 := by simpa [Doctype.pieces, hsubset] using h
    exact doctype.wellFormed inner hsubset piece hmem

theorem paired_subsetText
    (h : ∀ piece ∈ doctype.pieces, piece.IsRemark → Paired piece.spelling) :
    Paired doctype.subsetText := by
  refine .flatMap fun piece hpiece => ?_
  by_cases hremark : piece.IsRemark
  · exact h piece hpiece hremark
  · exact (doctype.wellFormed_of_mem_pieces hpiece).paired hremark

/-- Quotes that one piece leaves open stay open in the pieces behind it. -/
theorem not_quotesPair_flatMap {before after : List SubsetPiece} {piece : SubsetPiece}
    (hothers : ∀ other ∈ before ++ after, QuotesPair other.spelling)
    (hpiece : ¬ QuotesPair piece.spelling) :
    ¬ QuotesPair ((before ++ piece :: after).flatMap SubsetPiece.spelling) := by
  have hall : ∀ pieces : List SubsetPiece, (∀ other ∈ pieces, QuotesPair other.spelling) →
      QuotesPair (pieces.flatMap SubsetPiece.spelling) := by
    intro pieces
    induction pieces with
    | nil => exact fun _ => .nil
    | cons other pieces ih =>
      intro h
      rw [List.forall_mem_cons] at h
      exact h.1.append (ih h.2)
  rw [List.forall_mem_append] at hothers
  rw [List.flatMap_append, List.flatMap_cons]
  intro h
  exact hpiece ((h.of_append_left (hall before hothers.1)).of_append (hall after hothers.2))

/-- What is known of the reading of a document type, in terms of its internal subset. -/
structure EndFound (start : Nat) (rest : List Char) : Prop where
  /-- If quotes and brackets pair up in every comment and instruction of the internal subset, the
  document type is one token, up to its own end. -/
  read_of_remarks : (∀ piece ∈ doctype.pieces, piece.IsRemark → Paired piece.spelling) →
    read start (doctype.spelling ++ rest) =
      .ok (⟨.doctype (trimBlanks doctype.inside), doctype.spelling⟩, rest)
  /-- It is never read so, unless quotes pair up in the internal subset as a whole. -/
  quotesPair_of_read : (∃ token behind, read start (doctype.spelling ++ rest) =
    .ok (⟨token, doctype.spelling⟩, behind)) → QuotesPair doctype.subsetText
  /-- Without closing brackets in the internal subset, it is read so just if quotes and brackets
  pair up. -/
  read_iff_paired : ']' ∉ doctype.subsetText →
    ((∃ token behind, read start (doctype.spelling ++ rest) =
      .ok (⟨token, doctype.spelling⟩, behind)) ↔ Paired doctype.subsetText)
  /-- One comment or instruction that leaves a quote open is enough for the end to be missed. -/
  unread_of_remark : ∀ before piece after, doctype.pieces = before ++ piece :: after →
    (∀ other ∈ before ++ after, other.IsRemark → QuotesPair other.spelling) →
    ¬ QuotesPair piece.spelling →
    ∀ token behind, read start (doctype.spelling ++ rest) ≠
      .ok (⟨token, doctype.spelling⟩, behind)

/-- **Which document types are read up to their own end**: those in whose comments and instructions
quotes and brackets pair up, and no other ones, as far as quotes go. -/
theorem endFound (start : Nat) (rest : List Char) : doctype.EndFound start rest where
  read_of_remarks h :=
    read_of_behind (doctype.behind_inside_of_paired (doctype.paired_subsetText h)) start rest
  quotesPair_of_read h :=
    (doctype.pair_of_behind_inside ((doctype.read_iff start rest).1 h)).1
  read_iff_paired hclose := by
    rw [read_iff]
    constructor
    · intro h
      exact (doctype.pair_of_behind_inside h).2 hclose
    · exact doctype.behind_inside_of_paired
  unread_of_remark before piece after hpieces hothers hpiece token behind h := by
    have hwhole := (doctype.pair_of_behind_inside ((doctype.read_iff start rest).1 ⟨_, _, h⟩)).1
    rw [subsetText, hpieces] at hwhole
    refine not_quotesPair_flatMap (fun other hother => ?_) hpiece hwhole
    by_cases hremark : other.IsRemark
    · exact hothers other hother hremark
    · have hmem : other ∈ doctype.pieces := by
        rw [hpieces, List.mem_append, List.mem_cons]
        exact (List.mem_append.1 hother).imp_right .inr
      exact ((doctype.wellFormed_of_mem_pieces hmem).paired hremark).quotesPair

/-- `<!DOCTYPE r SYSTEM "a>b" [<!ENTITY e ']>'><!--"<[x]>"--><?p [b]?> ] >` -/
def quoting : Doctype where
  gap := [' ']
  name := ['r']
  external := " SYSTEM \"a>b\"".toList
  between := [' ']
  subset := some ([.declaration "ENTITY".toList " e ']>'".toList, .comment "\"<[x]>\"".toList,
    .instruction ['p'] " [b]".toList, .gap [' ']], [' '])
  gap_ne_nil := List.cons_ne_nil _ _
  isSpace_gap := List.all_eq_true.1 rfl
  isName_name := rfl
  external_spelled := by
    have hgap : ∀ c ∈ [' '], isSpace c = true := List.all_eq_true.1 rfl
    have hlocation : LiteralSpelled " \"a>b\"".toList :=
      @LiteralSpelled.intro [' '] "a>b".toList '"' (List.cons_ne_nil _ _) hgap (by decide)
        (by decide)
    exact @ExternalSpelled.system [' '] _ (List.cons_ne_nil _ _) hgap hlocation
  isSpace_between := List.all_eq_true.1 rfl
  wellFormed := by
    have hfront : Declared " e ".toList := .of_plain (by decide)
    have hinside : Declared " e ']>'".toList :=
      hfront.append (@Declared.literal '\'' "]>".toList [] (by decide) (by decide) .nil)
    rintro _ ⟨⟩
    simp only [List.forall_mem_cons]
    refine ⟨⟨by decide, ?_, hinside⟩, rfl, ⟨rfl, rfl, ?_, by decide⟩, List.all_eq_true.1 rfl,
      by simp⟩
    · rintro _ ⟨⟩
      rfl
    · rintro _ ⟨⟩
      rfl
  isSpace_behind := by
    rintro _ ⟨⟩
    exact List.all_eq_true.1 rfl

/-- Declarations, quoted brackets in a comment and brackets in an instruction do no harm. -/
theorem endFound_quoting :
    (∀ piece ∈ quoting.pieces, piece.IsRemark → Paired piece.spelling) ∧
      read 0 (quoting.spelling ++ "<r/>".toList) =
        .ok (⟨.doctype (trimBlanks quoting.inside), quoting.spelling⟩, "<r/>".toList) := by
  have hcomment : Paired (SubsetPiece.comment "\"<[x]>\"".toList).spelling := by
    have hopening : Paired commentOpening := .of_plain (by decide)
    have hend : Paired commentEnd := .of_plain (by decide)
    exact hopening.append (@Paired.quoted '"' "<[x]>".toList _ (by decide) (by decide) hend)
  have hinstruction : Paired (SubsetPiece.instruction ['p'] " [b]".toList).spelling := by
    have hopening : Paired "<?p ".toList := .of_plain (by decide)
    have hinner : Paired ['b'] := .of_plain (by decide)
    have hend : Paired instructionEnd := .of_plain (by decide)
    exact hopening.append (.bracketed hinner hend)
  have hremarks : ∀ piece ∈ quoting.pieces, piece.IsRemark → Paired piece.spelling := by
    intro piece hpiece hremark
    obtain rfl | rfl | rfl | rfl : piece = .declaration "ENTITY".toList " e ']>'".toList ∨
        piece = .comment "\"<[x]>\"".toList ∨ piece = .instruction ['p'] " [b]".toList ∨
          piece = .gap [' '] := by simpa [Doctype.pieces, quoting] using hpiece
    · cases hremark
    · exact hcomment
    · exact hinstruction
    · cases hremark
  exact ⟨hremarks, (quoting.endFound 0 "<r/>".toList).read_of_remarks hremarks⟩

/-- `<!DOCTYPE r [<!--don't-->]>` -/
def apostrophe : Doctype where
  gap := [' ']
  name := ['r']
  external := []
  between := [' ']
  subset := some ([.comment "don't".toList], [])
  gap_ne_nil := List.cons_ne_nil _ _
  isSpace_gap := List.all_eq_true.1 rfl
  isName_name := rfl
  external_spelled := .none
  isSpace_between := List.all_eq_true.1 rfl
  wellFormed := by
    rintro _ ⟨⟩
    exact List.forall_mem_singleton.2 rfl
  isSpace_behind := by
    rintro _ ⟨⟩
    exact List.all_eq_true.1 rfl

/-- **Not every document type is read**: an apostrophe in a comment is taken for a quote, and the
rest of the text for what it quotes. -/
theorem unread_apostrophe :
    read 0 (apostrophe.spelling ++ "<r/>".toList) = .error ⟨.unterminatedDoctype, 0⟩ ∧
      ¬ ∀ (doctype : Doctype) (start : Nat) (rest : List Char), ∃ content,
        read start (doctype.spelling ++ rest) =
          .ok (⟨.doctype content, doctype.spelling⟩, rest) := by
  have herror : read 0 (apostrophe.spelling ++ "<r/>".toList) =
      .error ⟨.unterminatedDoctype, 0⟩ := rfl
  refine ⟨herror, fun hall => ?_⟩
  obtain ⟨content, hread⟩ := hall apostrophe 0 "<r/>".toList
  rw [herror] at hread
  cases hread

end Doctype

end Groundwork.Xml
