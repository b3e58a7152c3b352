import Groundwork.Proofs.Text.Blank
import Groundwork.Proofs.Xml.Event
import Mathlib.Data.List.Chain

/-!
# `Proofs.Xml.Spelling` — tokens and their spellings

A token leaves open where white space stands in its spelling, but nothing else. Whatever a text is,
the tokens that are read from it lie end to end, each in one of its spellings, and no text stands
beside text. The other way round, tokens that are spelled one after the other are read back just as
they were spelled, if each of them can be told from what stands around it.

## Contents

* `Token.Spelled` — **how a token may be spelled**, and `spelled_render`, that this is never empty.
* `Token.Renderable` — when a token can be told from what stands around it.
* `Lexeme.spelled_of_read`, `Lexeme.read_of_spelled` — a single token, in both directions.
* `Lexeme.Reads` — what is read of a text, one token after the other.
* `Lexeme.readAll_spelled` — **reading and spelling are inverse to each other.**
-/

namespace Groundwork.Xml

open Text

namespace Token

/-! ## Spellings -/

/-- What may stand between the target of an instruction and its end. -/
def DataSpelled : Option (List Char) → List Char → Prop
  | none, inside => ∀ c ∈ inside, isSpace c = true
  | some data, inside =>
    ∃ gap, gap ≠ [] ∧ (∀ c ∈ gap, isSpace c = true) ∧ inside = gap ++ data

/-- How a token may be spelled. -/
inductive Spelled : Token → List Char → Prop where
  | startTag (name attributes : List Char) :
    Spelled (.startTag name attributes) ('<' :: name ++ attributes ++ ['>'])
  | endTag (name : List Char) {gap : List Char} (hgap : ∀ c ∈ gap, isSpace c = true) :
    Spelled (.endTag name) (endTagOpening ++ name ++ gap ++ ['>'])
  | emptyTag (name attributes : List Char) :
    Spelled (.emptyTag name attributes) ('<' :: name ++ attributes ++ emptyTagEnd)
  | text (body : List Char) : Spelled (.text body) body
  | cdata (body : List Char) : Spelled (.cdata body) (cdataOpening ++ body ++ cdataEnd)
  | comment (body : List Char) : Spelled (.comment body) (commentOpening ++ body ++ commentEnd)
  | instruction (target : List Char) {data : Option (List Char)} {inside : List Char}
      (hinside : DataSpelled data inside) :
    Spelled (.instruction target data) (instructionOpening ++ target ++ inside ++ instructionEnd)
  | declaration (target : List Char) {data : Option (List Char)} {inside : List Char}
      (hinside : DataSpelled data inside) :
    Spelled (.declaration target data) (instructionOpening ++ target ++ inside ++ instructionEnd)
  | doctype (body : List Char) {front back : List Char} (hfront : ∀ c ∈ front, isBlank c = true)
      (hback : ∀ c ∈ back, isBlank c = true) :
    Spelled (.doctype body) (doctypeOpening ++ (front ++ body ++ back) ++ ['>'])

/-- The token is text. -/
def isText : Token → Bool
  | .text _ => true
  | _ => false

/-- The section can stand between the name of a tag and its end. -/
def IsSection (attributes : List Char) : Prop :=
  (∀ c ∈ attributes.head?, isSpace c = true) ∧ Unmarked Attribute.quotes '>' attributes

/-- What a token has to satisfy to be told from what stands around it, however it is spelled. The
declaration and the document type are not among them. -/
def Renderable : Token → Prop
  | .startTag name attributes =>
    isName name = true ∧ IsSection attributes ∧ attributes.getLast? ≠ some '/'
  | .endTag name => isName name = true
  | .emptyTag name attributes => isName name = true ∧ IsSection attributes
  | .text body => body ≠ [] ∧ '<' ∉ body
  | .cdata body => ¬ cdataEnd <:+: body
  | .comment body => ¬ ['-', '-'] <:+: body ∧ body.getLast? ≠ some '-'
  | .instruction target data =>
    isName target = true ∧ isReserved target = false ∧
      ∀ body ∈ data, body ≠ [] ∧ ¬ instructionEnd <:+: body ∧ ∀ c ∈ body.head?, isSpace c = false
  | .declaration _ _ | .doctype _ => False

theorem dataSpelled_none : DataSpelled none [] := List.forall_mem_nil _

theorem dataSpelled_some (data : List Char) : DataSpelled (some data) (' ' :: data) :=
  ⟨[' '], by simp, by simp; decide, rfl⟩

/-- **The plainest spelling is one.** -/
theorem spelled_render (token : Token) : token.Spelled token.render := by
  cases token with
  | startTag name attributes => exact .startTag name attributes
  | endTag name => simpa [render] using Spelled.endTag name (List.forall_mem_nil _)
  | emptyTag name attributes => exact .emptyTag name attributes
  | text body => exact .text body
  | cdata body => exact .cdata body
  | comment body => exact .comment body
  | instruction target data =>
    cases data with
    | none => simpa [render] using Spelled.instruction target dataSpelled_none
    | some data => simpa [render] using Spelled.instruction target (dataSpelled_some data)
  | declaration target data =>
    cases data with
    | none => simpa [render] using Spelled.declaration target dataSpelled_none
    | some data => simpa [render] using Spelled.declaration target (dataSpelled_some data)
  | doctype body =>
    have hblank : ∀ c ∈ [' '], isBlank c = true := by simp; decide
    simpa [render] using Spelled.doctype body hblank (List.forall_mem_nil _)

variable {token : Token} {spelling : List Char}

/-- Everything but text starts with `<`. -/
theorem Spelled.exists_eq (h : token.Spelled spelling) (htext : token.isText = false) :
    ∃ cs, spelling = '<' :: cs := by
  cases h with
  | text => cases htext
  | _ => exact ⟨_, rfl⟩

theorem Spelled.ne_nil (h : token.Spelled spelling) (htoken : token.Renderable) :
    spelling ≠ [] := by
  cases h with
  | text body => exact htoken.1
  | _ => exact List.cons_ne_nil _ _

/-! ## The data of an instruction -/

namespace DataSpelled

variable {data : Option (List Char)} {inside : List Char}

/-- Data are set off from the target. -/
theorem isSpace_head (h : DataSpelled data inside) : ∀ c ∈ inside.head?, isSpace c = true := by
  intro c hc
  cases data with
  | none => exact h c (List.mem_of_head? hc)
  | some data =>
    obtain ⟨gap, hne, hgap, rfl⟩ := h
    rw [List.head?_append_of_ne_nil _ hne] at hc
    exact hgap c (List.mem_of_head? hc)

/-- White space in front of a text does not end an instruction. -/
theorem not_infix_append {gap body : List Char} (hgap : ∀ c ∈ gap, isSpace c = true)
    (h : ¬ instructionEnd <:+: body) : ¬ instructionEnd <:+: gap ++ body := by
  induction gap with
  | nil => exact h
  | cons c gap ih =>
    obtain ⟨hc, hgap⟩ := List.forall_mem_cons.1 hgap
    rw [List.cons_append, List.infix_cons_iff, not_or]
    refine ⟨?_, ih hgap⟩
    rintro ⟨rest, hrest⟩
    obtain ⟨rfl, -⟩ := List.cons.inj hrest
    exact absurd hc (by decide)

theorem not_infix (h : DataSpelled data inside)
    (hdata : ∀ body ∈ data, ¬ instructionEnd <:+: body) : ¬ instructionEnd <:+: inside := by
  cases data with
  | none =>
    have hnil : ¬ instructionEnd <:+: [] := by simp [instructionEnd]
    simpa using not_infix_append h hnil
  | some data =>
    obtain ⟨gap, -, hgap, rfl⟩ := h
    exact not_infix_append hgap (hdata data rfl)

theorem instructionData_eq (h : DataSpelled data inside)
    (hdata : ∀ body ∈ data, body ≠ [] ∧ ∀ c ∈ body.head?, isSpace c = false) :
    Lexeme.instructionData inside = data := by
  cases data with
  | none =>
    have hdrop : inside.dropWhile isSpace = [] := List.dropWhile_eq_nil_iff.2 h
    rw [Lexeme.instructionData, hdrop]
  | some data =>
    obtain ⟨gap, -, hgap, rfl⟩ := h
    obtain ⟨hne, hhead⟩ := hdata data rfl
    cases data with
    | nil => exact absurd rfl hne
    | cons c data =>
      rw [Lexeme.instructionData, dropWhile_isSpace_append hgap (hhead c rfl)]

/-- The data that are read were spelled so. -/
theorem of_instructionData (h : ∀ c ∈ inside.head?, isSpace c = true) :
    DataSpelled (Lexeme.instructionData inside) inside := by
  have hinside := List.takeWhile_append_dropWhile (p := isSpace) (l := inside)
  have hgap : ∀ c ∈ inside.takeWhile isSpace, isSpace c = true :=
    List.all_eq_true.1 List.all_takeWhile
  rw [Lexeme.instructionData]
  split
  · next hdrop =>
    rw [hdrop, List.append_nil] at hinside
    rw [hinside] at hgap
    exact hgap
  · next c data hdrop =>
    refine ⟨inside.takeWhile isSpace, ?_, hgap, ?_⟩
    · -- otherwise the data start at once, and not with white space
      intro hnil
      rw [hnil, hdrop, List.nil_append] at hinside
      have hhead := List.head?_dropWhile_not isSpace inside
      rw [hdrop] at hhead
      rw [← hinside] at h
      simp [h c rfl] at hhead
    · rw [← hdrop, hinside]

end DataSpelled

end Token

namespace Lexeme

/-! ## What is read is spelled -/

variable {start : Nat} {cs rest : List Char} {lexeme : Lexeme}

theorem Markup.spelled (h : Markup start lexeme) : lexeme.token.Spelled lexeme.spelling := by
  cases h with
  | comment _ => exact .comment _
  | cdata body => exact .cdata body
  | doctype inside =>
    obtain ⟨front, back, hinside, hfront, hback⟩ := exists_of_trimBlanks inside
    have hspelled := Token.Spelled.doctype (trimBlanks inside) hfront hback
    rw [← hinside] at hspelled
    exact hspelled
  | instruction _ _ hspace _ => exact .instruction _ (Token.DataSpelled.of_instructionData hspace)
  | declaration hspace _ => exact .declaration _ (Token.DataSpelled.of_instructionData hspace)
  | endTag _ hgap => exact .endTag _ hgap
  | startTag _ attributes => exact .startTag _ attributes
  | emptyTag _ attributes => exact .emptyTag _ attributes

theorem Markup.isText_eq (h : Markup start lexeme) : lexeme.token.isText = false := by
  cases h <;> rfl

/-- **What is read is one spelling of its token.** -/
theorem spelled_of_read (h : read start cs = .ok (lexeme, rest)) :
    lexeme.token.Spelled lexeme.spelling := by
  rcases markup_or_text_of_read h with ⟨-, hmarkup⟩ | ⟨-, htext⟩
  · exact hmarkup.spelled
  · obtain ⟨rfl, -⟩ := Prod.mk.inj htext
    exact .text _

/-- Text is read where no markup starts, up to the next markup or to the end. -/
theorem head?_of_read_text (h : read start cs = .ok (lexeme, rest))
    (htext : lexeme.token.isText = true) :
    cs.head? ≠ some '<' ∧ ∀ c ∈ rest.head?, c = '<' := by
  rcases markup_or_text_of_read h with ⟨-, hmarkup⟩ | ⟨hhead, hread⟩
  · rw [hmarkup.isText_eq] at htext
    cases htext
  · obtain ⟨-, rfl⟩ := Prod.mk.inj hread
    refine ⟨hhead, fun c hc => ?_⟩
    have hstop := List.head?_dropWhile_not (fun d => decide (d ≠ '<')) cs
    rw [show (cs.dropWhile fun d => decide (d ≠ '<')).head? = some c from hc] at hstop
    simpa using hstop

/-! ## What is spelled is read -/

/-- **A token is read back from each of its spellings**, if text is followed by markup or by
nothing. -/
theorem read_of_spelled (start : Nat) {token : Token} {spelling : List Char}
    (h : token.Spelled spelling) (htoken : token.Renderable)
    (hrest : token.isText = true → ∀ c ∈ rest.head?, c = '<') :
    read start (spelling ++ rest) = .ok (⟨token, spelling⟩, rest) := by
  cases h with
  | startTag name attributes =>
    obtain ⟨hname, hsection, hlast⟩ := htoken
    exact read_startTag start hname hsection.2 hsection.1 hlast rest
  | endTag name hgap => exact read_endTag_gap start htoken hgap rest
  | emptyTag name attributes =>
    obtain ⟨hname, hsection⟩ := htoken
    exact read_emptyTag start hname hsection.2 hsection.1 rest
  | text body => exact read_text start htoken.1 htoken.2 (hrest rfl)
  | cdata body => exact read_cdata start htoken rest
  | comment body => exact read_comment start (isCommentBody_iff.2 htoken) rest
  | instruction target hinside =>
    obtain ⟨hname, hfree, hdata⟩ := htoken
    have hread := read_instruction start hname hfree hinside.isSpace_head
      (hinside.not_infix fun body hbody => (hdata body hbody).2.1) rest
    rw [hinside.instructionData_eq fun body hbody =>
      ⟨(hdata body hbody).1, (hdata body hbody).2.2⟩] at hread
    exact hread
  | declaration target hinside => exact htoken.elim
  | doctype body hfront hback => exact htoken.elim

/-! ## One token after the other -/

/-- The lexemes one after the other, the first at this byte offset. -/
def placeAll (start : Nat) : List Lexeme → List (Placed Lexeme)
  | [] => []
  | lexeme :: lexemes => ⟨lexeme, start⟩ :: placeAll (start + lexeme.size) lexemes

/-- How lexemes are spelled one after the other. -/
def spellAll (lexemes : List Lexeme) : List Char := lexemes.flatMap (·.spelling)

theorem spellAll_cons (lexeme : Lexeme) (lexemes : List Lexeme) :
    spellAll (lexeme :: lexemes) = lexeme.spelling ++ spellAll lexemes := List.flatMap_cons

theorem spellAll_append (front back : List Lexeme) :
    spellAll (front ++ back) = spellAll front ++ spellAll back := List.flatMap_append

/-- No text stands beside text. -/
def Separated (lexemes : List Lexeme) : Prop :=
  lexemes.IsChain fun lexeme next => lexeme.token.isText = true → next.token.isText = false

/-- These are the lexemes of a text from a byte offset on, and the fault that ends them, if one
does. -/
inductive Reads : Nat → List Char → List Lexeme → Option ParseError → Prop where
  | done (start : Nat) : Reads start [] [] none
  | stopped {start : Nat} {c : Char} {cs : List Char} {e : ParseError} :
    read start (c :: cs) = .error e → Reads start (c :: cs) [] (some e)
  | next {start : Nat} {c : Char} {cs rest : List Char} {lexeme : Lexeme} {lexemes : List Lexeme}
      {failure : Option ParseError} : read start (c :: cs) = .ok (lexeme, rest) →
    Reads (start + lexeme.size) rest lexemes failure →
    Reads start (c :: cs) (lexeme :: lexemes) failure

theorem exists_reads (start : Nat) (cs : List Char) :
    ∃ lexemes failure, Reads start cs lexemes failure := by
  match cs with
  | [] => exact ⟨[], none, .done start⟩
  | c :: cs =>
    cases h : read start (c :: cs) with
    | error e => exact ⟨[], some e, .stopped h⟩
    | ok found =>
      obtain ⟨lexeme, rest⟩ := found
      have hlen : rest.length < (c :: cs).length := length_read h
      obtain ⟨lexemes, failure, hrest⟩ := exists_reads (start + lexeme.size) rest
      exact ⟨lexeme :: lexemes, failure, .next h hrest⟩
termination_by cs.length
decreasing_by exact hlen

namespace Reads

variable {lexemes : List Lexeme} {failure : Option ParseError}

/-- **The loop finds these lexemes.** -/
theorem readFrom_eq (h : Reads start cs lexemes failure) :
    readFrom [] start cs = ⟨placeAll start lexemes, failure⟩ := by
  induction h with
  | done start =>
    rw [readFrom]
    rfl
  | stopped hread =>
    rw [readFrom_of_error _ hread]
    rfl
  | next hread _ ih =>
    rw [readFrom_of_ok _ hread, readFrom_passed, ih]
    rfl

/-- The spellings make up the text, as far as it has been read. -/
theorem exists_rest (h : Reads start cs lexemes failure) :
    ∃ rest, cs = spellAll lexemes ++ rest ∧ (failure = none → rest = []) := by
  induction h with
  | done start => exact ⟨[], rfl, fun _ => rfl⟩
  | @stopped start c cs e _ => exact ⟨c :: cs, rfl, fun h => absurd h (by simp)⟩
  | @next start c cs rest lexeme lexemes failure hread _ ih =>
    obtain ⟨after, hrest, hfailure⟩ := ih
    refine ⟨after, ?_, hfailure⟩
    rw [eq_of_read hread, hrest, spellAll_cons, List.append_assoc]

/-- Each lexeme is a spelling of its token, and not an empty one. -/
theorem spelled (h : Reads start cs lexemes failure) :
    ∀ lexeme ∈ lexemes, lexeme.spelling ≠ [] ∧ lexeme.token.Spelled lexeme.spelling := by
  induction h with
  | done start => exact List.forall_mem_nil _
  | stopped => exact List.forall_mem_nil _
  | next hread _ ih =>
    exact List.forall_mem_cons.2 ⟨⟨spelling_ne_nil_of_read hread, spelled_of_read hread⟩, ih⟩

/-- Text goes as far as it can. -/
theorem separated (h : Reads start cs lexemes failure) : Separated lexemes := by
  induction h with
  | done start => exact .nil
  | stopped => exact .nil
  | next hread hrest ih =>
    cases hrest with
    | done => exact .singleton _
    | stopped => exact .singleton _
    | @next start d ds after next lexemes failure hnext hbehind =>
      refine List.isChain_cons_cons.2 ⟨?_, ih⟩
      intro htext
      obtain rfl := (head?_of_read_text hread htext).2 d rfl
      cases hnexttext : next.token.isText with
      | false => rfl
      | true => exact absurd rfl (head?_of_read_text hnext hnexttext).1

/-- **What is spelled is read**, one token after the other. -/
theorem of_spelled (start : Nat) {lexemes : List Lexeme}
    (h : ∀ lexeme ∈ lexemes, lexeme.token.Renderable ∧ lexeme.token.Spelled lexeme.spelling)
    (hs : Separated lexemes) : Reads start (spellAll lexemes) lexemes none := by
  induction lexemes generalizing start with
  | nil => exact .done start
  | cons lexeme lexemes ih =>
    obtain ⟨⟨htoken, hspelled⟩, hlexemes⟩ := List.forall_mem_cons.1 h
    have hrest : lexeme.token.isText = true → ∀ c ∈ (spellAll lexemes).head?, c = '<' := by
      intro htext c hc
      cases lexemes with
      | nil => cases hc
      | cons next lexemes =>
        have hmarkup := (List.isChain_cons_cons.1 hs).1 htext
        obtain ⟨cs, hcs⟩ := (hlexemes next (by simp)).2.exists_eq hmarkup
        simpa [spellAll, hcs, eq_comm] using hc
    have hread := read_of_spelled start hspelled htoken hrest
    have hbehind := ih (start + lexeme.size) hlexemes hs.tail
    obtain ⟨c, cs, hchars⟩ := List.exists_cons_of_ne_nil (hspelled.ne_nil htoken)
    have hall : lexeme.spelling ++ spellAll lexemes = c :: (cs ++ spellAll lexemes) := by
      rw [hchars, List.cons_append]
    rw [hall] at hread
    show Reads start (lexeme.spelling ++ spellAll lexemes) _ _
    rw [hall]
    exact .next hread hbehind

end Reads

/-! ## Whole texts -/

theorem map_item_placeAll (start : Nat) (lexemes : List Lexeme) :
    (placeAll start lexemes).map (·.item) = lexemes := by
  induction lexemes generalizing start with
  | nil => rfl
  | cons lexeme lexemes ih => rw [placeAll, List.map_cons, ih]

/-- Where a lexeme starts, its spelling stands in the text. -/
theorem exists_of_mem_placeAll {start : Nat} {lexemes : List Lexeme} {lexeme : Placed Lexeme}
    (h : lexeme ∈ placeAll start lexemes) :
    ∃ front back, spellAll lexemes = front ++ lexeme.item.spelling ++ back ∧
      lexeme.start = start + Utf8.size front := by
  induction lexemes generalizing start with
  | nil => cases h
  | cons first lexemes ih =>
    rcases List.mem_cons.1 h with rfl | h
    · exact ⟨[], spellAll lexemes, rfl, rfl⟩
    · obtain ⟨front, back, hspelled, hstart⟩ := ih h
      refine ⟨first.spelling ++ front, back, ?_, ?_⟩
      · show first.spelling ++ spellAll lexemes = _
        rw [hspelled]
        simp
      · rw [hstart, size, Utf8.size_append, Nat.add_assoc]

/-- **Reading and spelling are inverse.** The tokens of any text lie end to end from its start on,
none of them empty, each one spelled as its token may be, no text beside text, and without a fault
they make up the whole text. Tokens that can be told from what stands around them are read back from
any of their spellings, and so from the plainest. -/
theorem readAll_spelled :
    (∀ text : String, ∃ (lexemes : List Lexeme) (failure : Option ParseError),
      readAll text.toList = ⟨placeAll 0 lexemes, failure⟩ ∧ Separated lexemes ∧
      (∀ lexeme ∈ placeAll 0 lexemes, lexeme.item.spelling ≠ [] ∧
        lexeme.item.token.Spelled lexeme.item.spelling ∧
        ∃ front back, text.toList = front ++ lexeme.item.spelling ++ back ∧
          Utf8.size front = lexeme.start) ∧
      (failure = none → spellAll lexemes = text.toList)) ∧
    (∀ lexemes : List Lexeme,
      (∀ lexeme ∈ lexemes, lexeme.token.Renderable ∧ lexeme.token.Spelled lexeme.spelling) →
      Separated lexemes → readAll (spellAll lexemes) = ⟨placeAll 0 lexemes, none⟩) ∧
    ∀ token : Token, token.Spelled token.render := by
  refine ⟨?_, ?_, Token.spelled_render⟩
  · intro text
    obtain ⟨lexemes, failure, hreads⟩ := exists_reads 0 text.toList
    obtain ⟨rest, htext, hfailure⟩ := hreads.exists_rest
    refine ⟨lexemes, failure, hreads.readFrom_eq, hreads.separated, ?_, ?_⟩
    · intro lexeme hlexeme
      have hitem : lexeme.item ∈ lexemes := by
        rw [← map_item_placeAll 0 lexemes]
        exact List.mem_map_of_mem hlexeme
      obtain ⟨hne, hspelled⟩ := hreads.spelled _ hitem
      obtain ⟨front, back, hall, hstart⟩ := exists_of_mem_placeAll hlexeme
      refine ⟨hne, hspelled, front, back ++ rest, ?_, ?_⟩
      · rw [htext, hall, List.append_assoc]
      · rw [hstart, Nat.zero_add]
    · intro hnone
      rw [htext, hfailure hnone, List.append_nil]
  · intro lexemes hlexemes hs
    exact (Reads.of_spelled 0 hlexemes hs).readFrom_eq

/-- Bodies that end like the marks behind them, a `>` in quotes, and white space where it may
stand. -/
theorem readAll_spelled_marks :
    let lexemes : List Lexeme := [
      ⟨.startTag ['a'] [' ', '"', '/', '>', '"'],
        '<' :: ['a'] ++ [' ', '"', '/', '>', '"'] ++ ['>']⟩,
      ⟨.cdata [']'], cdataOpening ++ [']'] ++ cdataEnd⟩,
      ⟨.text ['-', '-', '>'], ['-', '-', '>']⟩,
      ⟨.comment ['-', '>'], commentOpening ++ ['-', '>'] ++ commentEnd⟩,
      ⟨.instruction ['p'] (some ['?']),
        instructionOpening ++ ['p'] ++ ['\n', '?'] ++ instructionEnd⟩,
      ⟨.endTag ['a'], endTagOpening ++ ['a'] ++ ['\t'] ++ ['>']⟩]
    spellAll lexemes = "<a \"/>\"><![CDATA[]]]>--><!--->--><?p\n??></a\t>".toList ∧
      readAll (spellAll lexemes) = ⟨placeAll 0 lexemes, none⟩ := by
  intro lexemes
  have hrun : '"' ∉ ['/', '>'] := by decide
  have hquoted : Unmarked Attribute.quotes '>' [' ', '"', '/', '>', '"'] :=
    .plain (by decide) (by decide) (.quoted (by decide) (by decide) hrun .nil)
  have hname : isName ['a'] = true := rfl
  have hhead {c : Char} {cs : List Char} {space : Bool} (hc : isSpace c = space) :
      ∀ d ∈ (c :: cs).head?, isSpace d = space := by
    intro d hd
    obtain rfl := Option.some.inj hd
    exact hc
  have htag : (Token.startTag ['a'] [' ', '"', '/', '>', '"']).Renderable :=
    ⟨hname, ⟨hhead rfl, hquoted⟩, by decide⟩
  have hcdata : (Token.cdata [']']).Renderable := contains_eq_false_iff.1 rfl
  have htext : (Token.text ['-', '-', '>']).Renderable := ⟨by decide, by decide⟩
  have hcomment : (Token.comment ['-', '>']).Renderable := isCommentBody_iff.1 rfl
  have hinstruction : (Token.instruction ['p'] (some ['?'])).Renderable := by
    refine ⟨rfl, rfl, fun body hbody => ?_⟩
    obtain rfl := Option.some.inj hbody
    exact ⟨by decide, contains_eq_false_iff.1 rfl, hhead rfl⟩
  have hdata : Token.DataSpelled (some ['?']) ['\n', '?'] :=
    ⟨['\n'], by decide, List.forall_mem_singleton.2 rfl, rfl⟩
  have hend : (Token.endTag ['a']).Spelled (endTagOpening ++ ['a'] ++ ['\t'] ++ ['>']) :=
    .endTag ['a'] (List.forall_mem_singleton.2 rfl)
  refine ⟨rfl, readAll_spelled.2.1 lexemes ?_ ?_⟩
  · simp only [lexemes, List.forall_mem_cons]
    exact ⟨⟨htag, .startTag _ _⟩, ⟨hcdata, .cdata _⟩, ⟨htext, .text _⟩, ⟨hcomment, .comment _⟩,
      ⟨hinstruction, .instruction _ hdata⟩, ⟨hname, hend⟩, List.forall_mem_nil _⟩
  · unfold Separated
    decide

end Lexeme

end Groundwork.Xml
