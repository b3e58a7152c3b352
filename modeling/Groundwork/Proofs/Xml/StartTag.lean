import Groundwork.Proofs.Xml.Spelling

/-!
# `Proofs.Xml.StartTag` — the grammar of start tags

A start tag is looked through twice: once for the first `>` outside quotes, which ends it, and then
again, attribute by attribute, for what is written in it. The search knows nothing of attributes and
the loop nothing of tags, but they agree. Where a name starts behind a `<`, an event is delivered if
and only if the text goes on with a tag of the grammar, and the event, the end of the tag and the
slash in front of it are those of the grammar.

## Contents

* `Event.TagSpelled` — **the grammar**: how the event of a tag may be spelled.
* `TagSpelled.exists_read`, `tagSpelled_of_read` — a single tag, in both directions.
* `section_of_read`, `tagSpelled_of_ofTag` — one section in a start tag and in an empty tag.
* `Event.StandsAt` — where reading gets to; `StandsAt.mem_events_iff`, `StandsAt.mem_lexemes_iff`.
* `mem_events_iff_tagSpelled` — **start tags are accepted exactly by their grammar.**
-/

namespace Groundwork.Xml

open Text

namespace Event

/-! ## The grammar -/

/-- How the event of a tag may be spelled: a `<`, the name, the attributes, no name of which stands
twice, and the end of the tag. -/
inductive TagSpelled : Event → List Char → Prop where
  | startElement {name : String} {attributes : List Attribute} {inside : List Char}
      (hname : isName name.toList = true) (hnodup : (attributes.map (·.name)).Nodup)
      (hinside : Attribute.AllSpelled attributes inside) :
    TagSpelled (.startElement name attributes) ('<' :: name.toList ++ inside ++ ['>'])
  | emptyElement {name : String} {attributes : List Attribute} {inside : List Char}
      (hname : isName name.toList = true) (hnodup : (attributes.map (·.name)).Nodup)
      (hinside : Attribute.AllSpelled attributes inside) :
    TagSpelled (.emptyElement name attributes) ('<' :: name.toList ++ inside ++ emptyTagEnd)

theorem ofTag_eq_ok_iff {make : List Attribute → Event} {cs : List Char} {event : Event}
    (hspace : ∀ c ∈ cs.head?, isSpace c = true) :
    ofTag make cs = .ok event ↔ ∃ attributes, event = make attributes ∧
      Attribute.AllSpelled attributes cs ∧ (attributes.map (·.name)).Nodup := by
  constructor
  · intro h
    rw [ofTag] at h
    split at h
    · next attributes hread =>
      exact ⟨attributes, (Except.ok.inj h).symm, (Attribute.readAll_eq_ok_iff hspace).1 hread⟩
    · cases h
  · rintro ⟨attributes, rfl, hspelled⟩
    rw [ofTag, (Attribute.readAll_eq_ok_iff hspace).2 hspelled]

/-- **A tag is read back from each of its spellings**, whatever follows it. -/
theorem TagSpelled.exists_read {event : Event} {spelling : List Char}
    (h : event.TagSpelled spelling) (start : Nat) (rest : List Char) :
    ∃ token, Lexeme.read start (spelling ++ rest) = .ok (⟨token, spelling⟩, rest) ∧
      ofToken token = .ok event := by
  cases h with
  | @startElement name attributes inside hname hnodup hinside =>
    have hread := Lexeme.read_startTag start hname hinside.unmarked hinside.isSpace_head
      hinside.getLast?_ne rest
    refine ⟨_, hread, (ofTag_eq_ok_iff hinside.isSpace_head).2 ⟨attributes, ?_, hinside, hnodup⟩⟩
    rw [String.ofList_toList]
  | @emptyElement name attributes inside hname hnodup hinside =>
    have hread := Lexeme.read_emptyTag start hname hinside.unmarked hinside.isSpace_head rest
    refine ⟨_, hread, (ofTag_eq_ok_iff hinside.isSpace_head).2 ⟨attributes, ?_, hinside, hnodup⟩⟩
    rw [String.ofList_toList]

/-- **A tag that is read and understood is spelled.** -/
theorem tagSpelled_of_read {start : Nat} {c : Char} {cs rest : List Char} {lexeme : Lexeme}
    {event : Event} (hc : isNameStart c = true)
    (hread : Lexeme.read start ('<' :: c :: cs) = .ok (lexeme, rest))
    (hevent : ofToken lexeme.token = .ok event) : event.TagSpelled lexeme.spelling := by
  rw [Lexeme.read_cons_markup, Lexeme.readMarkup_startTag start hc] at hread
  obtain ⟨name, inside, hname, hspace, rfl | rfl⟩ := Lexeme.exists_of_readStartTag hread
  · obtain ⟨attributes, rfl, hinside, hnodup⟩ := (ofTag_eq_ok_iff hspace).1 hevent
    have hspelled : TagSpelled (.startElement (String.ofList name) attributes) _ :=
      .startElement (by simpa using hname) hnodup hinside
    simpa using hspelled
  · obtain ⟨attributes, rfl, hinside, hnodup⟩ := (ofTag_eq_ok_iff hspace).1 hevent
    have hspelled : TagSpelled (.emptyElement (String.ofList name) attributes) _ :=
      .emptyElement (by simpa using hname) hnodup hinside
    simpa using hspelled

/-! ## The two ends of a tag -/

/-- What stands in a tag behind its name starts with white space, whichever end the tag has. -/
theorem section_of_read {start : Nat} {cs rest name attributes : List Char} {lexeme : Lexeme}
    (hread : Lexeme.read start cs = .ok (lexeme, rest))
    (htoken : lexeme.token = .startTag name attributes ∨
      lexeme.token = .emptyTag name attributes) :
    isName name = true ∧ ∀ c ∈ attributes.head?, isSpace c = true := by
  obtain ⟨token, spelling⟩ := lexeme
  have hsound : token.Sound start := Lexeme.sound_of_read hread
  have hspelled : token.Spelled spelling := Lexeme.spelled_of_read hread
  have hname : isName name = true := by
    rcases htoken with rfl | rfl <;> exact hsound
  have hfront : ∃ tail, spelling = '<' :: (name ++ tail) := by
    rcases htoken with rfl | rfl <;> cases hspelled
    · exact ⟨attributes ++ ['>'], by simp⟩
    · exact ⟨attributes ++ emptyTagEnd, by simp⟩
  refine ⟨hname, ?_⟩
  cases name with
  | nil => simp [isName] at hname
  | cons c more =>
    obtain ⟨tail, rfl⟩ := hfront
    have hc : isNameStart c = true := by
      rw [isName, Bool.and_eq_true] at hname
      exact hname.1
    rw [Lexeme.eq_of_read hread, List.cons_append, List.cons_append, List.cons_append,
      Lexeme.read_cons_markup, Lexeme.readMarkup_startTag start hc] at hread
    obtain ⟨name', inside, -, hspace, hlexeme | hlexeme⟩ := Lexeme.exists_of_readStartTag hread
    · obtain ⟨rfl, -⟩ := Lexeme.mk.inj hlexeme
      rcases htoken with htoken | htoken
      · obtain ⟨-, rfl⟩ := Token.startTag.inj htoken
        exact hspace
      · cases htoken
    · obtain ⟨rfl, -⟩ := Lexeme.mk.inj hlexeme
      rcases htoken with htoken | htoken
      · cases htoken
      · obtain ⟨-, rfl⟩ := Token.emptyTag.inj htoken
        exact hspace

/-- **A section that is understood in a tag** is understood in both kinds of tags. -/
theorem tagSpelled_of_ofTag {name inside : List Char} {make : List Attribute → Event}
    {event : Event} (hname : isName name = true) (hspace : ∀ c ∈ inside.head?, isSpace c = true)
    (hevent : ofTag make inside = .ok event) :
    ∃ attributes, event = make attributes ∧
      TagSpelled (.startElement (String.ofList name) attributes)
        (Token.startTag name inside).render ∧
      TagSpelled (.emptyElement (String.ofList name) attributes)
        (Token.emptyTag name inside).render := by
  obtain ⟨attributes, hmake, hinside, hnodup⟩ := (ofTag_eq_ok_iff hspace).1 hevent
  have hname : isName (String.ofList name).toList = true := by rwa [String.toList_ofList]
  have hstart := TagSpelled.startElement hname hnodup hinside
  have hempty := TagSpelled.emptyElement hname hnodup hinside
  rw [String.toList_ofList] at hstart hempty
  exact ⟨attributes, hmake, hstart, hempty⟩

/-! ## Where reading gets to -/

/-- Reading a text gets to this byte offset, and these characters are left there: the tokens in
front of it have been read, and each of them has given an event. Behind a token that gives none,
reading does not go on, so a token is asked for at these places and no others. -/
inductive StandsAt (text : String) : Nat → List Char → Prop where
  | start : StandsAt text 0 text.toList
  | next {place : Nat} {c : Char} {cs rest : List Char} {lexeme : Lexeme} {event : Event}
      (hstands : StandsAt text place (c :: cs))
      (hread : Lexeme.read place (c :: cs) = .ok (lexeme, rest))
      (hevent : ofToken lexeme.token = .ok event) :
    StandsAt text (place + lexeme.size) rest

namespace StandsAt

variable {text : String} {place : Nat} {back : List Char}

/-- What is left is the text from this byte offset on. -/
theorem exists_front (h : StandsAt text place back) :
    ∃ front, text.toList = front ++ back ∧ Utf8.size front = place := by
  induction h with
  | start => exact ⟨[], rfl, rfl⟩
  | @next place c cs rest lexeme event _ hread _ ih =>
    obtain ⟨front, htext, hplace⟩ := ih
    refine ⟨front ++ lexeme.spelling, ?_, ?_⟩
    · rw [htext, Lexeme.eq_of_read hread, List.append_assoc]
    · rw [Utf8.size_append, hplace, Lexeme.size]

/-- What has been passed lies in front of this byte offset, and reading goes on from there. -/
theorem exists_passed (h : StandsAt text place back) :
    ∃ (lexemes : List (Placed Lexeme)) (events : List (Placed Event)),
      (Lexeme.readAll text.toList).lexemes =
        lexemes ++ (Lexeme.readFrom [] place back).lexemes ∧
      (readAll text).events = events ++ (reading place back).1 ∧
      (∀ lexeme ∈ lexemes, lexeme.start < place) ∧ ∀ event ∈ events, event.start < place := by
  induction h with
  | start => exact ⟨[], [], rfl, rfl, List.forall_mem_nil _, List.forall_mem_nil _⟩
  | @next place c cs rest lexeme event _ hread hevent ih =>
    obtain ⟨lexemes, events, hlexemes, hevents, hfront, hfrontEvents⟩ := ih
    have hsize := Lexeme.size_pos_of_read hread
    refine ⟨lexemes ++ [⟨lexeme, place⟩], events ++ [⟨event, place⟩], ?_, ?_, ?_, ?_⟩
    · rw [hlexemes, Lexeme.readFrom_of_ok _ hread, Lexeme.readFrom_passed]
      simp
    · rw [hevents, reading_of_read hread hevent, List.append_assoc]
      rfl
    · intro l hl
      rcases List.mem_append.1 hl with hl | hl
      · have := hfront l hl
        omega
      · obtain rfl := List.mem_singleton.1 hl
        exact Nat.lt_add_of_pos_right hsize
    · intro e he
      rcases List.mem_append.1 he with he | he
      · have := hfrontEvents e he
        omega
      · obtain rfl := List.mem_singleton.1 he
        exact Nat.lt_add_of_pos_right hsize

variable {c : Char} {cs : List Char}

/-- The token that starts here is the one at the front of what is left. -/
theorem mem_lexemes_iff (h : StandsAt text place (c :: cs)) {lexeme : Lexeme} :
    ⟨lexeme, place⟩ ∈ (Lexeme.readAll text.toList).lexemes ↔
      ∃ rest, Lexeme.read place (c :: cs) = .ok (lexeme, rest) := by
  obtain ⟨lexemes, events, hlexemes, -, hfront, -⟩ := h.exists_passed
  rw [hlexemes, List.mem_append, ← Lexeme.mem_readFrom_iff]
  constructor
  · rintro (hmem | hmem)
    · exact absurd (hfront _ hmem) (Nat.lt_irrefl place)
    · exact hmem
  · exact .inr

/-- The event that starts here is that of the token at the front of what is left. -/
theorem mem_events_iff (h : StandsAt text place (c :: cs)) {event : Event} :
    ⟨event, place⟩ ∈ (readAll text).events ↔
      ∃ lexeme rest, Lexeme.read place (c :: cs) = .ok (lexeme, rest) ∧
        ofToken lexeme.token = .ok event := by
  obtain ⟨lexemes, events, -, hevents, -, hfront⟩ := h.exists_passed
  rw [hevents, List.mem_append, ← mem_reading_iff]
  constructor
  · rintro (hmem | hmem)
    · exact absurd (hfront _ hmem) (Nat.lt_irrefl place)
    · exact hmem
  · exact .inr

end StandsAt

/-! ## Start tags -/

/-- **Start tags are accepted exactly by their grammar.** Where reading gets to a `<` with the start
of a name behind it, the event of a tag is delivered if and only if the text goes on with one of its
spellings. There is at most one such event and one such spelling, and this spelling is just what the
token takes up. -/
theorem mem_events_iff_tagSpelled {text : String} {place : Nat} {c : Char} {cs : List Char}
    (hstands : StandsAt text place ('<' :: c :: cs)) (hc : isNameStart c = true) :
    (∃ front, text.toList = front ++ '<' :: c :: cs ∧ Utf8.size front = place) ∧
    (∀ event, ⟨event, place⟩ ∈ (readAll text).events ↔
      ∃ spelling, spelling <+: '<' :: c :: cs ∧ event.TagSpelled spelling) ∧
    ∀ event spelling, spelling <+: '<' :: c :: cs → event.TagSpelled spelling →
      (∀ event' spelling', spelling' <+: '<' :: c :: cs → event'.TagSpelled spelling' →
        event' = event ∧ spelling' = spelling) ∧
      ∃ token, ofToken token = .ok event ∧
        ∀ lexeme, ⟨lexeme, place⟩ ∈ (Lexeme.readAll text.toList).lexemes ↔
          lexeme = ⟨token, spelling⟩ := by
  -- a spelling at this place is what is read there
  have hread (event : Event) (spelling : List Char) (hfront : spelling <+: '<' :: c :: cs)
      (hspelled : event.TagSpelled spelling) :
      ∃ token rest, Lexeme.read place ('<' :: c :: cs) = .ok (⟨token, spelling⟩, rest) ∧
        ofToken token = .ok event := by
    obtain ⟨rest, hrest⟩ := hfront
    obtain ⟨token, hread, hevent⟩ := hspelled.exists_read place rest
    rw [hrest] at hread
    exact ⟨token, rest, hread, hevent⟩
  refine ⟨hstands.exists_front, fun event => ?_, fun event spelling hfront hspelled => ?_⟩
  · rw [hstands.mem_events_iff]
    constructor
    · rintro ⟨lexeme, rest, hok, hevent⟩
      exact ⟨lexeme.spelling, ⟨rest, (Lexeme.eq_of_read hok).symm⟩,
        tagSpelled_of_read hc hok hevent⟩
    · rintro ⟨spelling, hfront, hspelled⟩
      obtain ⟨token, rest, hok, hevent⟩ := hread event spelling hfront hspelled
      exact ⟨_, rest, hok, hevent⟩
  · obtain ⟨token, rest, hok, hevent⟩ := hread event spelling hfront hspelled
    refine ⟨fun event' spelling' hfront' hspelled' => ?_, token, hevent, fun lexeme => ?_⟩
    · obtain ⟨token', rest', hok', hevent'⟩ := hread event' spelling' hfront' hspelled'
      rw [hok'] at hok
      obtain ⟨hlexeme, -⟩ := Prod.mk.inj (Except.ok.inj hok)
      obtain ⟨rfl, rfl⟩ := Lexeme.mk.inj hlexeme
      exact ⟨Except.ok.inj (hevent'.symm.trans hevent), rfl⟩
    · rw [hstands.mem_lexemes_iff, hok]
      constructor
      · rintro ⟨rest', hrest'⟩
        exact (Prod.mk.inj (Except.ok.inj hrest')).1.symm
      · rintro rfl
        exact ⟨rest, rfl⟩

/-- The end of a tag in a quoted value, and in front of the last a slash. -/
theorem mem_events_iff_tagSpelled_quoted :
    let text := "<a>é<b c = '/>' d=\"&lt;\" />"
    let back := "<b c = '/>' d=\"&lt;\" />".toList
    let event := Event.emptyElement "b" [⟨"c", "/>"⟩, ⟨"d", "<"⟩]
    StandsAt text 5 back ∧ isNameStart 'b' = true ∧ event.TagSpelled back ∧
      ⟨event, 5⟩ ∈ (readAll text).events := by
  intro text back event
  have hspace : ∀ c ∈ [' '], isSpace c = true := List.forall_mem_singleton.2 rfl
  have hnone : ∀ c ∈ [], isSpace c = true := List.forall_mem_nil _
  have hslash : '\x27' ∉ "/>".toList ∧ '<' ∉ "/>".toList := by decide
  have hc : Attribute.Spelled ⟨"c", "/>"⟩ "c = '/>'".toList :=
    .intro rfl hspace hspace (.tail _ (.head _)) hslash.1 hslash.2 rfl
  have hreference : '"' ∉ "&lt;".toList ∧ '<' ∉ "&lt;".toList := by decide
  have hd : Attribute.Spelled ⟨"d", "<"⟩ "d=\"&lt;\"".toList :=
    .intro rfl hnone hnone (.head _) hreference.1 hreference.2 rfl
  have hinside : Attribute.AllSpelled [⟨"c", "/>"⟩, ⟨"d", "<"⟩] " c = '/>' d=\"&lt;\" ".toList :=
    .cons (List.cons_ne_nil _ _) hspace hc (.cons (List.cons_ne_nil _ _) hspace hd (.nil hspace))
  have hspelled : event.TagSpelled back := .emptyElement rfl (by decide) hinside
  have houter : TagSpelled (.startElement "a" []) "<a>".toList :=
    @TagSpelled.startElement "a" [] [] rfl .nil (.nil hnone)
  have hstands : StandsAt text 5 back := by
    obtain ⟨token, hread, hevent⟩ := houter.exists_read 0 ('é' :: back)
    have hplain : '<' ∉ ['é'] := by decide
    have hback : ∀ c ∈ back.head?, c = '<' := fun c hc => (Option.some.inj hc).symm
    have htext : Lexeme.read 3 ('é' :: back) = .ok (⟨.text ['é'], ['é']⟩, back) :=
      Lexeme.read_text 3 (List.cons_ne_nil _ _) hplain hback
    have hcontent : ofToken (.text ['é']) = .ok (.text "é") := rfl
    have htoList : text.toList = '<' :: 'a' :: '>' :: 'é' :: back := by simp [text, back]
    have hstart := @StandsAt.start text
    rw [htoList] at hstart
    exact .next (.next hstart hread hevent) htext hcontent
  exact ⟨hstands, rfl, hspelled,
    ((mem_events_iff_tagSpelled hstands rfl).2.1 event).2 ⟨back, List.prefix_rfl, hspelled⟩⟩

end Event

end Groundwork.Xml
