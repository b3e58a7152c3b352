import Groundwork.Proofs.Xml.Lexeme
import Groundwork.Xml.Event

/-!
# `Proofs.Xml.Event` — the events of a text, one token at a time

Tokens and events are collected by two loops, one after the other, each with what it has passed in
hand. `Event.reading` is what both give from a byte offset on; it takes a token off the front, turns
it into an event and goes on behind it, which is how texts that have been built piece by piece are
read.

## Contents

* `Event.reading`, `reading_of_read` — events from an offset on, and one step of it;
  `reading_of_unread`, `reading_of_misread` — how they end.
* `Lexeme.mem_readFrom_iff`, `mem_reading_iff` — what starts where reading starts.
* `Event.Sound`, `sound_of_mem_readAll` — what every event of a text satisfies.
* `ne_declaration_of_mem_tail` — only the first event can be the XML declaration.
-/

namespace Groundwork.Xml

/-! ## Tokens, one at a time -/

namespace Lexeme

theorem readFrom_of_error (passed : List (Placed Lexeme)) {start : Nat} {c : Char} {cs : List Char}
    {e : ParseError} (h : read start (c :: cs) = .error e) :
    readFrom passed start (c :: cs) = ⟨passed.reverse, some e⟩ := by
  rw [readFrom]
  split
  · next e' he =>
    rw [h, Except.error.injEq] at he
    rw [he]
  · next lexeme rest hok => simp [h] at hok

theorem readFrom_of_ok (passed : List (Placed Lexeme)) {start : Nat} {c : Char} {cs : List Char}
    {lexeme : Lexeme} {rest : List Char} (h : read start (c :: cs) = .ok (lexeme, rest)) :
    readFrom passed start (c :: cs) =
      readFrom (⟨lexeme, start⟩ :: passed) (start + lexeme.size) rest := by
  rw [readFrom]
  split
  · next e he => simp [h] at he
  · next lexeme' rest' hok =>
    rw [h, Except.ok.injEq, Prod.mk.injEq] at hok
    rw [hok.1, hok.2]

/-- What has been passed does not change what comes. -/
theorem readFrom_passed (passed : List (Placed Lexeme)) (start : Nat) (cs : List Char) :
    readFrom passed start cs =
      ⟨passed.reverse ++ (readFrom [] start cs).lexemes, (readFrom [] start cs).failure⟩ := by
  match cs with
  | [] => simp [readFrom]
  | c :: cs =>
    cases h : read start (c :: cs) with
    | error e => simp [readFrom_of_error _ h]
    | ok found =>
      obtain ⟨lexeme, rest⟩ := found
      have hlen : rest.length < (c :: cs).length := length_read h
      rw [readFrom_of_ok _ h, readFrom_of_ok _ h, readFrom_passed (_ :: passed),
        readFrom_passed [⟨lexeme, start⟩]]
      simp
termination_by cs.length
decreasing_by all_goals exact hlen

theorem sound_of_mem_readFrom {passed : List (Placed Lexeme)} {start : Nat} {cs : List Char}
    (hpassed : ∀ lexeme ∈ passed, lexeme.item.token.Sound lexeme.start) :
    ∀ lexeme ∈ (readFrom passed start cs).lexemes, lexeme.item.token.Sound lexeme.start := by
  fun_induction readFrom passed start cs with
  | case1 passed start => simpa using hpassed
  | case2 passed start c cs e h => simpa using hpassed
  | case3 passed start c cs lexeme rest h hlen ih =>
    apply ih
    intro l hl
    rcases List.mem_cons.1 hl with rfl | hl
    · exact sound_of_read h
    · exact hpassed l hl

theorem size_pos_of_read {start : Nat} {c : Char} {cs rest : List Char} {lexeme : Lexeme}
    (h : read start (c :: cs) = .ok (lexeme, rest)) : 0 < lexeme.size := by
  have hne := spelling_ne_nil_of_read h
  cases hspelling : lexeme.spelling with
  | nil => exact absurd hspelling hne
  | cons d ds =>
    have hd := d.utf8Size_pos
    rw [size, hspelling, Text.Utf8.size_cons]
    omega

theorem le_start_of_mem_readFrom {passed : List (Placed Lexeme)} {start bound : Nat}
    {cs : List Char} (hpassed : ∀ lexeme ∈ passed, bound ≤ lexeme.start) (hstart : bound ≤ start) :
    ∀ lexeme ∈ (readFrom passed start cs).lexemes, bound ≤ lexeme.start := by
  fun_induction readFrom passed start cs with
  | case1 passed start => simpa using hpassed
  | case2 passed start c cs e h => simpa using hpassed
  | case3 passed start c cs lexeme rest h hlen ih =>
    refine ih (fun l hl => ?_) (by omega)
    rcases List.mem_cons.1 hl with rfl | hl
    · exact hstart
    · exact hpassed l hl

/-- The token that starts where reading starts is the one at the front. -/
theorem mem_readFrom_iff {start : Nat} {c : Char} {cs : List Char} {lexeme : Lexeme} :
    ⟨lexeme, start⟩ ∈ (readFrom [] start (c :: cs)).lexemes ↔
      ∃ rest, read start (c :: cs) = .ok (lexeme, rest) := by
  cases hread : read start (c :: cs) with
  | error e => simp [readFrom_of_error _ hread]
  | ok found =>
    obtain ⟨first, rest⟩ := found
    have hsize := size_pos_of_read hread
    -- all others start behind the first, which takes up some bytes
    have hlater : ⟨lexeme, start⟩ ∉ (readFrom [] (start + first.size) rest).lexemes := by
      intro hmem
      have hle : start + first.size ≤ start :=
        le_start_of_mem_readFrom (List.forall_mem_nil _) (Nat.le_refl _) _ hmem
      omega
    rw [readFrom_of_ok _ hread, readFrom_passed]
    simp [hlater, eq_comm]

end Lexeme

/-! ## Events, one at a time -/

namespace Event

/-- The events from a byte offset on, and the fault that ends them, if one does. -/
def reading (start : Nat) (cs : List Char) : List (Placed Event) × Option ParseError :=
  let tokens := Lexeme.readFrom [] start cs
  let sequence := ofLexemes tokens.failure [] start tokens.lexemes
  (sequence.events, sequence.failure)

theorem events_ofLexemes (failure : Option ParseError) (passed : List (Placed Event))
    (position place : Nat) (lexemes : List (Placed Lexeme)) :
    (ofLexemes failure passed position lexemes).events =
      passed.reverse ++ (ofLexemes failure [] place lexemes).events := by
  induction lexemes generalizing passed position place with
  | nil => simp [ofLexemes]
  | cons lexeme lexemes ih =>
    rw [ofLexemes, ofLexemes]
    split
    · next event _ =>
      rw [ih (_ :: passed) _ 0, ih [_] _ 0]
      simp
    · simp

theorem failure_ofLexemes (failure : Option ParseError) (passed : List (Placed Event))
    (position place : Nat) (lexemes : List (Placed Lexeme)) :
    (ofLexemes failure passed position lexemes).failure =
      (ofLexemes failure [] place lexemes).failure := by
  induction lexemes generalizing passed position place with
  | nil => rfl
  | cons lexeme lexemes ih =>
    rw [ofLexemes, ofLexemes]
    split
    · rw [ih _ _ 0, ih [_] _ 0]
    · rfl

/-- Each event comes from a token at the same place. -/
theorem exists_of_mem_ofLexemes {failure : Option ParseError} {passed : List (Placed Event)}
    {position : Nat} {lexemes : List (Placed Lexeme)} {event : Placed Event}
    (h : event ∈ (ofLexemes failure passed position lexemes).events) :
    event ∈ passed ∨ ∃ lexeme ∈ lexemes, ofToken lexeme.item.token = .ok event.item ∧
      event.start = lexeme.start := by
  induction lexemes generalizing passed position with
  | nil => exact .inl (by simpa [ofLexemes] using h)
  | cons lexeme lexemes ih =>
    rw [ofLexemes] at h
    split at h
    · next read hread =>
      rcases ih h with hpassed | ⟨l, hl, hevent⟩
      · rcases List.mem_cons.1 hpassed with rfl | hpassed
        · exact .inr ⟨lexeme, by simp, hread, rfl⟩
        · exact .inl hpassed
      · exact .inr ⟨l, by simp [hl], hevent⟩
    · exact .inl (by simpa using h)

theorem reading_nil (start : Nat) : reading start [] = ([], none) := by
  simp [reading, Lexeme.readFrom, ofLexemes]

/-- **One step.** The token at the front gives its event, and reading goes on behind it. -/
theorem reading_of_read {start : Nat} {c : Char} {cs rest : List Char} {lexeme : Lexeme}
    {event : Event} (hread : Lexeme.read start (c :: cs) = .ok (lexeme, rest))
    (hevent : ofToken lexeme.token = .ok event) :
    reading start (c :: cs) =
      (⟨event, start⟩ :: (reading (start + lexeme.size) rest).1,
        (reading (start + lexeme.size) rest).2) := by
  unfold reading
  rw [Lexeme.readFrom_of_ok _ hread, Lexeme.readFrom_passed]
  simp only [List.reverse_singleton, List.singleton_append, ofLexemes, hevent]
  rw [events_ofLexemes _ _ _ (start + lexeme.size), failure_ofLexemes _ _ _ (start + lexeme.size)]
  simp

/-- A token that cannot be read ends the events. -/
theorem reading_of_unread {start : Nat} {c : Char} {cs : List Char} {e : ParseError}
    (hread : Lexeme.read start (c :: cs) = .error e) : reading start (c :: cs) = ([], some e) := by
  unfold reading
  rw [Lexeme.readFrom_of_error _ hread]
  rfl

/-- A token that cannot be understood ends the events. -/
theorem reading_of_misread {start : Nat} {c : Char} {cs rest : List Char} {lexeme : Lexeme}
    {fault : Fault} (hread : Lexeme.read start (c :: cs) = .ok (lexeme, rest))
    (hevent : ofToken lexeme.token = .error fault) :
    reading start (c :: cs) = ([], some ⟨fault, start⟩) := by
  unfold reading
  rw [Lexeme.readFrom_of_ok _ hread, Lexeme.readFrom_passed]
  simp only [List.reverse_singleton, List.singleton_append, ofLexemes, hevent, List.reverse_nil]

theorem le_start_of_mem_reading {start : Nat} {cs : List Char} {event : Placed Event}
    (h : event ∈ (reading start cs).1) : start ≤ event.start := by
  rcases exists_of_mem_ofLexemes h with hnil | ⟨lexeme, hlexeme, -, hstart⟩
  · cases hnil
  · rw [hstart]
    exact Lexeme.le_start_of_mem_readFrom (List.forall_mem_nil _) (Nat.le_refl _) lexeme hlexeme

/-- All events but the first come from tokens behind the first, which has taken up some bytes. -/
theorem lt_start_of_mem_tail_reading {start : Nat} {cs : List Char} {event : Placed Event}
    (h : event ∈ (reading start cs).1.tail) : start < event.start := by
  cases cs with
  | nil => simp [reading_nil] at h
  | cons c cs =>
    cases hread : Lexeme.read start (c :: cs) with
    | error e => simp [reading_of_unread hread] at h
    | ok found =>
      obtain ⟨first, rest⟩ := found
      cases hfirst : ofToken first.token with
      | error fault => simp [reading_of_misread hread hfirst] at h
      | ok read =>
        rw [reading_of_read hread hfirst, List.tail_cons] at h
        exact Nat.lt_of_lt_of_le (Nat.lt_add_of_pos_right (Lexeme.size_pos_of_read hread))
          (le_start_of_mem_reading h)

/-- The event that starts where reading starts is that of the token at the front. -/
theorem mem_reading_iff {start : Nat} {c : Char} {cs : List Char} {event : Event} :
    ⟨event, start⟩ ∈ (reading start (c :: cs)).1 ↔
      ∃ lexeme rest, Lexeme.read start (c :: cs) = .ok (lexeme, rest) ∧
        ofToken lexeme.token = .ok event := by
  cases hread : Lexeme.read start (c :: cs) with
  | error e => simp [reading_of_unread hread]
  | ok found =>
    obtain ⟨first, rest⟩ := found
    cases hfirst : ofToken first.token with
    | error fault => simp [reading_of_misread hread hfirst, hfirst]
    | ok read =>
      have hlater : ⟨event, start⟩ ∉ (reading start (c :: cs)).1.tail := fun hmem =>
        Nat.lt_irrefl start (lt_start_of_mem_tail_reading hmem)
      rw [reading_of_read hread hfirst] at hlater ⊢
      rw [List.tail_cons] at hlater
      simp [hlater, hfirst, eq_comm]

theorem readAll_eq_reading (text : String) :
    ((readAll text).events, (readAll text).failure) = reading 0 text.toList := rfl

/-! ## What every event satisfies -/

/-- What an event satisfies that has been read off a text. -/
def Sound : Event → Prop
  | .startElement name attributes | .emptyElement name attributes =>
    isName name.toList = true ∧ Attribute.Named attributes
  | .comment content => isCommentBody content.toList = true
  | .instruction target data =>
    isName target.toList = true ∧ isReserved target.toList = false ∧
      ∀ body ∈ data, ¬ instructionEnd <:+: body.toList ∧
        ∃ c cs, body.toList = c :: cs ∧ isSpace c = false
  | .endElement _ | .text _ | .cdata _ | .declaration | .doctype _ => True

theorem exists_of_ofTag {make : List Attribute → Event} {attributes : List Char} {event : Event}
    (h : ofTag make attributes = .ok event) :
    ∃ read, event = make read ∧ Attribute.Named read := by
  rw [ofTag] at h
  split at h
  · next read hread =>
    rw [Except.ok.injEq] at h
    exact ⟨read, h.symm, Attribute.named_of_readAll hread⟩
  · simp at h

theorem exists_of_ofText {body : List Char} {event : Event} (h : ofText body = .ok event) :
    ∃ content, event = .text content := by
  rw [ofText] at h
  split at h
  · simp at h
  · split at h
    · rw [Except.ok.injEq] at h
      exact ⟨_, h.symm⟩
    · simp at h

theorem sound_of_ofToken {token : Token} {event : Event} {start : Nat}
    (htoken : token.Sound start) (h : ofToken token = .ok event) : event.Sound := by
  cases token with
  | startTag name attributes =>
    obtain ⟨read, rfl, hread⟩ := exists_of_ofTag h
    exact ⟨by simpa [Token.Sound] using htoken, hread⟩
  | emptyTag name attributes =>
    obtain ⟨read, rfl, hread⟩ := exists_of_ofTag h
    exact ⟨by simpa [Token.Sound] using htoken, hread⟩
  | text body =>
    obtain ⟨content, rfl⟩ := exists_of_ofText h
    trivial
  | declaration target data =>
    obtain ⟨read, rfl, -⟩ := exists_of_ofTag h
    trivial
  | comment body =>
    obtain rfl := Except.ok.inj h
    simpa [Sound, Token.Sound] using htoken
  | instruction target data =>
    obtain rfl := Except.ok.inj h
    refine ⟨by simpa using htoken.1, by simpa using htoken.2.1, ?_⟩
    intro body hbody
    obtain ⟨chars, hchars, rfl⟩ := Option.map_eq_some_iff.1 hbody
    simpa using htoken.2.2 chars hchars
  | endTag name => obtain rfl := Except.ok.inj h; trivial
  | cdata body => obtain rfl := Except.ok.inj h; trivial
  | doctype body => obtain rfl := Except.ok.inj h; trivial

/-- **Every event of a text is sound.** -/
theorem sound_of_mem_readAll {text : String} {event : Placed Event}
    (h : event ∈ (readAll text).events) : event.item.Sound := by
  rcases exists_of_mem_ofLexemes h with hnil | ⟨lexeme, hlexeme, hevent, -⟩
  · simp at hnil
  · exact sound_of_ofToken (Lexeme.sound_of_mem_readFrom (by simp) lexeme hlexeme) hevent

/-- A declaration is at the start of its text. -/
theorem start_eq_zero_of_ofToken {token : Token} {start : Nat} (htoken : token.Sound start)
    (h : ofToken token = .ok .declaration) : start = 0 := by
  cases token with
  | startTag name attributes => obtain ⟨read, hread, -⟩ := exists_of_ofTag h; simp at hread
  | emptyTag name attributes => obtain ⟨read, hread, -⟩ := exists_of_ofTag h; simp at hread
  | text body => obtain ⟨content, hcontent⟩ := exists_of_ofText h; simp at hcontent
  | declaration target data => exact htoken
  | comment body => simp [ofToken] at h
  | instruction target data => simp [ofToken] at h
  | endTag name => simp [ofToken] at h
  | cdata body => simp [ofToken] at h
  | doctype body => simp [ofToken] at h

/-- **Only the first event can be the declaration.** -/
theorem ne_declaration_of_mem_tail {text : String} {event : Placed Event}
    (h : event ∈ (readAll text).events.tail) : event.item ≠ .declaration := by
  have hmem : event ∈ (readAll text).events := List.mem_of_mem_tail h
  have hreading : (readAll text).events = (reading 0 text.toList).1 := rfl
  have hpos : 0 < event.start := by
    rw [hreading] at h
    exact lt_start_of_mem_tail_reading h
  intro hdeclaration
  rcases exists_of_mem_ofLexemes hmem with hnil | ⟨lexeme, hlexeme, hevent, hstart⟩
  · simp at hnil
  · have hsound := Lexeme.sound_of_mem_readFrom (by simp) lexeme hlexeme
    rw [hdeclaration] at hevent
    have hzero := start_eq_zero_of_ofToken hsound hevent
    omega

end Event

end Groundwork.Xml
