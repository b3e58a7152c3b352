import Groundwork.Proofs.Xml.Spelling

/-!
# `Proofs.Xml.Locality` — what the reading of a token depends on

Every piece of markup ends with characters that end it wherever they stand, so what follows a piece
has no say in how it is read; and text goes on to the next `<`, or to the end. A token can therefore
be put in front of another rest, and is read there as it was. Nor does it matter where a token
stands, but for the XML declaration, which is one at the start of a text only. A token that cannot
be read is reported at its start, with one exception: if the name of an element runs on into
something else, the place is that of the character behind the name.

## Contents

* `Local` — readers that do not look behind what they take; one lemma for each reader.
* `read_local` — **a token is read in the same way in front of another rest.**
* `Movable`, `movable_read` — **and behind the start of a text at any place.**
* `ParseError.PlainAt`, `ParseError.BehindName` — where a fault is reported.
* `place_of_read` — **where a token that cannot be read is reported.**
-/

namespace Groundwork.Xml

open Text

/-! ## Cuts in front of another rest -/

theorem splitOnce?_local {α : Type} [DecidableEq α] {stem xs before after : List α} {last : α}
    (hlast : last ∉ stem) (h : splitOnce? (stem ++ [last]) xs = some (before, after))
    (other : List α) :
    splitOnce? (stem ++ [last]) (before ++ (stem ++ [last]) ++ other) = some (before, other) :=
  splitOnce?_append hlast (not_infix_of_splitOnce? (by simp) h) other

theorem head?_append_cons {α : Type} (xs : List α) (x : α) (ys zs : List α) :
    (xs ++ x :: ys).head? = (xs ++ x :: zs).head? := by
  cases xs <;> rfl

namespace Lexeme

/-! ## Readers -/

/-- What stands behind the characters that the reader takes makes no difference to it. -/
def Local (reader : List Char → Reading) : Prop :=
  ∀ cs lexeme rest, reader cs = .ok (lexeme, rest) →
    ∃ taken, cs = taken ++ rest ∧ ∀ other, reader (taken ++ other) = .ok (lexeme, other)

theorem local_readComment (start : Nat) : Local (readComment start) := by
  intro cs lexeme rest h
  unfold readComment at h
  split at h
  · cases h
  · next body after hsplit =>
    split at h
    · next hbody =>
      obtain ⟨rfl, rfl⟩ := Prod.mk.inj (Except.ok.inj h)
      refine ⟨body ++ commentEnd, eq_of_splitOnce? hsplit, fun other => ?_⟩
      have hother : splitOnce? commentEnd (body ++ commentEnd ++ other) = some (body, other) :=
        splitOnce?_local (by decide : '>' ∉ ['-', '-']) hsplit other
      simp only [readComment, hother, if_pos hbody]
    · cases h

theorem local_readCData (start : Nat) : Local (readCData start) := by
  intro cs lexeme rest h
  unfold readCData at h
  split at h
  · cases h
  · next body after hsplit =>
    obtain ⟨rfl, rfl⟩ := Prod.mk.inj (Except.ok.inj h)
    refine ⟨body ++ cdataEnd, eq_of_splitOnce? hsplit, fun other => ?_⟩
    have hother : splitOnce? cdataEnd (body ++ cdataEnd ++ other) = some (body, other) :=
      splitOnce?_local (by decide : '>' ∉ [']', ']']) hsplit other
    simp only [readCData, hother]

theorem exists_of_splitDoctypeFrom {passed cs inside rest : List Char} {depth : Nat}
    {quote : Option Char} (h : splitDoctypeFrom passed depth quote cs = some (inside, rest)) :
    ∃ taken, cs = taken ++ rest ∧
      ∀ other, splitDoctypeFrom passed depth quote (taken ++ other) = some (inside, other) := by
  fun_induction splitDoctypeFrom passed depth quote cs with
  | case1 => cases h
  | case2 passed depth c cs q ih =>
    obtain ⟨taken, rfl, htaken⟩ := ih h
    refine ⟨c :: taken, rfl, fun other => ?_⟩
    rw [List.cons_append, splitDoctypeFrom, htaken]
  | case3 passed depth c cs hquote ih =>
    obtain ⟨taken, rfl, htaken⟩ := ih h
    refine ⟨c :: taken, rfl, fun other => ?_⟩
    rw [List.cons_append, splitDoctypeFrom, if_pos hquote, htaken]
  | case4 passed depth cs hquote ih =>
    obtain ⟨taken, rfl, htaken⟩ := ih h
    refine ⟨'[' :: taken, rfl, fun other => ?_⟩
    rw [List.cons_append, splitDoctypeFrom, if_neg hquote, if_pos rfl, htaken]
  | case5 passed depth cs hquote hopen ih =>
    obtain ⟨taken, rfl, htaken⟩ := ih h
    refine ⟨']' :: taken, rfl, fun other => ?_⟩
    rw [List.cons_append, splitDoctypeFrom, if_neg hquote, if_neg hopen, if_pos rfl, htaken]
  | case6 passed depth c cs hquote hopen hclose hend =>
    obtain ⟨rfl, rfl⟩ := Prod.mk.inj (Option.some.inj h)
    refine ⟨[c], rfl, fun other => ?_⟩
    rw [List.singleton_append, splitDoctypeFrom, if_neg hquote, if_neg hopen, if_neg hclose,
      if_pos hend]
  | case7 passed depth c cs hquote hopen hclose hend ih =>
    obtain ⟨taken, rfl, htaken⟩ := ih h
    refine ⟨c :: taken, rfl, fun other => ?_⟩
    rw [List.cons_append, splitDoctypeFrom, if_neg hquote, if_neg hopen, if_neg hclose,
      if_neg hend, htaken]

theorem local_readDoctype (start : Nat) : Local (readDoctype start) := by
  intro cs lexeme rest h
  unfold readDoctype at h
  split at h
  · cases h
  · next inside after hsplit =>
    obtain ⟨rfl, rfl⟩ := Prod.mk.inj (Except.ok.inj h)
    obtain ⟨taken, hcs, htaken⟩ := exists_of_splitDoctypeFrom hsplit
    exact ⟨taken, hcs, fun other => by simp only [readDoctype, htaken]⟩

/-- Whether an instruction is read depends on its target and its place only. -/
theorem readInstruction_other {start : Nat} {target inside after rest : List Char} {lexeme : Lexeme}
    (htarget : isName target = true) (hspace : ∀ c ∈ inside.head?, isSpace c = true)
    (hinside : ¬ instructionEnd <:+: inside)
    (h : readInstruction start (target ++ (inside ++ instructionEnd ++ after)) =
      .ok (lexeme, rest)) :
    after = rest ∧ ∀ other, readInstruction start (target ++ (inside ++ instructionEnd ++ other)) =
      .ok (lexeme, other) := by
  have hread := readInstruction_append start htarget hspace hinside
  rw [hread] at h
  split at h
  · next hfree =>
    obtain ⟨rfl, rfl⟩ := Prod.mk.inj (Except.ok.inj h)
    exact ⟨rfl, fun other => by rw [hread, if_pos hfree]⟩
  · next hreserved =>
    split at h
    · next hstart =>
      obtain ⟨rfl, rfl⟩ := Prod.mk.inj (Except.ok.inj h)
      exact ⟨rfl, fun other => by rw [hread, if_neg hreserved, if_pos hstart]⟩
    · cases h

theorem local_readInstruction (start : Nat) : Local (readInstruction start) := by
  intro cs lexeme rest h
  have hread := h
  unfold readInstruction at h
  split at h
  · cases h
  · next target afterTarget hname =>
    split at h
    · cases h
    · next inside after hsplit =>
      have hinside : ¬ instructionEnd <:+: inside :=
        not_infix_of_splitOnce? (by simp [instructionEnd]) hsplit
      split at h
      · cases h
      · next hgap =>
        have hspace : ∀ c ∈ inside.head?, isSpace c = true := by
          intro c hc
          rw [hc] at hgap
          simpa using hgap
        rw [eq_of_readName? hname, eq_of_splitOnce? hsplit] at hread ⊢
        obtain ⟨rfl, hother⟩ :=
          readInstruction_other (isName_of_readName? hname) hspace hinside hread
        refine ⟨target ++ inside ++ instructionEnd, by simp, fun other => ?_⟩
        rw [← hother other]
        simp

theorem local_readEndTag (start : Nat) : Local (readEndTag start) := by
  intro cs lexeme rest h
  unfold readEndTag at h
  split at h
  · cases h
  · next name afterName hname =>
    split at h
    · next after hafter =>
      obtain ⟨rfl, rfl⟩ := Prod.mk.inj (Except.ok.inj h)
      have hspaces := List.takeWhile_append_dropWhile (p := isSpace) (l := afterName)
      rw [hafter] at hspaces
      have hgap : ∀ c ∈ afterName.takeWhile isSpace, isSpace c = true :=
        List.all_eq_true.1 List.all_takeWhile
      generalize afterName.takeWhile isSpace = gap at hspaces hgap
      refine ⟨name ++ gap ++ ['>'], ?_, fun other => ?_⟩
      · rw [eq_of_readName? hname, ← hspaces]
        simp
      · have hread := read_endTag_gap start (isName_of_readName? hname) hgap other
        have hassoc : endTagOpening ++ name ++ gap ++ ['>'] ++ other =
            endTagOpening ++ (name ++ gap ++ ['>'] ++ other) := by simp
        rw [hassoc] at hread
        rw [← readMarkup_endTag]
        exact (read_cons_markup start _).symm.trans hread
    · cases h

theorem local_readStartTag (start : Nat) : Local (readStartTag start) := by
  intro cs lexeme rest h
  unfold readStartTag at h
  split at h
  · cases h
  · next name afterName hname =>
    split at h
    · cases h
    · next inside after hsplit =>
      have hafterName := eq_of_splitUnquoted? hsplit
      have hunmarked := unmarked_of_splitUnquoted? hsplit
      have hend := isNamePart_head_of_readName? hname
      -- the reader of tags looks at the name and what stands inside the tag only
      have hread (other : List Char) : readName? (name ++ (inside ++ '>' :: other)) =
          some (name, inside ++ '>' :: other) := by
        refine readName?_append _ (isName_of_readName? hname) ?_
        rw [head?_append_cons inside '>' other after, ← hafterName]
        exact hend
      have hcs : cs = name ++ (inside ++ '>' :: after) := by
        rw [eq_of_readName? hname, hafterName]
      generalize hslash : splitSlash inside = slash at h
      obtain ⟨attributes, isEmpty⟩ := slash
      simp only at h
      split at h
      · cases h
      · next hgap =>
        obtain ⟨rfl, rfl⟩ := Prod.mk.inj (Except.ok.inj h)
        refine ⟨name ++ inside ++ ['>'], by rw [hcs]; simp, fun other => ?_⟩
        have hassoc : name ++ inside ++ ['>'] ++ other = name ++ (inside ++ '>' :: other) := by
          simp
        rw [hassoc, readStartTag, hread]
        simp only [splitUnquoted?_append hunmarked other, hslash, if_neg hgap]

/-! ## Any token -/

/-- A reader behind the opening that it is for. -/
theorem Local.behind {reader : List Char → Reading} (hlocal : Local reader) {start : Nat}
    {opening cs after rest : List Char} {lexeme : Lexeme}
    (hchosen : ∀ cs, readMarkup start (opening ++ cs) = reader cs)
    (hopening : stripFront? opening cs = some after) (h : reader after = .ok (lexeme, rest)) :
    ∃ taken, cs = taken ++ rest ∧
      ∀ other, readMarkup start (taken ++ other) = .ok (lexeme, other) := by
  obtain ⟨taken, rfl, htaken⟩ := hlocal after lexeme rest h
  refine ⟨opening ++ taken, ?_, fun other => ?_⟩
  · rw [stripFront?_eq_some_iff.1 hopening, List.append_assoc]
  · rw [List.append_assoc, hchosen, htaken]

/-- A start tag starts with the start of a name. -/
theorem exists_cons_of_readStartTag {start : Nat} {cs rest : List Char} {lexeme : Lexeme}
    (h : readStartTag start cs = .ok (lexeme, rest)) :
    ∃ c tail, cs = c :: tail ∧ isNameStart c = true := by
  cases cs with
  | nil => cases h
  | cons c tail =>
    refine ⟨c, tail, rfl, ?_⟩
    cases hc : isNameStart c with
    | true => rfl
    | false => simp [readStartTag, readName?, hc] at h

/-- A piece of markup is read in the same way in front of another rest. -/
theorem local_readMarkup (start : Nat) : Local (readMarkup start) := by
  intro cs lexeme rest h
  unfold readMarkup at h
  split at h
  · next hopening =>
    exact (local_readComment start).behind (readMarkup_comment start) hopening h
  split at h
  · next hopening =>
    exact (local_readCData start).behind (readMarkup_cdata start) hopening h
  split at h
  · next hopening =>
    exact (local_readDoctype start).behind (readMarkup_doctype start) hopening h
  split at h
  · next hopening =>
    exact (local_readInstruction start).behind (readMarkup_instruction start) hopening h
  split at h
  · next hopening =>
    exact (local_readEndTag start).behind (readMarkup_endTag start) hopening h
  split at h
  · next after hopening =>
    -- the reader of tags is chosen by the start of a name only
    obtain ⟨taken, rfl, htaken⟩ := local_readStartTag start after lexeme rest h
    obtain ⟨c, tail, htail, hc⟩ := exists_cons_of_readStartTag (htaken [])
    rw [List.append_nil] at htail
    subst htail
    have hcs : cs = ['<'] ++ (c :: tail ++ rest) := stripFront?_eq_some_iff.1 hopening
    refine ⟨'<' :: c :: tail, hcs, fun other => ?_⟩
    rw [List.cons_append, List.cons_append, readMarkup_startTag start hc]
    exact htaken other
  · cases h

/-- **A token is read in the same way in front of another rest**, if text is followed by markup or
by nothing there as well. -/
theorem read_local {start : Nat} {c : Char} {cs rest : List Char} {lexeme : Lexeme}
    (h : read start (c :: cs) = .ok (lexeme, rest)) {other : List Char}
    (hother : lexeme.token.isText = true → ∀ d ∈ other.head?, d = '<') :
    read start (lexeme.spelling ++ other) = .ok (lexeme, other) := by
  have hspelling := eq_of_read h
  have hne := spelling_ne_nil_of_read h
  by_cases hc : c = '<'
  · subst hc
    rw [read_cons_markup] at h
    obtain ⟨taken, htaken, hread⟩ := local_readMarkup start _ _ _ h
    obtain rfl : taken = lexeme.spelling := List.append_cancel_right (htaken.symm.trans hspelling)
    cases hfront : lexeme.spelling with
    | nil => exact absurd hfront hne
    | cons d tail =>
      obtain rfl : '<' = d := by
        rw [hfront] at hspelling
        exact (List.cons.inj hspelling).1
      rw [List.cons_append, read_cons_markup, ← List.cons_append, ← hfront, hread]
  · have hhead : ¬ (c :: cs).head? = some '<' := by simpa using hc
    rw [read, if_neg hhead] at h
    obtain ⟨rfl, -⟩ := Prod.mk.inj (Except.ok.inj h)
    refine read_text start hne ?_ (hother rfl)
    intro hmem
    simpa using List.all_eq_true.1 List.all_takeWhile _ hmem

/-! ## Other places -/

/-- What is read behind the start of a text is read at any place: places stand in errors, and only
the start itself is special. -/
def Movable (reader : Nat → List Char → Reading) : Prop :=
  ∀ start cs found, start ≠ 0 → reader start cs = .ok found →
    ∀ place, reader place cs = .ok found

theorem movable_readComment : Movable readComment := by
  intro start cs found _ h place
  unfold readComment at h ⊢
  split at h
  · cases h
  · split at h
    · next hbody => simpa only [if_pos hbody] using h
    · cases h

theorem movable_readCData : Movable readCData := by
  intro start cs found _ h place
  unfold readCData at h ⊢
  split at h
  · cases h
  · exact h

theorem movable_readDoctype : Movable readDoctype := by
  intro start cs found _ h place
  unfold readDoctype at h ⊢
  split at h
  · cases h
  · exact h

/-- The XML declaration is what the start of a text is special for. -/
theorem movable_readInstruction : Movable readInstruction := by
  intro start cs found hstart h place
  unfold readInstruction at h ⊢
  split at h
  · cases h
  · split at h
    · cases h
    · split at h
      · cases h
      · next hgap =>
        split at h
        · next hfree => simpa only [if_neg hgap, if_pos hfree] using h
        · cases h

theorem movable_readEndTag : Movable readEndTag := by
  intro start cs found _ h place
  unfold readEndTag at h ⊢
  split at h
  · cases h
  · split at h
    · exact h
    · cases h

theorem movable_readStartTag : Movable readStartTag := by
  intro start cs found _ h place
  unfold readStartTag at h ⊢
  split at h
  · cases h
  · split at h
    · cases h
    · simp only at h ⊢
      split at h
      · cases h
      · next hgap => simpa only [if_neg hgap] using h

theorem movable_readMarkup : Movable readMarkup := by
  intro start cs found hstart h place
  unfold readMarkup at h ⊢
  split at h
  · exact movable_readComment start _ found hstart h place
  split at h
  · exact movable_readCData start _ found hstart h place
  split at h
  · exact movable_readDoctype start _ found hstart h place
  split at h
  · exact movable_readInstruction start _ found hstart h place
  split at h
  · exact movable_readEndTag start _ found hstart h place
  split at h
  · exact movable_readStartTag start _ found hstart h place
  · cases h

/-- **A token behind the start is read in the same way at any place.** -/
theorem movable_read : Movable read := by
  intro start cs found hstart h place
  unfold read at h ⊢
  by_cases hhead : cs.head? = some '<'
  · rw [if_pos hhead] at h ⊢
    exact movable_readMarkup start cs found hstart h place
  · rw [if_neg hhead] at h ⊢
    exact h

end Lexeme

/-! ## Where faults are reported -/

/-- The fault is reported at the start of a token. -/
def Fault.isPlain : Fault → Bool
  | .invalidNameCharacter | .unclosedTag _ => false
  | _ => true

/-- The error is reported at the start of a token. -/
def ParseError.PlainAt (e : ParseError) (start : Nat) : Prop :=
  e.position = start ∧ e.fault.isPlain = true

/-- The error is reported behind the name of an element, which starts behind the `<` of its tag. -/
def ParseError.BehindName (e : ParseError) (start : Nat) (cs : List Char) : Prop :=
  e.fault = .invalidNameCharacter ∧ ∃ name after, cs = '<' :: (name ++ after) ∧
    readName? (name ++ after) = some (name, after) ∧ e.position = start + 1 + Utf8.size name

namespace Lexeme

variable {start : Nat} {cs : List Char} {e : ParseError}

theorem plainAt_of_readComment (h : readComment start cs = .error e) : e.PlainAt start := by
  unfold readComment at h
  split at h
  · obtain rfl := Except.error.inj h
    exact ⟨rfl, rfl⟩
  · split at h
    · cases h
    · obtain rfl := Except.error.inj h
      exact ⟨rfl, rfl⟩

theorem plainAt_of_readCData (h : readCData start cs = .error e) : e.PlainAt start := by
  unfold readCData at h
  split at h
  · obtain rfl := Except.error.inj h
    exact ⟨rfl, rfl⟩
  · cases h

theorem plainAt_of_readDoctype (h : readDoctype start cs = .error e) : e.PlainAt start := by
  unfold readDoctype at h
  split at h
  · obtain rfl := Except.error.inj h
    exact ⟨rfl, rfl⟩
  · cases h

theorem plainAt_of_readInstruction (h : readInstruction start cs = .error e) :
    e.PlainAt start := by
  unfold readInstruction at h
  split at h
  · obtain rfl := Except.error.inj h
    exact ⟨rfl, rfl⟩
  split at h
  · obtain rfl := Except.error.inj h
    exact ⟨rfl, rfl⟩
  split at h
  · obtain rfl := Except.error.inj h
    exact ⟨rfl, rfl⟩
  split at h
  · cases h
  split at h
  · cases h
  · obtain rfl := Except.error.inj h
    exact ⟨rfl, rfl⟩

theorem plainAt_of_readEndTag (h : readEndTag start cs = .error e) : e.PlainAt start := by
  unfold readEndTag at h
  split at h
  · obtain rfl := Except.error.inj h
    exact ⟨rfl, rfl⟩
  split at h
  · cases h
  · obtain rfl := Except.error.inj h
    exact ⟨rfl, rfl⟩

/-- The exception: the name of an element has been read, and the tag is at fault behind it. -/
theorem place_of_readStartTag (h : readStartTag start cs = .error e) :
    e.PlainAt start ∨ e.BehindName start ('<' :: cs) := by
  unfold readStartTag at h
  split at h
  · obtain rfl := Except.error.inj h
    exact .inl ⟨rfl, rfl⟩
  · next name afterName hname =>
    have hcs := eq_of_readName? hname
    split at h
    · obtain rfl := Except.error.inj h
      exact .inl ⟨rfl, rfl⟩
    · simp only at h
      split at h
      · obtain rfl := Except.error.inj h
        exact .inr ⟨rfl, name, afterName, by rw [hcs], by rw [← hcs, hname], rfl⟩
      · cases h

/-- **A token that cannot be read is reported** at its start, or behind the name of an element. -/
theorem place_of_read (h : read start cs = .error e) :
    e.PlainAt start ∨ e.BehindName start cs := by
  unfold read at h
  split at h
  · unfold readMarkup at h
    split at h
    · exact .inl (plainAt_of_readComment h)
    split at h
    · exact .inl (plainAt_of_readCData h)
    split at h
    · exact .inl (plainAt_of_readDoctype h)
    split at h
    · exact .inl (plainAt_of_readInstruction h)
    split at h
    · exact .inl (plainAt_of_readEndTag h)
    split at h
    · next after hopening =>
      have hcs : cs = ['<'] ++ after := stripFront?_eq_some_iff.1 hopening
      rw [hcs]
      exact place_of_readStartTag h
    · obtain rfl := Except.error.inj h
      exact .inl ⟨rfl, rfl⟩
  · cases h

end Lexeme

/-- A token that cannot be understood has a fault that is reported at its start. -/
theorem isPlain_of_ofToken {token : Token} {fault : Fault}
    (h : Event.ofToken token = .error fault) : fault.isPlain = true := by
  have htag {make : List Attribute → Event} {attributes : List Char}
      (h : Event.ofTag make attributes = .error fault) : fault.isPlain = true := by
    rw [Event.ofTag] at h
    split at h
    · cases h
    · obtain rfl := Except.error.inj h
      rfl
  cases token with
  | startTag name attributes => exact htag h
  | emptyTag name attributes => exact htag h
  | declaration target data => exact htag h
  | text body =>
    rw [Event.ofToken, Event.ofText] at h
    split at h
    · obtain rfl := Except.error.inj h
      rfl
    · split at h
      · cases h
      · obtain rfl := Except.error.inj h
        rfl
  | comment body => cases h
  | instruction target data => cases h
  | endTag name => cases h
  | cdata body => cases h
  | doctype body => cases h

end Groundwork.Xml
