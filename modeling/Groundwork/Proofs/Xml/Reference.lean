import Groundwork.Xml.Reference
import Groundwork.Xml.Token

/-!
# `Proofs.Xml.Reference` — escaping is undone by decoding

Both escapes work character by character, and what either writes for a character brings a decoder
that stands in plain text to exactly this character (`Escapes`). So a whole escaped text decodes to
the text. The escapes are also safe where they stand: no `<` or `>` is left in a text, and in an
attribute value no double quote, no tab and no line end either. And a decoder goes through a text
once, from front to back, so that what stands behind a text that has been decoded is decoded as if
it stood alone.

## Contents

* `Escapes`, `decode_flatMap` — what an escape has to do, and that it is then undone.
* `decode_escapeText`, `decode_escapeAttribute` — the two escapes.
* `not_mem_escapeText`, `not_mem_escapeAttribute` — the characters that are never left.
* `escapeText_eq_self_iff`, `escapeAttribute_eq_self_iff` — the texts that are written as they are.
* `decode_append` — **a text is decoded piece by piece.**
* `decode_escapes` — **the escapes and their decoder together.**
-/

namespace Groundwork.Xml.Reference

/-! ## Escapes are undone -/

/-- What `escape` writes for a character is read as this character. -/
def Escapes (escape : Char → List Char) : Prop :=
  ∀ (c : Char) (passed cs : List Char),
    decodeFrom .plain passed (escape c ++ cs) = decodeFrom .plain (c :: passed) cs

theorem decodeFrom_flatMap {escape : Char → List Char} (h : Escapes escape)
    (passed cs : List Char) :
    decodeFrom .plain passed (cs.flatMap escape) = .ok (passed.reverse ++ cs) := by
  induction cs generalizing passed with
  | nil => simp [decodeFrom]
  | cons c cs ih =>
    rw [List.flatMap_cons, h, ih]
    simp

/-- **What has been escaped decodes to itself.** -/
theorem decode_flatMap {escape : Char → List Char} (h : Escapes escape) (cs : List Char) :
    decode (cs.flatMap escape) = .ok cs :=
  decodeFrom_flatMap h [] cs

/-- A character other than `&` stands for itself. -/
theorem decodeFrom_plain {c : Char} (h : c ≠ '&') (passed cs : List Char) :
    decodeFrom .plain passed (c :: cs) = decodeFrom .plain (c :: passed) cs := by
  rw [decodeFrom]
  exact if_neg h

/-- A reference stands for the character that its body resolves to. -/
theorem decodeFrom_reference (body : List Char) {c : Char} (hbody : ';' ∉ body)
    (hc : resolve body = .ok c) (passed cs : List Char) :
    decodeFrom .plain passed ('&' :: (body ++ ';' :: cs)) = decodeFrom .plain (c :: passed) cs := by
  have hinside : ∀ seen rest : List Char, ';' ∉ rest → resolve (seen.reverse ++ rest) = .ok c →
      decodeFrom (.inside seen) passed (rest ++ ';' :: cs) =
        decodeFrom .plain (c :: passed) cs := by
    intro seen rest
    induction rest generalizing seen with
    | nil =>
      intro _ hseen
      rw [List.append_nil] at hseen
      simp [decodeFrom, hseen]
    | cons d rest ih =>
      intro hrest hseen
      rw [List.mem_cons, not_or] at hrest
      rw [List.cons_append, decodeFrom, if_neg (Ne.symm hrest.1)]
      exact ih (d :: seen) hrest.2 (by simpa using hseen)
  rw [decodeFrom, if_pos rfl]
  exact hinside [] body hbody (by simpa using hc)

theorem escapes_escapeTextChar : Escapes escapeTextChar := by
  intro c passed cs
  unfold escapeTextChar
  split
  · exact decodeFrom_reference ['a', 'm', 'p'] (by decide) rfl passed cs
  · exact decodeFrom_reference ['l', 't'] (by decide) rfl passed cs
  · exact decodeFrom_reference ['g', 't'] (by decide) rfl passed cs
  · next hamp _ _ => exact decodeFrom_plain hamp passed cs

theorem escapes_escapeAttributeChar : Escapes escapeAttributeChar := by
  intro c passed cs
  unfold escapeAttributeChar
  split
  · exact decodeFrom_reference ['q', 'u', 'o', 't'] (by decide) rfl passed cs
  · exact decodeFrom_reference ['#', '9'] (by decide) rfl passed cs
  · exact decodeFrom_reference ['#', '1', '0'] (by decide) rfl passed cs
  · exact decodeFrom_reference ['#', '1', '3'] (by decide) rfl passed cs
  · exact escapes_escapeTextChar c passed cs

theorem decode_escapeText (cs : List Char) : decode (escapeText cs) = .ok cs :=
  decode_flatMap escapes_escapeTextChar cs

theorem decode_escapeAttribute (cs : List Char) : decode (escapeAttribute cs) = .ok cs :=
  decode_flatMap escapes_escapeAttributeChar cs

/-! ## Escapes are safe -/

/-- The characters that an escaped text never holds. -/
def textMarks : List Char := ['<', '>']

/-- The characters that an escaped attribute value never holds. -/
def attributeMarks : List Char := textMarks ++ ['"', '\t', '\n', '\r']

/-- What either escape writes for a character is the character itself, or a reference without any
of the marks. -/
theorem escapeTextChar_cases (c : Char) :
    c ∉ '&' :: textMarks ∧ escapeTextChar c = [c] ∨
      c ∈ '&' :: textMarks ∧ 1 < (escapeTextChar c).length ∧
        ∀ d ∈ attributeMarks, d ∉ escapeTextChar c := by
  unfold escapeTextChar
  split
  · exact .inr (by simp [attributeMarks, textMarks])
  · exact .inr (by simp [attributeMarks, textMarks])
  · exact .inr (by simp [attributeMarks, textMarks])
  · next hamp hless hgreater =>
    have hplain : c ∉ '&' :: textMarks := by simpa [textMarks] using ⟨hamp, hless, hgreater⟩
    exact .inl ⟨hplain, rfl⟩

theorem escapeAttributeChar_cases (c : Char) :
    c ∉ '&' :: attributeMarks ∧ escapeAttributeChar c = [c] ∨
      c ∈ '&' :: attributeMarks ∧ 1 < (escapeAttributeChar c).length ∧
        ∀ d ∈ attributeMarks, d ∉ escapeAttributeChar c := by
  unfold escapeAttributeChar
  split
  · exact .inr (by simp [attributeMarks, textMarks])
  · exact .inr (by simp [attributeMarks, textMarks])
  · exact .inr (by simp [attributeMarks, textMarks])
  · exact .inr (by simp [attributeMarks, textMarks])
  · next hquote htab hfeed hreturn =>
    rcases escapeTextChar_cases c with ⟨hplain, hself⟩ | ⟨hmark, hreference⟩
    · refine .inl ⟨?_, hself⟩
      have hrest : c ∉ ['"', '\t', '\n', '\r'] := by simpa using ⟨hquote, htab, hfeed, hreturn⟩
      rw [attributeMarks, ← List.cons_append, List.mem_append, not_or]
      exact ⟨hplain, hrest⟩
    · refine .inr ⟨?_, hreference⟩
      exact List.mem_append_left _ hmark

/-- No character that starts or ends markup is left in an escaped text. -/
theorem not_mem_escapeText {d : Char} (h : d ∈ textMarks) (cs : List Char) :
    d ∉ escapeText cs := by
  rw [escapeText, List.mem_flatMap]
  rintro ⟨c, -, hd⟩
  rcases escapeTextChar_cases c with ⟨hplain, hself⟩ | ⟨-, -, hnone⟩
  · rw [hself, List.mem_singleton] at hd
    exact hplain (List.mem_cons_of_mem _ (hd ▸ h))
  · exact hnone d (List.mem_append_left _ h) hd

/-- Nothing is left in an escaped attribute value that could end it or be taken for a space. -/
theorem not_mem_escapeAttribute {d : Char} (h : d ∈ attributeMarks) (cs : List Char) :
    d ∉ escapeAttribute cs := by
  rw [escapeAttribute, List.mem_flatMap]
  rintro ⟨c, -, hd⟩
  rcases escapeAttributeChar_cases c with ⟨hplain, hself⟩ | ⟨-, -, hnone⟩
  · rw [hself, List.mem_singleton] at hd
    exact hplain (List.mem_cons_of_mem _ (hd ▸ h))
  · exact hnone d h hd

/-- No end of a CDATA section shows in an escaped text. -/
theorem not_infix_escapeText (cs : List Char) : ¬ cdataEnd <:+: escapeText cs := by
  intro hin
  have hmark : '>' ∈ cdataEnd := by decide
  exact not_mem_escapeText (by decide) cs (hin.subset hmark)

/-! ## Escapes work piece by piece -/

theorem escapeText_append (cs ds : List Char) :
    escapeText (cs ++ ds) = escapeText cs ++ escapeText ds :=
  List.flatMap_append

theorem escapeAttribute_append (cs ds : List Char) :
    escapeAttribute (cs ++ ds) = escapeAttribute cs ++ escapeAttribute ds :=
  List.flatMap_append

/-- An escape that writes something for every character leaves a text as it is only if it does so
with each character of it. -/
theorem flatMap_eq_self_iff {escape : Char → List Char} (hne : ∀ c, escape c ≠ [])
    {cs : List Char} : cs.flatMap escape = cs ↔ ∀ c ∈ cs, escape c = [c] := by
  have hlength (ds : List Char) : ds.length ≤ (ds.flatMap escape).length := by
    induction ds with
    | nil => exact Nat.le_refl 0
    | cons d ds ih =>
      have hpos := List.length_pos_iff.2 (hne d)
      rw [List.flatMap_cons, List.length_append, List.length_cons]
      omega
  induction cs with
  | nil => simp
  | cons c cs ih =>
    rw [List.flatMap_cons, List.forall_mem_cons]
    constructor
    · intro hself
      obtain ⟨d, more, hescape⟩ := List.exists_cons_of_ne_nil (hne c)
      rw [hescape, List.cons_append, List.cons.injEq] at hself
      obtain ⟨rfl, htail⟩ := hself
      -- more than one character would leave no room for the rest
      have hnil : more = [] := by
        have htotal := congrArg List.length htail
        have hrest := hlength cs
        rw [List.length_append] at htotal
        exact List.length_eq_zero_iff.1 (by omega)
      rw [hnil, List.nil_append] at htail
      exact ⟨hnil ▸ hescape, ih.1 htail⟩
    · rintro ⟨hescape, htail⟩
      rw [hescape, ih.2 htail, List.singleton_append]

theorem escapeTextChar_ne_nil (c : Char) : escapeTextChar c ≠ [] := by
  rcases escapeTextChar_cases c with ⟨-, hself⟩ | ⟨-, hlength, -⟩
  · rw [hself]
    exact List.cons_ne_nil c []
  · exact List.length_pos_iff.1 (Nat.lt_of_succ_lt hlength)

theorem escapeAttributeChar_ne_nil (c : Char) : escapeAttributeChar c ≠ [] := by
  rcases escapeAttributeChar_cases c with ⟨-, hself⟩ | ⟨-, hlength, -⟩
  · rw [hself]
    exact List.cons_ne_nil c []
  · exact List.length_pos_iff.1 (Nat.lt_of_succ_lt hlength)

/-- A text without characters that could be markup is written as it is, and no other. -/
theorem escapeText_eq_self_iff {cs : List Char} :
    escapeText cs = cs ↔ ∀ c ∈ cs, c ∉ '&' :: textMarks := by
  rw [escapeText, flatMap_eq_self_iff escapeTextChar_ne_nil]
  refine forall₂_congr fun c _ => ?_
  rcases escapeTextChar_cases c with ⟨hplain, hself⟩ | ⟨hmark, hlength, -⟩
  · exact iff_of_true hself hplain
  · refine iff_of_false (fun hself => ?_) (fun hplain => hplain hmark)
    rw [hself] at hlength
    exact Nat.lt_irrefl 1 hlength

theorem escapeAttribute_eq_self_iff {cs : List Char} :
    escapeAttribute cs = cs ↔ ∀ c ∈ cs, c ∉ '&' :: attributeMarks := by
  rw [escapeAttribute, flatMap_eq_self_iff escapeAttributeChar_ne_nil]
  refine forall₂_congr fun c _ => ?_
  rcases escapeAttributeChar_cases c with ⟨hplain, hself⟩ | ⟨hmark, hlength, -⟩
  · exact iff_of_true hself hplain
  · refine iff_of_false (fun hself => ?_) (fun hplain => hplain hmark)
    rw [hself] at hlength
    exact Nat.lt_irrefl 1 hlength

theorem escapeText_eq_nil_iff {cs : List Char} : escapeText cs = [] ↔ cs = [] := by
  rw [escapeText, List.flatMap_eq_nil_iff]
  constructor
  · intro h
    rcases cs with _ | ⟨c, cs⟩
    · rfl
    · exact absurd (h c (by simp)) (escapeTextChar_ne_nil c)
  · rintro rfl
    simp

/-! ## Decoding works piece by piece -/

/-- A decoder comes through a text only to stand in plain text at its end, with what it has decoded
behind it, and goes on from there. -/
theorem decodeFrom_append {mode : Mode} {passed cs out : List Char}
    (h : decodeFrom mode passed cs = .ok out) (ds : List Char) :
    decodeFrom mode passed (cs ++ ds) = decodeFrom .plain out.reverse ds := by
  fun_induction decodeFrom mode passed cs with
  | case1 passed =>
    obtain rfl := Except.ok.inj h
    rw [List.nil_append, List.reverse_reverse]
  | case2 => cases h
  | case3 passed cs ih =>
    rw [List.cons_append, decodeFrom, if_pos rfl]
    exact ih h
  | case4 passed c cs hamp ih =>
    rw [List.cons_append, decodeFrom_plain hamp]
    exact ih h
  | case5 passed cs body d hd ih =>
    rw [List.cons_append, decodeFrom, if_pos rfl, hd]
    exact ih h
  | case6 => cases h
  | case7 passed c cs body hend ih =>
    rw [List.cons_append, decodeFrom, if_neg hend]
    exact ih h

/-- What has been decoded before changes nothing in what is decoded, nor in whether it can be. -/
theorem decodeFrom_behind (mode : Mode) (passed before cs : List Char) :
    decodeFrom mode (passed ++ before) cs =
      (decodeFrom mode passed cs).map (before.reverse ++ ·) := by
  fun_induction decodeFrom mode passed cs with
  | case1 passed => simp [decodeFrom, Except.map]
  | case2 => rfl
  | case3 passed cs ih => rw [decodeFrom, if_pos rfl, ih]
  | case4 passed c cs hamp ih => rw [decodeFrom_plain hamp, ← ih, List.cons_append]
  | case5 passed cs body d hd ih => rw [decodeFrom, if_pos rfl, hd, ← ih, List.cons_append]
  | case6 passed cs body e he =>
    rw [decodeFrom, if_pos rfl, he]
    rfl
  | case7 passed c cs body hend ih => rw [decodeFrom, if_neg hend, ih]

/-- **A text is decoded piece by piece**: behind a text that has been decoded, more of it gives the
same characters, or the same error, as it does alone. -/
theorem decode_append {cs out : List Char} (h : decode cs = .ok out) (ds : List Char) :
    decode (cs ++ ds) = (decode ds).map (out ++ ·) := by
  have hbehind := decodeFrom_behind .plain [] out.reverse ds
  rw [List.nil_append, List.reverse_reverse] at hbehind
  rw [decode, decodeFrom_append h, hbehind, decode]

/-- A text without an ampersand stands for itself. -/
theorem decode_of_not_mem {cs : List Char} (h : '&' ∉ cs) : decode cs = .ok cs := by
  have hfrom (passed : List Char) : decodeFrom .plain passed cs = .ok (passed.reverse ++ cs) := by
    induction cs generalizing passed with
    | nil => simp [decodeFrom]
    | cons c cs ih =>
      rw [List.mem_cons, not_or] at h
      rw [decodeFrom_plain (Ne.symm h.1), ih h.2]
      simp
  exact hfrom []

/-! ## The escapes and their decoder -/

/-- **Escaping is undone by decoding and safe where it stands.** What either escape writes is
decoded to the text it was made from. An escaped text holds neither `<` nor `>`, so no end of a
CDATA section either; an escaped attribute value holds besides no double quote, tab or line end.
Exactly the texts without these characters and without ampersands are written as they are, and a
text without ampersands is decoded to itself. Both escapes go through a text piece by piece; so does
the decoder, behind a text that has been decoded. -/
theorem decode_escapes :
    (∀ cs, decode (escapeText cs) = .ok cs ∧ decode (escapeAttribute cs) = .ok cs) ∧
    (∀ cs, '<' ∉ escapeText cs ∧ '>' ∉ escapeText cs ∧ ¬ cdataEnd <:+: escapeText cs) ∧
    (∀ cs, ∀ c ∈ ['<', '>', '"', '\t', '\n', '\r'], c ∉ escapeAttribute cs) ∧
    (∀ cs, (escapeText cs = cs ↔ ∀ c ∈ cs, c ∉ ['&', '<', '>']) ∧
      (escapeAttribute cs = cs ↔ ∀ c ∈ cs, c ∉ ['&', '<', '>', '"', '\t', '\n', '\r']) ∧
      ('&' ∉ cs → decode cs = .ok cs)) ∧
    (∀ cs ds, escapeText (cs ++ ds) = escapeText cs ++ escapeText ds ∧
      escapeAttribute (cs ++ ds) = escapeAttribute cs ++ escapeAttribute ds) ∧
    ∀ cs out, decode cs = .ok out → ∀ ds, decode (cs ++ ds) = (decode ds).map (out ++ ·) := by
  refine ⟨fun cs => ?undone, fun cs => ?text, fun cs c hc => ?value, fun cs => ?unchanged,
    fun cs ds => ?pieces, fun cs out hdecode ds => decode_append hdecode ds⟩
  case undone => exact ⟨decode_escapeText cs, decode_escapeAttribute cs⟩
  case text =>
    exact ⟨not_mem_escapeText (by decide) cs, not_mem_escapeText (by decide) cs,
      not_infix_escapeText cs⟩
  case value => exact not_mem_escapeAttribute hc cs
  case unchanged =>
    exact ⟨escapeText_eq_self_iff, escapeAttribute_eq_self_iff, decode_of_not_mem⟩
  case pieces => exact ⟨escapeText_append cs ds, escapeAttribute_append cs ds⟩

/-- Behind a reference, one that stands for a character and one that is not closed: the error is
that of the second text alone. -/
theorem decode_escapes_unclosed :
    decode "x&lt;".toList = .ok "x<".toList ∧
      decode ("x&lt;".toList ++ "&#65;".toList) = .ok "x<A".toList ∧
      decode ("x&lt;".toList ++ "&gt".toList) = .error .unterminated := by
  have hdecode : decode "x&lt;".toList = .ok "x<".toList := rfl
  have hpieces := decode_escapes.2.2.2.2.2 _ _ hdecode
  refine ⟨hdecode, ?_, ?_⟩
  · rw [hpieces]
    rfl
  · rw [hpieces]
    rfl

end Groundwork.Xml.Reference
