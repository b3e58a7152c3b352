import Groundwork.Proofs.Text.QuoteAutomaton
import Groundwork.Proofs.Xml.ByteCursor

/-!
# `Proofs.Xml.TagEnd` — the end of a tag, whoever looks for the bytes

The leaps to the end of a tag are made by searches for single bytes. Nothing is asked of these but
that they find the first byte they look for. The leaps end with any searches whatever, for each of
them goes behind a byte that is there; with searches that find the first byte, they ask for no byte
that is not there, and lead to the first `>` at which the quote automaton stands outside quotes.

## Contents

* `ByteSearch`, `ByteSearch.FindsFirst` — the searches for single bytes, and what is asked of them.
* `ByteSearch.tagEndFrom?` — the leaps; `ByteSearch.tagEndFrom?_eq`, that all searches which find
  the first byte make the same.
* `ByteSearch.isLeast_tagEndFrom?` — **the leaps lead where the automaton does.**
-/

namespace Groundwork.Xml

open Text

/-! ## Searches for single bytes -/

/-- A place is the first at which a byte of a kind stands. -/
def IsFirstOf (p : UInt8 → Bool) (bytes : List UInt8) (place : Nat) : Prop :=
  IsLeast {i | ∃ b ∈ bytes[i]?, p b = true} place

theorem findIdx?_eq_some_iff_isFirstOf {p : UInt8 → Bool} {bytes : List UInt8} {place : Nat} :
    bytes.findIdx? p = some place ↔ IsFirstOf p bytes place := by
  rw [List.findIdx?_eq_some_iff_getElem]
  constructor
  · rintro ⟨hlt, hplace, hbefore⟩
    refine ⟨⟨_, List.getElem?_eq_getElem hlt, hplace⟩, ?_⟩
    rintro i ⟨b, hb, hp⟩
    obtain ⟨hi, rfl⟩ := List.getElem?_eq_some_iff.1 hb
    exact Nat.le_of_not_lt fun hsmaller => hbefore i hsmaller hp
  · rintro ⟨⟨b, hb, hp⟩, hleast⟩
    obtain ⟨hlt, rfl⟩ := List.getElem?_eq_some_iff.1 hb
    refine ⟨hlt, hp, fun i hi hearlier => ?_⟩
    have hle := hleast ⟨_, List.getElem?_eq_getElem (Nat.lt_trans hi hlt), hearlier⟩
    omega

/-- Two ways to search some bytes: for one byte, and for any of three. -/
structure ByteSearch where
  one : UInt8 → List UInt8 → Option Nat
  three : UInt8 → UInt8 → UInt8 → List UInt8 → Option Nat

namespace ByteSearch

/-- Both give the place of the first byte that is looked for, and nothing if there is none. -/
structure FindsFirst (search : ByteSearch) : Prop where
  one : ∀ b bytes place, search.one b bytes = some place ↔ IsFirstOf (· = b) bytes place
  three : ∀ b₁ b₂ b₃ bytes place,
    search.three b₁ b₂ b₃ bytes = some place ↔ IsFirstOf (· ∈ [b₁, b₂, b₃]) bytes place

/-- The searches that look at one byte after the other. -/
def plain : ByteSearch where
  one b bytes := bytes.findIdx? (· = b)
  three b₁ b₂ b₃ bytes := bytes.findIdx? (· ∈ [b₁, b₂, b₃])

theorem plain_findsFirst : plain.FindsFirst where
  one _ _ _ := findIdx?_eq_some_iff_isFirstOf
  three _ _ _ _ _ := findIdx?_eq_some_iff_isFirstOf

namespace FindsFirst

variable {search : ByteSearch}

theorem three_eq (h : search.FindsFirst) (bytes : List UInt8) :
    search.three 0x3E 0x22 0x27 bytes = bytes.findIdx? ByteCursor.isTagMark := by
  refine Option.ext fun place => ?_
  rw [h.three, findIdx?_eq_some_iff_isFirstOf]
  rfl

theorem one_eq (h : search.FindsFirst) (b : UInt8) (bytes : List UInt8) :
    search.one b bytes = (splitOnce? [b] bytes).map (·.1.length) := by
  have hfirst : search.one b bytes = bytes.findIdx? (· = b) := by
    refine Option.ext fun place => ?_
    rw [h.one, findIdx?_eq_some_iff_isFirstOf]
  rw [hfirst]
  by_cases hmem : b ∈ bytes
  · obtain ⟨before, after, rfl, hbefore⟩ := List.eq_append_cons_of_mem hmem
    have hplain : ∀ d ∈ before, decide (d = b) = false := by
      rintro d hd
      exact decide_eq_false fun heq => hbefore (heq ▸ hd)
    rw [ByteCursor.findIdx?_append hplain (decide_eq_true rfl), splitOnce?_singleton hbefore]
    rfl
  · have hplain : ∀ d ∈ bytes, decide (d = b) = false := by
      rintro d hd
      exact decide_eq_false fun heq => hmem (heq ▸ hd)
    rw [splitOnce?_singleton_eq_none hmem, List.findIdx?_eq_none_iff.2 hplain]
    rfl

/-- The search for a closing quote. -/
theorem findFrom?_eq (h : search.FindsFirst) (bytes : List UInt8) (place : Nat) (b : UInt8) :
    findFrom? bytes place [b] =
      (bytesFrom? bytes place).map fun rest => (search.one b rest).map (place + ·) := by
  rw [findFrom?]
  cases bytesFrom? bytes place with
  | none => rfl
  | some rest =>
    rw [Option.map_some, h.one_eq, Option.map_map]
    rfl

end FindsFirst

/-! ## The leaps -/

/-- A leap goes behind a byte that is there. -/
theorem leap_lt {bytes : List UInt8} {position i : Nat} {b : UInt8}
    (hbyte : bytes[position + i]? = some b) (close : Nat) :
    bytes.length - (position + i + 1 + close + 1) < bytes.length - position := by
  have hlt := (List.getElem?_eq_some_iff.1 hbyte).1
  omega

/-- The offset of the first `>` outside quotes, from a place on, by leaps: to the next byte that is
a `>` or a quote, and from a quote to the next one of its kind. What is asked for by its place is
there or not, and `none` says that it is not. -/
def tagEndFrom? (search : ByteSearch) (bytes : List UInt8) (position : Nat) :
    Option (Option Nat) :=
  match bytesFrom? bytes (min position bytes.length) with
  | none => none
  | some rest =>
    match search.three 0x3E 0x22 0x27 rest with
    | none => some none
    | some i =>
      match hbyte : bytes[position + i]? with
      | none => none
      | some b =>
        if b = 0x3E then some (some (position + i))
        else
          match bytesFrom? bytes (position + i + 1) with
          | none => none
          | some quoted =>
            match search.one b quoted with
            | none => some none
            | some close =>
              have := leap_lt hbyte close
              tagEndFrom? search bytes (position + i + 1 + close + 1)
termination_by bytes.length - position

variable {search : ByteSearch}

/-- One leap, without the reason why there is an end to them. -/
theorem tagEndFrom?_step (bytes : List UInt8) (position : Nat) :
    ByteCursor.tagEndFrom? bytes position =
      match bytesFrom? bytes (min position bytes.length) with
      | none => none
      | some rest =>
        match rest.findIdx? ByteCursor.isTagMark with
        | none => some none
        | some i =>
          match bytes[position + i]? with
          | none => none
          | some b =>
            if b = 0x3E then some (some (position + i))
            else
              match findFrom? bytes (position + i + 1) [b] with
              | none => none
              | some none => some none
              | some (some close) => ByteCursor.tagEndFrom? bytes (close + 1) := by
  conv => lhs; rw [ByteCursor.tagEndFrom?]
  rw [ByteCursor.remaining?]
  cases bytesFrom? bytes (min position bytes.length) with
  | none => rfl
  | some rest =>
    simp only
    show (match rest.findIdx? ByteCursor.isTagMark with | none => _ | some i => _) = _
    cases rest.findIdx? ByteCursor.isTagMark with
    | none => rfl
    | some i =>
      simp only
      split
      · next hbyte => simp only [hbyte]
      · next b hbyte =>
        simp only [hbyte, ByteCursor.tagEndByte]
        congr 1
        split
        · next hclose => simp only [hclose]
        · next hclose => simp only [hclose]
        · next hclose => simp only [hclose]

/-- **Who looks for the bytes makes no difference.** -/
theorem tagEndFrom?_eq (h : search.FindsFirst) (bytes : List UInt8) (position : Nat) :
    search.tagEndFrom? bytes position = ByteCursor.tagEndFrom? bytes position := by
  fun_induction tagEndFrom? search bytes position with
  | case1 position hrest =>
    rw [tagEndFrom?_step]
    simp only [hrest]
  | case2 position rest hrest hnone =>
    rw [tagEndFrom?_step]
    simp only [hrest, ← h.three_eq, hnone]
  | case3 position rest hrest i hfound hbyte =>
    rw [tagEndFrom?_step]
    simp only [hrest, ← h.three_eq, hfound, hbyte]
  | case4 position rest hrest i hfound hbyte =>
    rw [tagEndFrom?_step]
    simp only [hrest, ← h.three_eq, hfound, hbyte, if_true]
  | case5 position rest hrest i hfound b hbyte hquote hquoted =>
    rw [tagEndFrom?_step]
    simp only [hrest, ← h.three_eq, hfound, hbyte, if_neg hquote, h.findFrom?_eq, hquoted,
      Option.map_none]
  | case6 position rest hrest i hfound b hbyte hquote quoted hquoted hclose =>
    rw [tagEndFrom?_step]
    simp only [hrest, ← h.three_eq, hfound, hbyte, if_neg hquote, h.findFrom?_eq, hquoted,
      Option.map_some, hclose, Option.map_none]
  | case7 position rest hrest i hfound b hbyte hquote quoted hquoted close hclose _ ih =>
    rw [ih, tagEndFrom?_step bytes position]
    simp only [hrest, ← h.three_eq, hfound, hbyte, if_neg hquote, h.findFrom?_eq, hquoted,
      Option.map_some, hclose]

/-- **The leaps lead where the automaton does**: from any place on, even past the end, they ask for
no byte that is not there and end at the first `>` at which the automaton, started at that place,
stands outside quotes. They find nothing if there is no such place. -/
theorem isLeast_tagEndFrom? (h : search.FindsFirst) (cursor : ByteCursor) :
    search.tagEndFrom? cursor.bytes cursor.position = some cursor.findTagEnd? ∧
      (∀ place, cursor.findTagEnd? = some place ↔
        IsLeast {p | UnquotedAt ByteCursor.quoteBytes ByteCursor.tagEndByte cursor.bytes
          cursor.position p} place) ∧
      (cursor.findTagEnd? = none ↔
        ∀ p, ¬ UnquotedAt ByteCursor.quoteBytes ByteCursor.tagEndByte cursor.bytes
          cursor.position p) := by
  have hmark : ByteCursor.tagEndByte ∉ ByteCursor.quoteBytes := by decide
  refine ⟨?_, splitUnquoted?_isLeast_iff hmark cursor.bytes cursor.position, ?_⟩
  · rw [tagEndFrom?_eq h, ByteCursor.findTagEnd?_eq]
  · rw [← splitUnquoted?_eq_none_iff hmark, ByteCursor.findTagEnd?, Option.map_eq_none_iff]
    rfl

/-- A quote in quotes of the other kind, and a quoted `>` behind it: `'"'=">">` ends at its last
byte. Past the end nothing is found. -/
theorem isLeast_tagEndFrom?_nested :
    let bytes : List UInt8 := [0x27, 0x22, 0x27, 0x3D, 0x22, 0x3E, 0x22, 0x3E]
    plain.FindsFirst ∧
      plain.tagEndFrom? bytes 0 = some (some 7) ∧
      IsLeast {p | UnquotedAt ByteCursor.quoteBytes ByteCursor.tagEndByte bytes 0 p} 7 ∧
      plain.tagEndFrom? bytes 9 = some none ∧
      ∀ p, ¬ UnquotedAt ByteCursor.quoteBytes ByteCursor.tagEndByte bytes 9 p := by
  intro bytes
  have hfound : (ByteCursor.mk bytes 0).findTagEnd? = some 7 := by cbv
  have hnone : (ByteCursor.mk bytes 9).findTagEnd? = none := by cbv
  obtain ⟨hstart, hleast, -⟩ := isLeast_tagEndFrom? plain_findsFirst ⟨bytes, 0⟩
  obtain ⟨hpast, -, hnowhere⟩ := isLeast_tagEndFrom? plain_findsFirst ⟨bytes, 9⟩
  exact ⟨plain_findsFirst, hstart.trans (congrArg some hfound), (hleast 7).1 hfound,
    hpast.trans (congrArg some hnone), hnowhere.1 hnone⟩

end ByteSearch

end Groundwork.Xml
