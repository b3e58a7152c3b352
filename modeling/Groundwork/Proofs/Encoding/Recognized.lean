import Groundwork.Proofs.Encoding.RoundTrip

/-!
# `Proofs.Encoding.Recognized` — files that show their layout

A file shows its layout by a mark, or by the two bytes of a `<` in UTF-16 at its start. What the
reader expects has no say in how such a file is read, and it has a say in every other file: the
three encodings that a reader can expect come down to three different layouts. So the layouts that
files show are just those on which all readers agree, and a text behind a mark, or one in UTF-16
that starts with `<`, is read back by each of them.

## Contents

* `Layout.Shows`, `shows_iff` — **a file shows just that layout which every reader takes it for.**
* `Layout.Shows.decode_eq` — how a file that shows its layout is read.
* `Layout.shows_bytes`, `body_bytes` — texts in UTF-16 that start with `<`.
* `Encoding.decode_recognized` — **texts in files that show their layout are read back by all.**
-/

namespace Groundwork

open Text

namespace Layout

/-! ## What shows a layout -/

/-- The bytes show that they are in this layout. -/
inductive Shows : Layout → List UInt8 → Prop where
  /-- They stand behind its mark. -/
  | marked {layout : Layout} (hmark : layout.mark ≠ []) (rest : List UInt8) :
    Shows layout (layout.mark ++ rest)
  /-- They start with `<`, a character of two bytes. -/
  | bracket (order : Utf16.ByteOrder) (rest : List UInt8) :
    Shows (.utf16 order) (Utf16.unitBytes order 0x3C ++ rest)

variable {layout : Layout} {input : List UInt8}

/-- Every reader takes the bytes for what they show. -/
theorem Shows.detect_eq (h : layout.Shows input) (configured : Encoding) :
    detect configured input = layout := by
  cases h with
  | marked hmark rest =>
    cases layout with
    | utf8 => rfl
    | utf16 order => cases order <;> rfl
    | ascii => exact absurd rfl hmark
  | bracket order rest => cases order <;> rfl

/-- Bytes that show no layout are in the one that the reader expects. -/
theorem detect_of_not_shows (h : ∀ layout : Layout, ¬ layout.Shows input) (configured : Encoding) :
    detect configured input = ofEncoding configured := by
  have hmark (layout : Layout) (hne : layout.mark ≠ []) :
      ¬ layout.mark.isPrefixOf input = true := by
    rw [List.isPrefixOf_iff_prefix]
    rintro ⟨rest, rfl⟩
    exact h layout (.marked hne rest)
  have hbracket (order : Utf16.ByteOrder) {pair : List UInt8}
      (hpair : Utf16.unitBytes order 0x3C = pair) : ¬ pair.isPrefixOf input = true := by
    subst hpair
    rw [List.isPrefixOf_iff_prefix]
    rintro ⟨rest, rfl⟩
    exact h (.utf16 order) (.bracket order rest)
  unfold detect
  rw [if_neg (hmark .utf8 (by decide)), if_neg (hmark (.utf16 .little) (by decide)),
    if_neg (hmark (.utf16 .big) (by decide)), if_neg (hbracket .big (by decide)),
    if_neg (hbracket .little (by decide))]

/-- **A file shows just that layout which every reader takes it for.** -/
theorem shows_iff : layout.Shows input ↔ ∀ configured, detect configured input = layout := by
  constructor
  · intro h configured
    exact h.detect_eq configured
  · intro h
    by_cases hshows : ∃ shown : Layout, shown.Shows input
    · obtain ⟨shown, hshown⟩ := hshows
      obtain rfl : shown = layout := (hshown.detect_eq .utf8).symm.trans (h .utf8)
      exact hshown
    · -- readers that expect different encodings would then not agree
      rw [not_exists] at hshows
      have hutf8 := (detect_of_not_shows hshows .utf8).symm.trans (h .utf8)
      have hascii := (detect_of_not_shows hshows .ascii).symm.trans (h .ascii)
      exact absurd (hutf8.trans hascii.symm) (by decide)

/-- What shows its layout is read in it, whatever the reader expects. -/
theorem Shows.decode_eq (h : layout.Shows input) (configured : Encoding) :
    configured.decode input = layout.decode (layout.body input) := by
  rw [Encoding.decode_eq, h.detect_eq configured]

/-! ## Texts -/

/-- A text that starts with `<` shows that it is in UTF-16, and in which order. -/
theorem shows_bytes (order : Utf16.ByteOrder) {cs : List Char} (h : cs.head? = some '<') :
    (utf16 order).Shows ((utf16 order).bytes cs) := by
  cases cs with
  | nil => cases h
  | cons c cs =>
    obtain rfl : c = '<' := Option.some.inj h
    have hfirst : Utf16.encodeChar '<' = [0x3C] := rfl
    have hbytes : (utf16 order).bytes ('<' :: cs) =
        Utf16.unitBytes order 0x3C ++ Utf16.toBytes order (Utf16.encode cs) := by
      show Utf16.toBytes order (Utf16.encode ('<' :: cs)) = _
      rw [Utf16.encode_cons, hfirst]
      rfl
    rw [hbytes]
    exact .bracket order _

/-- No mark of UTF-16 starts like a `<`. -/
theorem body_bytes (order : Utf16.ByteOrder) {cs : List Char} (h : cs.head? = some '<') :
    (utf16 order).body ((utf16 order).bytes cs) = (utf16 order).bytes cs := by
  cases cs with
  | nil => cases h
  | cons c cs =>
    obtain rfl : c = '<' := Option.some.inj h
    cases order <;> rfl

end Layout

namespace Encoding

/-- **Texts in files that show their layout are read back by all readers.** A file that shows its
layout is read in it, whatever the reader expects, and no other file is in the same layout for all
readers. Behind the mark of UTF-8, and behind that of UTF-16 in either order, every text is read
back, and without a mark every text in UTF-16 that starts with `<`. -/
theorem decode_recognized (configured : Encoding) (text : String) :
    (∀ (layout : Layout) (input : List UInt8),
      (layout.Shows input ↔ ∀ expected, Layout.detect expected input = layout) ∧
      (layout.Shows input → configured.decode input = layout.decode (layout.body input))) ∧
    configured.decode ([0xEF, 0xBB, 0xBF] ++ Utf8.encode text.toList) = .ok text ∧
    configured.decode ([0xFF, 0xFE] ++ Utf16.toBytes .little (Utf16.encode text.toList)) =
      .ok text ∧
    configured.decode ([0xFE, 0xFF] ++ Utf16.toBytes .big (Utf16.encode text.toList)) = .ok text ∧
    (text.toList.head? = some '<' → ∀ order,
      configured.decode (Utf16.toBytes order (Utf16.encode text.toList)) = .ok text) := by
  have hmarked (layout : Layout) (hmark : layout.mark ≠ []) (hholds : layout.Holds text.toList) :
      configured.decode (layout.mark ++ layout.bytes text.toList) = .ok text := by
    have hshows : layout.Shows (layout.mark ++ layout.bytes text.toList) := .marked hmark _
    exact decode_of_detect (hshows.detect_eq configured) (Layout.body_append _ _) hholds
  refine ⟨fun layout input => ⟨Layout.shows_iff, fun h => h.decode_eq configured⟩,
    hmarked .utf8 (by decide) trivial, hmarked (.utf16 .little) (by decide) trivial,
    hmarked (.utf16 .big) (by decide) trivial, ?_⟩
  intro hbracket order
  have hshows := Layout.shows_bytes order hbracket
  exact decode_of_detect (hshows.detect_eq configured) (Layout.body_bytes order hbracket) trivial

/-- A text that starts with the character of the mark, behind another mark, for a reader that
expects something else; and a surrogate pair behind a `<` without one. -/
theorem decode_recognized_pair :
    utf16.decode ([0xEF, 0xBB, 0xBF] ++ Utf8.encode "\uFEFFé".toList) = .ok "\uFEFFé" ∧
    "<😀/>".toList.head? = some '<' ∧
    ascii.decode [0x00, 0x3C, 0xD8, 0x3D, 0xDE, 0x00, 0x00, 0x2F, 0x00, 0x3E] = .ok "<😀/>" :=
  ⟨(decode_recognized utf16 "\uFEFFé").2.1, rfl,
    (decode_recognized ascii "<😀/>").2.2.2.2 rfl .big⟩

end Encoding

end Groundwork
