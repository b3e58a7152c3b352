import Groundwork.Document.Basic
import Groundwork.Proofs.Encoding.RoundTrip
import Groundwork.Proofs.File.Volume
import Groundwork.Proofs.Tree.RoundTrip

/-!
# `Proofs.Document.SaveLoad` — what a file keeps of a document

A saved document passes through three stages, from tree to text, from text to bytes, and back. The
first and the last are undone as far as the tree's normal form goes; the one between is undone
unless the first characters of the text mislead the reader about its bytes. No printed tree does
that: its text is empty, or it starts with a piece of markup.

## Contents

* `StartsAsMarkup`, `startsAsMarkup_print` — **printed trees mislead nobody.**
* `readText_of_writeText` — text in a file that keeps what is written to it.
* `Document.load_of_save` — **saving a document and loading it again.**
-/

namespace Groundwork

open Text Xml Groundwork.Tree

/-! ## How printed trees start -/

/-- There is no text, or it starts with markup, and not with a `<` in front of a NUL. -/
def StartsAsMarkup (cs : List Char) : Prop :=
  cs = [] ∨ ∃ c rest, cs = '<' :: c :: rest ∧ c ≠ '\x00'

theorem StartsAsMarkup.not_misleading {cs : List Char} (h : StartsAsMarkup cs) :
    ¬ Misleading cs := by
  rintro (⟨behind, hmark⟩ | ⟨behind, hmark⟩ | ⟨behind, hmark⟩)
  · rcases h with rfl | ⟨c, rest, rfl, -⟩
    · cases hmark
    · exact absurd (List.cons.inj hmark).1 (by decide)
  · rcases h with rfl | ⟨c, rest, rfl, hc⟩
    · cases hmark
    · exact hc (List.cons.inj (List.cons.inj hmark).2).1.symm
  · rcases h with rfl | ⟨c, rest, rfl, -⟩
    · cases hmark
    · exact absurd (List.cons.inj hmark).1 (by decide)

/-- A tag starts with `<` and a name. -/
theorem startsAsMarkup_of_isName {name : List Char} (h : isName name = true) (rest : List Char) :
    StartsAsMarkup ('<' :: (name ++ rest)) := by
  cases name with
  | nil => cases h
  | cons c name =>
    rw [isName, Bool.and_eq_true] at h
    refine .inr ⟨c, name ++ rest, rfl, ?_⟩
    rintro rfl
    exact absurd h.1 (by decide)

/-- A piece of markup starts with `<` and a character that tells its kind. -/
theorem startsAsMarkup_spelling {piece : Piece} (h : piece.Writable)
    (htext : piece.isText = false) (rest : List Char) :
    StartsAsMarkup (piece.spelling ++ rest) := by
  cases piece with
  | text content => cases htext
  | startTag name attributes =>
    simpa [Piece.spelling] using
      startsAsMarkup_of_isName h.1 (Attribute.spellAll attributes ++ '>' :: rest)
  | emptyTag name attributes =>
    simpa [Piece.spelling] using
      startsAsMarkup_of_isName h.1 (Attribute.spellAll attributes ++ emptyTagEnd ++ rest)
  | endTag name => exact .inr ⟨'/', _, rfl, by decide⟩
  | comment body => exact .inr ⟨'!', _, rfl, by decide⟩
  | instruction target data => exact .inr ⟨'?', _, rfl, by decide⟩

/-- The pieces of a node at the top start with markup, behind no margin. -/
theorem exists_first (options : PrintOptions) {label : Label} (h : label.kind ≠ .document)
    (below rest : Forest Label) :
    ∃ (first : Piece) (behind : List Piece),
      (Forest.cons label below rest).pieces options 1 = .text "" :: first :: behind ∧
        first.isText = false := by
  cases hkind : label.kind with
  | document => exact absurd hkind h
  | element =>
    obtain ⟨tag, behind, hpieces, htag⟩ := exists_tag options hkind below rest
    exact ⟨tag, behind, hpieces, htag.isText_eq⟩
  | comment =>
    rw [Forest.pieces, line, padding_top, Label.pieces, hkind]
    exact ⟨_, _, rfl, rfl⟩
  | instruction =>
    rw [Forest.pieces, line, padding_top, Label.pieces, hkind]
    exact ⟨_, _, rfl, rfl⟩

theorem startsAsMarkup_printForest (options : PrintOptions) {f : Forest Label} (hf : f.Sound) :
    StartsAsMarkup (printForest options f).toList := by
  cases hdeclaration : options.declaration with
  | true =>
    rw [printForest, String.toList_append, toList_printDeclaration hdeclaration]
    exact .inr ⟨'?', _, rfl, by decide⟩
  | false =>
    have hnone : printDeclaration options = "" := by simp [printDeclaration, hdeclaration]
    rw [printForest, hnone, String.empty_append, printPieces, String.toList_ofList]
    cases f with
    | nil => exact .inl rfl
    | cons label below rest =>
      obtain ⟨first, behind, hpieces, htext⟩ := exists_first options hf.2.1 below rest
      have hfirst := writable_pieces hf options 1 first (by simp [hpieces]) htext
      rw [hpieces]
      exact startsAsMarkup_spelling hfirst htext (Piece.spellAll behind)

/-- **Printed trees mislead nobody.** -/
theorem startsAsMarkup_print {tree : Tree} {entries : List Tree.Entry}
    (h : tree.Linked entries) (hentries : Rooted entries) (hvalid : ∀ e ∈ entries, e.label.Valid)
    (options : PrintOptions) : StartsAsMarkup (tree.print options).toList := by
  obtain ⟨f, hf⟩ := exists_spans hentries.ordered
  rw [print_eq h hentries hf]
  exact startsAsMarkup_printForest options ((hf.liesBelow hentries).sound hvalid)

/-! ## Texts in files -/

section

variable {σ : Type} [FileStore σ] {store after : σ} {file : String}

namespace Encoding

variable {encoding expected : Encoding} {text : String}

/-- Only a text without bytes is not written. -/
theorem writeText_eq_error_iff (hfile : FileStore.Keeps store file) :
    (∃ e, (encoding.writeText store file text).1 = .error e) ↔
      ∃ e, encoding.encode text = .error e := by
  unfold writeText
  cases hencode : encoding.encode text with
  | error e => exact ⟨fun _ => ⟨e, rfl⟩, fun _ => ⟨.encoding e, rfl⟩⟩
  | ok bytes =>
    obtain ⟨after, hwrite, -⟩ := hfile bytes
    simp [hwrite]

/-- The file holds the bytes of the text that has been written to it. -/
theorem read_of_writeText (hfile : FileStore.Keeps store file)
    (h : encoding.writeText store file text = (.ok (), after)) :
    ∃ bytes, encoding.encode text = .ok bytes ∧ FileStore.read after file = .ok bytes := by
  unfold writeText at h
  split at h
  · cases h
  · next bytes hencode =>
    obtain ⟨written, hwrite, hread⟩ := hfile bytes
    rw [hwrite] at h
    obtain rfl : written = after := (Prod.mk.inj h).2
    exact ⟨bytes, hencode, hread⟩

/-- **A text comes back from its file**, if it was written in UTF-16, or if it misleads nobody and
the reader expects its encoding. -/
theorem readText_of_writeText (hfile : FileStore.Keeps store file)
    (h : encoding.writeText store file text = (.ok (), after))
    (hexpected : encoding = .utf16 ∨ expected = encoding ∧ ¬ Misleading text.toList) :
    expected.readText after file = .ok text := by
  obtain ⟨bytes, hencode, hread⟩ := read_of_writeText hfile h
  rw [readText, hread]
  simp only [decode_of_encode hencode hexpected]

end Encoding

namespace Document

/-! ## Documents in files -/

theorem load_of_parse_ok {document : Document} {text : String} {tree : Tree}
    (htext : document.encoding.readText store file = .ok text) (htree : parse text = .ok tree) :
    document.load store file = (.ok (), { document with tree }) := by
  simp only [load, readTree, htext, htree]

theorem load_of_parse_error {document : Document} {text : String} {e : ParseError}
    (htext : document.encoding.readText store file = .ok text) (herror : parse text = .error e) :
    document.load store file = (.error (.parse e), document.clear) := by
  simp only [load, readTree, htext, herror]

/-- **Saving a document and loading it again.** Only ASCII has documents that cannot be saved. What
has been saved is loaded by each document that expects its encoding, and by each document at all if
it was saved in UTF-16: in normal form if it has one root element at most, and otherwise not. -/
theorem load_of_save {document : Document} (h : Reached OnElements document.tree)
    (hfile : FileStore.Keeps store file) :
    ((∃ e, (document.save store file).1 = .error e) ↔
      document.encoding = .ascii ∧ ∃ c ∈ document.toXml.toList, 0x80 ≤ c.toNat) ∧
    ∀ after : σ, document.save store file = (.ok (), after) → ∀ other : Document,
      other.encoding = document.encoding ∨ document.encoding = .utf16 →
        ((∃ loaded, other.load after file = (.ok (), loaded)) ↔
          document.tree.elementCount (document.tree.children root) ≤ 1) ∧
        (document.tree.elementCount (document.tree.children root) ≤ 1 →
          other.load after file = (.ok (), { other with tree := document.tree.normalForm })) := by
  obtain ⟨entries, hlinked, hentries, hvalid⟩ := h.exists_valid
  let options := { document.options with encoding := some document.encoding }
  have hplain : ¬ Misleading document.toXml.toList :=
    (startsAsMarkup_print hlinked hentries hvalid options).not_misleading
  refine ⟨(Encoding.writeText_eq_error_iff hfile).trans (Encoding.encode_eq_error_iff _ _), ?_⟩
  intro after hsave other hother
  have hexpected : document.encoding = .utf16 ∨
      other.encoding = document.encoding ∧ ¬ Misleading document.toXml.toList := by
    rcases hother with hsame | hutf16
    · exact .inr ⟨hsame, hplain⟩
    · exact .inl hutf16
  have htext := Encoding.readText_of_writeText hfile hsave hexpected
  have hload (hcount : document.tree.elementCount (document.tree.children root) ≤ 1) :
      other.load after file = (.ok (), { other with tree := document.tree.normalForm }) :=
    load_of_parse_ok htext (hlinked.parse_print hentries hvalid options hcount)
  refine ⟨⟨?_, fun hcount => ⟨_, hload hcount⟩⟩, hload⟩
  rintro ⟨loaded, hloaded⟩
  by_contra hcount
  obtain ⟨_, _, _, _, _, -, -, -, -, -, herror⟩ :=
    hlinked.parse_print_error hentries hvalid options (by omega)
  rw [load_of_parse_error htext herror] at hloaded
  cases hloaded

end Document

end

namespace Document

/-- A document with characters that ASCII has not, saved in UTF-16 and loaded by a document that
expects ASCII, which itself could not have been saved. -/
theorem load_of_save_volume :
    let tree := [Edit.appendElement root "é", .appendElement 1 "b", .setValue 1 " 😀 "].foldl
      Edit.apply empty
    let document : Document := ⟨tree, .utf16, .standard⟩
    let other : Document := ⟨tree, .ascii, .compact⟩
    ∃ (after : Volume) (e : DocumentError),
      document.save Volume.empty "d" = (.ok (), after) ∧
      other.load after "d" = (.ok (), { other with tree := tree.normalForm }) ∧
      tree.normalForm ≠ tree ∧ (other.save Volume.empty "d").1 = .error e := by
  intro tree document other
  have hplace : Volume.empty.placeToWrite "d" = .ok ["d"] := by
    rw [Volume.placeToWrite, Path.ofString_single]
    decide +kernel
  have hfile := Volume.keeps_of_placeToWrite hplace
  have hfirst : Reached OnElements (Edit.apply empty (.appendElement root "é")) :=
    .edited .empty trivial
  have hsecond : Reached OnElements (Edit.apply _ (.appendElement 1 "b")) :=
    .edited hfirst trivial
  have hthird : Reached OnElements (Edit.apply _ (.setValue 1 " 😀 ")) :=
    .edited hsecond ⟨_, rfl, by decide⟩
  have htree : Reached OnElements document.tree := hthird
  have hother : Reached OnElements other.tree := hthird
  have hcount : document.tree.elementCount (document.tree.children root) ≤ 1 := by decide +kernel
  have hhigh : 'é' ∈ other.toXml.toList := by decide +kernel
  obtain ⟨hsavable, hload⟩ := load_of_save htree hfile
  obtain ⟨e, herror⟩ := (load_of_save hother hfile).1.2 ⟨rfl, 'é', hhigh, by decide⟩
  cases hsave : document.save Volume.empty "d" with
  | mk result after =>
    cases result with
    | error e =>
      have hascii : document.encoding = .ascii := (hsavable.1 ⟨e, by rw [hsave]⟩).1
      cases hascii
    | ok _ =>
      have hloaded := (hload after hsave other (.inr rfl)).2 hcount
      exact ⟨after, e, rfl, hloaded, by decide +kernel, herror⟩

end Document

end Groundwork
