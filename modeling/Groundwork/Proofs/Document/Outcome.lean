import Groundwork.Document.Basic
import Groundwork.Proofs.File.Volume
import Groundwork.Proofs.Tree.Edited

/-!
# `Proofs.Document.Outcome` — how loading and saving can end

Loading goes through three stages, of which each can fail: the bytes of the file, their text, and
its tree. Saving goes through two, the bytes of the text and the writing of them. A judgment for
each says which stage was the last and what it came to. Each has one outcome for every document and
store, so what is left of a document and its store can be read off the stage that failed.

## Contents

* `Document.Reads`, `reads_iff` — how reading a document can end.
* `Document.Saves`, `saves_iff` — how saving one can end.
* `Desk`, `Desk.load`, `Desk.save` — a document beside the store of its files.
* `Desk.load_save_outcome` — **what loading and saving leave behind.**
-/

namespace Groundwork

open Xml

variable {σ : Type} [FileStore σ]

/-! ## The stages -/

namespace Document

/-- How reading a document from a file can end: with the first stage that fails, or with the tree
of the text of the bytes of the file. -/
inductive Reads (expected : Encoding) (store : σ) (file : String) :
    Except DocumentError Tree → Prop where
  | unreadable {fault : FileFault} (hread : FileStore.read store file = .error fault) :
      Reads expected store file (.error (.unreadable file fault))
  | undecodable {bytes : List UInt8} {e : EncodingError}
      (hread : FileStore.read store file = .ok bytes)
      (hdecode : expected.decode bytes = .error e) :
      Reads expected store file (.error (.encoding e))
  | unparsable {bytes : List UInt8} {text : String} {e : ParseError}
      (hread : FileStore.read store file = .ok bytes) (hdecode : expected.decode bytes = .ok text)
      (hparse : Tree.parse text = .error e) : Reads expected store file (.error (.parse e))
  | parsed {bytes : List UInt8} {text : String} {tree : Tree}
      (hread : FileStore.read store file = .ok bytes) (hdecode : expected.decode bytes = .ok text)
      (hparse : Tree.parse text = .ok tree) : Reads expected store file (.ok tree)

theorem reads_readTree (expected : Encoding) (store : σ) (file : String) :
    Reads expected store file (readTree expected store file) := by
  unfold readTree Encoding.readText
  cases hread : FileStore.read store file with
  | error fault => exact .unreadable hread
  | ok bytes =>
    cases hdecode : expected.decode bytes with
    | error e =>
      simp only [hdecode]
      exact .undecodable hread hdecode
    | ok text =>
      simp only [hdecode]
      cases hparse : Tree.parse text with
      | error e => exact .unparsable hread hdecode hparse
      | ok tree => exact .parsed hread hdecode hparse

/-- Reading a document ends in one way. -/
theorem reads_iff {expected : Encoding} {store : σ} {file : String}
    {outcome : Except DocumentError Tree} :
    Reads expected store file outcome ↔ readTree expected store file = outcome := by
  constructor
  · intro h
    cases h with
    | unreadable hread => simp only [readTree, Encoding.readText, hread]
    | undecodable hread hdecode => simp only [readTree, Encoding.readText, hread, hdecode]
    | unparsable hread hdecode hparse =>
      simp only [readTree, Encoding.readText, hread, hdecode, hparse]
    | parsed hread hdecode hparse =>
      simp only [readTree, Encoding.readText, hread, hdecode, hparse]
  · rintro rfl
    exact reads_readTree expected store file

/-- How saving a document to a file can end, and with which store: a text without bytes leaves it
alone, and what else becomes of it is up to the store. -/
inductive Saves (document : Document) (store : σ) (file : String) :
    Except DocumentError Unit → σ → Prop where
  | unencodable {e : EncodingError}
      (hencode : document.encoding.encode document.toXml = .error e) :
      Saves document store file (.error (.encoding e)) store
  | unwritable {bytes : List UInt8} {fault : FileFault} {after : σ}
      (hencode : document.encoding.encode document.toXml = .ok bytes)
      (hwrite : FileStore.write store file bytes = (.error fault, after)) :
      Saves document store file (.error (.unwritable file fault)) after
  | saved {bytes : List UInt8} {after : σ}
      (hencode : document.encoding.encode document.toXml = .ok bytes)
      (hwrite : FileStore.write store file bytes = (.ok (), after)) :
      Saves document store file (.ok ()) after

theorem saves_save (document : Document) (store : σ) (file : String) :
    Saves document store file (document.save store file).1 (document.save store file).2 := by
  unfold save Encoding.writeText
  cases hencode : document.encoding.encode document.toXml with
  | error e => exact .unencodable hencode
  | ok bytes =>
    cases hwrite : FileStore.write store file bytes with
    | mk result after =>
      cases result with
      | error fault =>
        simp only [hwrite]
        exact .unwritable hencode hwrite
      | ok _ =>
        simp only [hwrite]
        exact .saved hencode hwrite

/-- Saving a document ends in one way. -/
theorem saves_iff {document : Document} {store after : σ} {file : String}
    {result : Except DocumentError Unit} :
    Saves document store file result after ↔ document.save store file = (result, after) := by
  constructor
  · intro h
    cases h with
    | unencodable hencode => simp only [save, Encoding.writeText, hencode]
    | unwritable hencode hwrite => simp only [save, Encoding.writeText, hencode, hwrite]
    | saved hencode hwrite => simp only [save, Encoding.writeText, hencode, hwrite]
  · intro h
    have hsaves := saves_save document store file
    rwa [h] at hsaves

/-- A document is loaded as it is read, and left without content if it cannot be read. -/
theorem load_of_reads {document : Document} {store : σ} {file : String}
    {outcome : Except DocumentError Tree} (h : Reads document.encoding store file outcome) :
    document.load store file =
      (outcome.map fun _ => (), { document with tree := outcome.toOption.getD Tree.empty }) := by
  have hread := reads_iff.1 h
  cases outcome with
  | error e => simp only [load, hread, clear]; rfl
  | ok tree => simp only [load, hread]; rfl

end Document

/-! ## A document and its store -/

/-- A document, and the place where its files are kept. -/
structure Desk (σ : Type) where
  document : Document
  store : σ

namespace Desk

/-- Replaces the content of the document by that of a file. -/
def load (desk : Desk σ) (file : String) : Except DocumentError Unit × Desk σ :=
  match desk.document.load desk.store file with
  | (result, document) => (result, { desk with document })

/-- Replaces a file by the document. -/
def save (desk : Desk σ) (file : String) : Except DocumentError Unit × Desk σ :=
  match desk.document.save desk.store file with
  | (result, store) => (result, { desk with store })

/-! ## What is left -/

/-- What loading a file leaves behind, if reading it comes to `outcome`. -/
structure Loaded (desk : Desk σ) (file : String) (outcome : Except DocumentError Tree) : Prop where
  /-- The document has been loaded if it can be read, and the error is that of reading it. -/
  result_eq : (desk.load file).1 = outcome.map fun _ => ()
  tree_eq_of_ok : ∀ tree, outcome = .ok tree → (desk.load file).2.document.tree = tree
  /-- Nothing of the old content stays behind an error. -/
  tree_eq_of_error : ∀ e, outcome = .error e → (desk.load file).2.document.tree = Tree.empty
  encoding_eq : (desk.load file).2.document.encoding = desk.document.encoding
  options_eq : (desk.load file).2.document.options = desk.document.options
  store_eq : (desk.load file).2.store = desk.store

/-- What saving to a file leaves behind. -/
structure Saved (desk : Desk σ) (file : String) : Prop where
  /-- The result and the store are those of the stage that was the last. -/
  saves : desk.document.Saves desk.store file (desk.save file).1 (desk.save file).2.store
  document_eq : (desk.save file).2.document = desk.document
  /-- A text without bytes is found out before the store is touched. -/
  store_eq_of_encoding : ∀ e, (desk.save file).1 = .error (.encoding e) →
    (desk.save file).2.store = desk.store

variable {desk : Desk σ} {file : String}

theorem loaded_of_reads {outcome : Except DocumentError Tree}
    (h : Document.Reads desk.document.encoding desk.store file outcome) :
    desk.Loaded file outcome := by
  let tree := outcome.toOption.getD Tree.empty
  have hload : desk.load file = (outcome.map fun _ => (),
      { desk with document := { desk.document with tree } }) := by
    rw [load, Document.load_of_reads h]
  constructor
  case result_eq => rw [hload]
  case tree_eq_of_ok =>
    rintro tree rfl
    rw [hload]
    rfl
  case tree_eq_of_error =>
    rintro e rfl
    rw [hload]
    rfl
  case encoding_eq => rw [hload]
  case options_eq => rw [hload]
  case store_eq => rw [hload]

theorem store_eq_of_saves {document : Document} {store after : σ} {e : EncodingError}
    (h : document.Saves store file (.error (.encoding e)) after) : after = store := by
  cases h
  rfl

theorem saved (desk : Desk σ) (file : String) : desk.Saved file where
  saves := Document.saves_iff.2 rfl
  document_eq := rfl
  store_eq_of_encoding := by
    intro e herror
    have hsaves : desk.document.Saves desk.store file (.error (.encoding e))
        (desk.save file).2.store := Document.saves_iff.2 (Prod.ext herror rfl)
    exact store_eq_of_saves hsaves

/-- **What loading and saving leave behind**, for every document, store and file. Reading the file
ends in one way; a document that loads it is then the tree that is read, or without content, and
differs from what it was in nothing else. What it held before makes no difference. Saving leaves
the document as it is, and the store as well if the text has no bytes. -/
theorem load_save_outcome (desk : Desk σ) (file : String) :
    (∃! outcome, Document.Reads desk.document.encoding desk.store file outcome) ∧
    (∀ outcome, Document.Reads desk.document.encoding desk.store file outcome →
      desk.Loaded file outcome) ∧
    (∀ other : Desk σ, other.document.encoding = desk.document.encoding →
      other.store = desk.store →
        (other.load file).1 = (desk.load file).1 ∧
        (other.load file).2.document.tree = (desk.load file).2.document.tree) ∧
    desk.Saved file := by
  have hreads := Document.reads_readTree desk.document.encoding desk.store file
  refine ⟨⟨_, hreads, fun outcome h => (Document.reads_iff.1 h).symm⟩,
    fun outcome h => loaded_of_reads h, ?_, saved desk file⟩
  intro other hencoding hstore
  -- what reading comes to depends on nothing but the encoding and the store
  have hothers : Document.Reads other.document.encoding other.store file
      (Document.readTree desk.document.encoding desk.store file) := by
    rw [hencoding, hstore]
    exact hreads
  have hloaded := loaded_of_reads hreads
  have hother := loaded_of_reads hothers
  refine ⟨hother.result_eq.trans hloaded.result_eq.symm, ?_⟩
  cases hread : Document.readTree desk.document.encoding desk.store file with
  | error e => rw [hother.tree_eq_of_error e hread, hloaded.tree_eq_of_error e hread]
  | ok tree => rw [hother.tree_eq_of_ok tree hread, hloaded.tree_eq_of_ok tree hread]

/-- A file that is no ASCII at its third byte, loaded by two documents with different trees. The
one that expects ASCII could not be saved, and nothing of it is left. -/
theorem load_save_outcome_volume :
    let store := Volume.empty.insert ["d"] (.file [0x3C, 0x61, 0xE9])
    let full : Desk Volume := ⟨⟨Tree.Edit.apply Tree.empty (.appendElement Tree.root "é"), .ascii,
      .compact⟩, store⟩
    let bare : Desk Volume := ⟨Document.new .ascii .standard, store⟩
    (full.load "d").1 = .error (.encoding (.invalidAscii 0xE9 2)) ∧
    (full.load "d").2.document.tree = Tree.empty ∧
    (bare.load "d").1 = (full.load "d").1 ∧
    (full.save "d").1 = .error (.encoding (.notAscii 'é' 1)) ∧ (full.save "d").2.store = store := by
  intro store full bare
  have hread : FileStore.read store "d" = .ok [0x3C, 0x61, 0xE9] := by
    show store.read "d" = _
    rw [Volume.read, Path.ofString_single]
    decide +kernel
  have hreads : Document.Reads full.document.encoding full.store "d"
      (.error (.encoding (.invalidAscii 0xE9 2))) := .undecodable hread rfl
  obtain ⟨-, hloaded, hsame, hsaved⟩ := load_save_outcome full "d"
  have hfull := hloaded _ hreads
  have hencode : (full.save "d").1 = .error (.encoding (.notAscii 'é' 1)) := by decide +kernel
  exact ⟨hfull.result_eq, hfull.tree_eq_of_error _ rfl, (hsame bare rfl rfl).1, hencode,
    hsaved.store_eq_of_encoding _ hencode⟩

end Desk

end Groundwork
