import Groundwork.Document.TextFile
import Groundwork.Tree.Build
import Groundwork.Tree.Edit
import Groundwork.Tree.Print

/-!
# `Document.Basic` — documents

A document is a tree together with the encoding of its file and the way it is printed.

## Contents

* `Document`, `Document.new` — the document and its parts.
* `Document.substitute` — one value for all selected elements.
* `Document.toXml`, `Document.save`, `Document.load` — the document as text and as file.
-/

namespace Groundwork

open Xml

/-- A tree, the encoding of its file, and how it is printed. -/
structure Document where
  tree : Tree
  encoding : Encoding
  options : PrintOptions
  deriving DecidableEq, Repr, Inhabited

namespace Document

/-- A document without content. -/
def new (encoding : Encoding) (options : PrintOptions) : Document := ⟨Tree.empty, encoding, options⟩

/-- The document without its content. -/
def clear (document : Document) : Document := { document with tree := Tree.empty }

/-- Gives all selected elements a value, and tells how many there are. -/
def substitute (document : Document) (selector : Selector) (value : String) : Nat × Document :=
  let ids := document.tree.select selector
  (ids.length, { document with tree := document.tree.setValues ids value })

/-! ## Text and files -/

/-- The text of the document; its declaration names the encoding of the file. -/
def toXml (document : Document) : String :=
  document.tree.print { document.options with encoding := some document.encoding }

variable {σ : Type} [FileStore σ]

/-- Replaces a file by the document. -/
def save (document : Document) (store : σ) (file : String) : Except DocumentError Unit × σ :=
  document.encoding.writeText store file document.toXml

/-- The tree in a file, for a reader that expects this encoding. -/
def readTree (expected : Encoding) (store : σ) (file : String) : Except DocumentError Tree :=
  match expected.readText store file with
  | .error e => .error e
  | .ok text =>
    match Tree.parse text with
    | .error e => .error (.parse e)
    | .ok tree => .ok tree

/-- Replaces the content of the document by that of a file. If that fails, the document is left
without content. -/
def load (document : Document) (store : σ) (file : String) : Except DocumentError Unit × Document :=
  match readTree document.encoding store file with
  | .ok tree => (.ok (), { document with tree })
  | .error e => (.error e, document.clear)

end Document

end Groundwork
