import Groundwork.Document.Error

/-!
# `Document.TextFile` — text in files

## Contents

* `Encoding.readText`, `Encoding.writeText` — a whole file as text.
-/

namespace Groundwork

variable {σ : Type} [FileStore σ]

namespace Encoding

/-- The text of a file, for a reader that expects this encoding. -/
def readText (expected : Encoding) (store : σ) (file : String) : Except DocumentError String :=
  match FileStore.read store file with
  | .error fault => .error (.unreadable file fault)
  | .ok bytes =>
    match expected.decode bytes with
    | .error e => .error (.encoding e)
    | .ok text => .ok text

/-- Replaces a file by this text. A text that has no bytes in the encoding leaves the store
alone. -/
def writeText (encoding : Encoding) (store : σ) (file text : String) :
    Except DocumentError Unit × σ :=
  match encoding.encode text with
  | .error e => (.error (.encoding e), store)
  | .ok bytes =>
    match FileStore.write store file bytes with
    | (.ok (), store) => (.ok (), store)
    | (.error fault, store) => (.error (.unwritable file fault), store)

end Encoding

end Groundwork
