import Groundwork.Encoding
import Groundwork.File.Store
import Groundwork.Xml.Fault

/-!
# `Document.Error` — what can go wrong between a document and its file

## Contents

* `DocumentError`, `DocumentError.message` — the causes and their wording.
* `DocumentError.isFile` — the file is at fault, and not what is in it.
-/

namespace Groundwork

open Xml

/-- Why a document could not be loaded or saved. -/
inductive DocumentError where
  /-- The file cannot be read. -/
  | unreadable (file : String) (fault : FileFault)
  /-- The file cannot be written. -/
  | unwritable (file : String) (fault : FileFault)
  /-- The bytes do not match the encoding, or the text has no bytes in it. -/
  | encoding (error : EncodingError)
  /-- The text is no document. -/
  | parse (error : ParseError)
  deriving DecidableEq, Repr

namespace DocumentError

/-- The wording of a document error. -/
def message : DocumentError → String
  | .unreadable file fault => "failed to open " ++ file ++ ": " ++ fault.message
  | .unwritable file fault => "failed to write " ++ file ++ ": " ++ fault.message
  | .encoding error => "encoding error: " ++ error.message
  | .parse error => "parse error: " ++ error.message

/-- The file is at fault, and not what is in it. -/
def isFile : DocumentError → Bool
  | .unreadable .. | .unwritable .. => true
  | .encoding _ | .parse _ => false

end DocumentError

end Groundwork
