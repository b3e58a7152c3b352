/-!
# `File.Store` — where files are kept

What documents need of a place for files is two operations, by path. Both can be refused, and a
refused writing may still have changed the place. How paths are understood is the store's own
matter.

## Contents

* `FileFault`, `FileFault.message` — why an operation is refused.
* `FileStore` — reading and writing whole files.
-/

namespace Groundwork

/-- Why a file cannot be read or written. -/
inductive FileFault where
  /-- There is no such file, or no such directory on the way to it. -/
  | notFound
  /-- Something on the way is a file and not a directory. -/
  | notDirectory
  /-- What lies there is a directory. -/
  | isDirectory
  /-- A name, or the whole path, is too long. -/
  | nameTooLong
  /-- The path holds the character that ends paths. -/
  | invalidPath
  deriving DecidableEq, Repr

/-- The wording of a file fault. -/
def FileFault.message : FileFault → String
  | .notFound => "No such file or directory (os error 2)"
  | .notDirectory => "Not a directory (os error 20)"
  | .isDirectory => "Is a directory (os error 21)"
  | .nameTooLong => "File name too long (os error 36)"
  | .invalidPath => "file name contained an unexpected NUL byte"

/-- A place in which files are kept by path. -/
class FileStore (σ : Type) where
  /-- The bytes of a file. -/
  read : σ → (path : String) → Except FileFault (List UInt8)
  /-- Replaces the bytes of a file, or makes a new one. -/
  write : σ → (path : String) → List UInt8 → Except FileFault Unit × σ

end Groundwork
