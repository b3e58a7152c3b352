import Groundwork.File.Store

/-!
# `File.Volume` — files in directories, in memory

A volume maps places to files and directories; a place is the list of names on the way to it, the
last in front, and the volume's own directory is the empty list. A path is followed name by name:
`.` stays, `..` goes up (and stays at the top), and every step needs a directory to start from. So
the first fault on the way is the one reported.

## Contents

* `Volume`, `Volume.entryAt?` — what lies where; `Volume.entryAt?_insert`.
* `Path`, `Volume.follow` — from a written path to a place.
* `Volume.read`, `Volume.write`, `Volume.makeDirectory`; the instance `FileStore Volume`.
-/

namespace Groundwork

/-! ## Volumes -/

/-- What can lie in a directory. -/
inductive Entry where
  | file (bytes : List UInt8)
  | directory
  deriving DecidableEq, Repr

/-- The names on the way to an entry, the entry's own in front. -/
abbrev Place := List String

/-- The entries of a volume; of two at one place the first counts. -/
structure Volume where
  entries : List (Place × Entry)
  deriving DecidableEq, Repr

namespace Volume

/-- A volume with nothing in it. -/
def empty : Volume := ⟨[]⟩

instance : Inhabited Volume := ⟨empty⟩

/-- What lies at a place. -/
def entryAt? (volume : Volume) (place : Place) : Option Entry :=
  match place with
  | [] => some .directory
  | _ => volume.entries.lookup place

/-- Puts an entry at a place. -/
def insert (volume : Volume) (place : Place) (entry : Entry) : Volume :=
  ⟨(place, entry) :: volume.entries.filter fun e => e.1 ≠ place⟩

/-- Taking one place out of some entries leaves what lies at the others. -/
theorem lookup_filter_ne {place other : Place} (h : other ≠ place)
    (entries : List (Place × Entry)) :
    (entries.filter fun e => e.1 ≠ place).lookup other = entries.lookup other := by
  induction entries with
  | nil => rfl
  | cons e rest ih =>
    obtain ⟨p, entry⟩ := e
    by_cases hp : p = place
    · have hne : (other == place) = false := by simpa using h
      rw [hp, List.lookup_cons, hne, ← ih]
      simp
    · rw [List.filter_cons_of_pos (by simpa using hp), List.lookup_cons, List.lookup_cons, ih]

/-- What is put at a place is what lies there, and all else stays. -/
theorem entryAt?_insert (volume : Volume) {place : Place} (h : place ≠ []) (entry : Entry)
    (other : Place) :
    (volume.insert place entry).entryAt? other =
      if other = place then some entry else volume.entryAt? other := by
  cases other with
  | nil => rw [if_neg h.symm]; rfl
  | cons name names =>
    simp only [entryAt?, insert, List.lookup_cons]
    split
    · next heq => rw [if_pos (by simpa using heq)]
    · next heq =>
      have hne : name :: names ≠ place := by simpa using heq
      rw [if_neg hne, lookup_filter_ne hne]

end Volume

/-! ## Paths -/

/-- A path taken apart. -/
structure Path where
  names : List String
  /-- A slash stands at the end, as behind the name of a directory. -/
  slashAtEnd : Bool
  deriving DecidableEq, Repr

namespace Path

/-- The most bytes that a name may take. -/
def maxName : Nat := 255

/-- The most bytes that a path may take. -/
def maxPath : Nat := 4095

/-- Takes a path apart at its slashes; several in a row are as good as one. -/
def ofString (text : String) : Except FileFault Path :=
  if text.toList.contains '\x00' then .error .invalidPath
  else if text.isEmpty then .error .notFound
  else if maxPath < text.utf8ByteSize then .error .nameTooLong
  else .ok ⟨(text.splitOn "/").filter fun name => !name.isEmpty, text.endsWith "/"⟩

end Path

namespace Volume

/-- Follows some names from a place. Whether anything lies at the end is left open. -/
def follow (volume : Volume) (place : Place) : List String → Except FileFault Place
  | [] => .ok place
  | name :: names =>
    match volume.entryAt? place with
    | none => .error .notFound
    | some (.file _) => .error .notDirectory
    | some .directory =>
      if name = "." then follow volume place names
      else if name = ".." then follow volume place.tail names
      else if Path.maxName < name.utf8ByteSize then .error .nameTooLong
      else follow volume (name :: place) names

/-! ## Reading and writing -/

/-- The bytes of a file. A slash behind its name asks for a directory. -/
def read (volume : Volume) (path : String) : Except FileFault (List UInt8) := do
  let path ← Path.ofString path
  -- a last step from the place to itself makes sure that it is a directory
  let place ← volume.follow [] (if path.slashAtEnd then path.names ++ ["."] else path.names)
  match volume.entryAt? place with
  | some (.file bytes) => .ok bytes
  | some .directory => .error .isDirectory
  | none => .error .notFound

/-- The place at which a path would put a file. A name with a slash behind it is taken for a
directory, whether it is there or not. -/
def placeToWrite (volume : Volume) (path : String) : Except FileFault Place := do
  let path ← Path.ofString path
  match path.names.getLast? with
  | none => .error .isDirectory
  | some name =>
    -- the way to the file has to exist before the slash behind it counts
    let parent ← volume.follow [] (path.names.dropLast ++ ["."])
    if path.slashAtEnd then .error .isDirectory
    else
      let place ← volume.follow parent [name]
      match volume.entryAt? place with
      | some .directory => .error .isDirectory
      | _ => .ok place

/-- Replaces the bytes of a file, or makes a new one. -/
def write (volume : Volume) (path : String) (bytes : List UInt8) : Except FileFault Volume := do
  let place ← volume.placeToWrite path
  .ok (volume.insert place (.file bytes))

instance : FileStore Volume where
  read := read
  write volume path bytes :=
    match volume.write path bytes with
    | .ok volume => (.ok (), volume)
    | .error fault => (.error fault, volume)

/-! ## Making directories -/

/-- Follows some names from the directory at a place and makes each directory that is missing, as
far as that goes: a file on the way or a name that is too long ends it. A name with nothing but dots
behind it is not made, since those ask for a directory that is there already. -/
def makeDirectories (volume : Volume) (place : Place) : List String → Volume
  | [] => volume
  | name :: names =>
    if name = "." then makeDirectories volume place names
    else if name = ".." then makeDirectories volume place.tail names
    else if Path.maxName < name.utf8ByteSize then volume
    else
      match volume.entryAt? (name :: place) with
      | some .directory => makeDirectories volume (name :: place) names
      | some (.file _) => volume
      | none =>
        if !names.isEmpty && names.all (· = ".") then volume
        else (volume.insert (name :: place) .directory).makeDirectories (name :: place) names

/-- Makes a directory and those on the way to it, as far as they are missing. A path that cannot be
followed to its end leaves what has been made before the obstacle. -/
def makeDirectory (volume : Volume) (path : String) : Volume :=
  match Path.ofString path with
  | .ok path => volume.makeDirectories [] path.names
  | .error _ => volume

end Volume

end Groundwork
