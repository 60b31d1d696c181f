import Variation.CommandLine.Files

/-!
# Files in memory

A `FileTree` holds directories and files in memory and the directory that is worked in. A path is
followed part by part, and whatever it goes through must be a directory: a part that is a file ends
the way, also in front of a dot or of two dots. Reading and writing differ in one point, a slash at
the end of a path: what is read must then be a directory, and nothing can be written.
-/

namespace Variation.CommandLine

/-- The names on the way from the root to a place, the last one first. -/
abbrev Place := List String

/-- What is at a place. -/
inductive Entry where
  | directory
  | file (bytes : ByteArray)
  /-- A file that is always empty and forgets what is written. -/
  | sink

/-- How a path says where something is. -/
structure Path where
  /-- The way begins at the root. -/
  fromRoot : Bool
  parts : List String
  /-- A slash is at the end. -/
  slashed : Bool
  deriving DecidableEq, Inhabited

namespace Path

/-- The most bytes in one name. -/
def longestName : Nat := 255

/-- The most bytes in a path. -/
def longest : Nat := 4095

/-- Reads a path; slashes in a row count as one. -/
def ofText (s : String) : Except FileFault Path :=
  if s.isEmpty then .error .missing
  else if longest < s.utf8ByteSize then .error .nameTooLong
  else .ok {
    fromRoot := s.toList.head? == some '/'
    parts := (s.splitOn "/").filter (· ≠ "")
    slashed := s.toList.getLast? == some '/' }

end Path

/-- Directories and files, and the directory that is worked in. -/
structure FileTree where
  entries : List (Place × Entry) := []
  here : Place := []

namespace FileTree

/-- What is at a place; the root is always there. -/
def at? (f : FileTree) : Place → Option Entry
  | [] => some .directory
  | place => f.entries.lookup place

/-- Tests that a directory is at a place. -/
def checkDirectory (f : FileTree) (place : Place) : Except FileFault Unit :=
  match f.at? place with
  | some .directory => .ok ()
  | some _ => .error .notADirectory
  | none => .error .missing

/-- The place that a part of a path names in a directory. The root is above itself. -/
def enter (directory : Place) (part : String) : Except FileFault Place :=
  if part = "." then .ok directory
  else if part = ".." then .ok directory.tail
  else if Path.longestName < part.utf8ByteSize then .error .nameTooLong
  else .ok (part :: directory)

/-- Follows parts of a path; there must be a directory wherever another part follows. -/
def follow (f : FileTree) : Place → List String → Except FileFault Place
  | place, [] => .ok place
  | place, part :: parts => do
    f.checkDirectory place
    f.follow (← enter place part) parts

/-- The place where a path begins. -/
def origin (f : FileTree) (p : Path) : Place := if p.fromRoot then [] else f.here

/-- The tree with an entry replaced or added. -/
def put (f : FileTree) (place : Place) (e : Entry) : FileTree :=
  { f with entries := (place, e) :: f.entries.filter fun (other, _) => other != place }

/-- Reads a file. -/
def read (f : FileTree) (name : String) : Except FileFault String := do
  let path ← Path.ofText name
  let place ← f.follow (f.origin path) path.parts
  match f.at? place with
  | none => throw .missing
  | some .directory => throw .isADirectory
  | some (.file bytes) => if path.slashed then throw .notADirectory else textOf bytes
  | some .sink => if path.slashed then throw .notADirectory else return ""

/-- Writes a file, which is made if its directory is there. -/
def write (f : FileTree) (name content : String) : Except FileFault FileTree := do
  let path ← Path.ofText name
  if path.slashed then
    f.checkDirectory (← f.follow (f.origin path) path.parts.dropLast)
    throw .isADirectory
  else
    let place ← f.follow (f.origin path) path.parts
    match f.at? place with
    | some .directory => throw .isADirectory
    | some .sink => return f
    | _ => return f.put place (.file content.toUTF8)

/-- The operations on files in memory. -/
def operations : Files (StateM FileTree) where
  read name := do return (← get).read name
  write name content := do
    match (← get).write name content with
    | .ok f => do set f; return .ok ()
    | .error e => return .error e

/-- The directories at the root of a system. -/
def topDirectories : List String :=
  ["bin", "boot", "dev", "etc", "home", "lib", "media", "mnt", "opt", "proc", "root", "run", "sbin",
    "srv", "sys", "tmp", "usr", "var"]

/-- A system with an empty directory that is worked in. -/
def fresh : FileTree where
  entries :=
    (["null", "dev"], .sink) :: (["work", "tmp"], .directory) ::
      topDirectories.map fun name => ([name], .directory)
  here := ["work", "tmp"]

/-- Adds a file below a directory, with the directories on the way to it. -/
def addBelow (bytes : ByteArray) : Place → List String → FileTree → FileTree
  | _, [], f => f
  | above, [name], f => f.put (name :: above) (.file bytes)
  | above, name :: parts, f =>
    addBelow bytes (name :: above) parts (f.put (name :: above) .directory)

/-- Adds a file under a name below the directory that is worked in. -/
def add (f : FileTree) (name : String) (bytes : ByteArray) : FileTree :=
  addBelow bytes f.here ((name.splitOn "/").filter (· ≠ "")) f

theorem at?_put (f : FileTree) (place : Place) (e : Entry) (h : place ≠ []) :
    (f.put place e).at? place = some e := by
  cases place with
  | nil => exact absurd rfl h
  | cons name above => simp [at?, put]

/-- Two ways in a row are followed one after the other. -/
theorem follow_append (f : FileTree) (place : Place) (ps qs : List String) :
    f.follow place (ps ++ qs) = f.follow place ps >>= fun place => f.follow place qs := by
  induction ps generalizing place with
  | nil => rfl
  | cons p ps ih =>
    simp only [List.cons_append, follow]
    cases f.checkDirectory place with
    | error e => rfl
    | ok u =>
      cases hp : enter place p with
      | error e => rfl
      | ok next => exact ih next

end FileTree

end Variation.CommandLine
