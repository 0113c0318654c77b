import QualityGate.Path

/-! The files of a system, or of a working directory, as a value. A file is found under
the names on the way to it; a directory exists where some file lies below it. Paths are
followed name by name, so that a path through a missing name or through a file leads
nowhere. -/
namespace QualityGate

/-- The way to a file or a directory, name by name. -/
abbrev Names := List String

/-- Files under the names on the way to them, and further directories. Of two files under
the same names the first one counts. If nothing outside the working directory is known,
the names start there; otherwise they start at the root, and `here?` leads to the working
directory. -/
structure FileTree where
  files : List (Names × ByteArray)
  directories : List Names := []
  here? : Option Names := none

namespace FileTree

/-- What a path leads to. -/
inductive Entry where
  | file (contents : ByteArray)
  | directory

/-- Why a path leads nowhere. -/
inductive Missing where
  | noSuchFile
  | notADirectory
deriving DecidableEq, Repr

/-- The system's wording for a path that leads nowhere. -/
def Missing.message : Missing → String
  | .noSuchFile => "No such file or directory (os error 2)"
  | .notADirectory => "Not a directory (os error 20)"

/-- The system's wording for a directory that is read as a file. -/
def isADirectory : String := "Is a directory (os error 21)"

/-- Whether some file or listed directory lies at or below names. -/
def hasDirectory (t : FileTree) (names : Names) : Bool :=
  names.isEmpty
    || t.files.any (fun f => names.isPrefixOf f.1 && names.length < f.1.length)
    || t.directories.any names.isPrefixOf

def entry? (t : FileTree) (names : Names) : Option Entry :=
  match t.files.lookup names with
  | some contents => some (.file contents)
  | none => if t.hasDirectory names then some .directory else none

/-- The directory above one; what is above a working directory may not be known. -/
def above (t : FileTree) (names : Names) : Except Missing Names :=
  if names.isEmpty && t.here?.isNone then .error .noSuchFile else .ok names.dropLast

/-- Follows one segment of a path from where the path has led so far. -/
def step (t : FileTree) (names : Names) (segment : List Char) : Except Missing Names :=
  match t.entry? names with
  | none => .error .noSuchFile
  | some (.file _) => .error .notADirectory
  | some .directory =>
    if Path.isVoid segment then .ok names
    else if segment = ['.', '.'] then t.above names
    else .ok (names ++ [String.ofList segment])

/-- Where a path starts. -/
def origin (t : FileTree) (p : Path) : Except Missing Names :=
  if p.text.isEmpty then .error .noSuchFile
  else if p.isAbsolute then
    if t.here?.isNone then .error .noSuchFile else .ok []
  else .ok (t.here?.getD [])

/-- The names that a path leads to, and what lies there. -/
def locate (t : FileTree) (p : Path) : Except Missing (Names × Entry) := do
  let names ← p.segments.foldlM t.step (← t.origin p)
  match t.entry? names with
  | some e => return (names, e)
  | none => throw .noSuchFile

/-- The contents of the file that a path leads to, or why it cannot be read. -/
def read (t : FileTree) (p : Path) : Except String ByteArray :=
  match t.locate p with
  | .ok (_, .file contents) => .ok contents
  | .ok (_, .directory) => .error isADirectory
  | .error e => .error e.message

def isFile (t : FileTree) (p : Path) : Bool :=
  match t.locate p with
  | .ok (_, .file _) => true
  | _ => false

def isDirectory (t : FileTree) (p : Path) : Bool :=
  match t.locate p with
  | .ok (_, .directory) => true
  | _ => false

/-- The names that a directory's path leads to. -/
def directory? (t : FileTree) (p : Path) : Option Names :=
  match t.locate p with
  | .ok (names, .directory) => some names
  | _ => none

/-- The names that a path is made of; nothing is looked up. -/
def namesOf (p : Path) : Names :=
  p.components.filterMap fun c =>
    match c with
    | .normal s => some (String.ofList s)
    | _ => none

/-- The tree after files were written one after the other. -/
def ofFiles (files : List (Path × ByteArray)) : FileTree where
  files := (files.map fun (p, contents) => (namesOf p, contents)).reverse

end FileTree

end QualityGate
