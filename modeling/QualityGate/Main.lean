import QualityGate.Command.Run

/-! The program. It takes a snapshot of the files that its arguments and its environment
can lead to, runs the command on the snapshot, and does what the outcome says. What was
committed to a repository is not looked up, so no file counts as changed there. -/
namespace QualityGate.Program

/-- What can be known about something below the root of the system. -/
structure Found where
  files : List (Names × ByteArray) := []
  directories : List Names := []

def Found.append (a b : Found) : Found := ⟨a.files ++ b.files, a.directories ++ b.directories⟩

/-- A path from the root of the system. -/
def absolute (names : Names) : String := "/" ++ Text.joinStrings "/" names

/-- Whether the command reads files of a name. -/
def matters (name : String) : Bool :=
  [".py", ".toml", "ignore"].any fun s => s.toList.isSuffixOf name.toList

/-- A file by itself; nothing if it cannot be read. -/
def readFile (names : Names) : IO Found := do
  try
    return { files := [(names, ← IO.FS.readBinFile (absolute names))] }
  catch _ => return {}

/-- Everything below a directory that matters; links are not followed. -/
partial def readDirectory (names : Names) : IO Found := do
  let entries ←
    try ((← IO.currentDir) / absolute names).readDir catch _ => return {}
  let mut found : Found := { directories := [names] }
  for entry in entries do
    let inner := names ++ [entry.fileName]
    let kind ← try pure (← entry.path.symlinkMetadata).type catch _ => pure .other
    if kind == .dir && entry.fileName != ".git" then
      found := found.append (← readDirectory inner)
    else if kind == .file && matters entry.fileName then
      found := found.append (← readFile inner)
  return found

/-- The names that a path leads to from a directory, as it is spelt. -/
def follow (here : Names) (p : Path) : Names :=
  p.components.foldl (fun names c =>
    match c with
    | .root => []
    | .current => names
    | .parent => names.dropLast
    | .normal s => names ++ [String.ofList s]) here

/-- What a path from the working directory leads to, with the ignore files above it. -/
def readPath (here : Names) (path : String) : IO Found := do
  let target := (← IO.currentDir) / path
  unless ← target.pathExists do return {}
  let names := follow here ⟨path⟩
  let mut found ← if ← target.isDir then readDirectory names else readFile names
  for n in List.range names.length do
    for file in [".ignore", ".gitignore"] do
      found := found.append (← readFile (names.take n ++ [file]))
  return found

/-- The nearest repository around a directory; nothing in it counts as changed. -/
def findRepository (here : Names) (files : List (Names × ByteArray)) :
    IO (Option Repository) := do
  for n in (List.range (here.length + 1)).reverse do
    let top := here.take n
    if ← ((← IO.currentDir) / absolute (top ++ [".git"])).pathExists then
      return some { top, committed := files }
  return none

/-- The texts of arguments that may be paths. -/
def candidates (arguments : List String) : List String :=
  arguments ++ arguments.map fun a =>
    String.ofList ((a.toList.dropWhile (· != '=')).drop 1)

end QualityGate.Program

open QualityGate QualityGate.Program in
def main (arguments : List String) : IO UInt32 := do
  let here := FileTree.namesOf ⟨(← IO.currentDir).toString⟩
  let home := (← IO.getEnv "HOME").map fun h => (QualityGate.Path.mk h).append ⟨".qgate"⟩
  let configDirectory := ((← IO.getEnv "QGATE_CONFIG_DIR").map QualityGate.Path.mk).or home
  let shared := configDirectory.map fun d => (d.append ⟨"config.toml"⟩).text
  let mut found ← readPath here "."
  for path in candidates arguments ++ shared.toList do
    unless path.isEmpty do found := found.append (← readPath here path)
  let tree : FileTree := { files := found.files, directories := found.directories, here? := some here }
  let repository ← findRepository here found.files
  let outcome := Command.run { source := { tree, repository }, configDirectory } arguments
  if let some (path, text) := outcome.written then IO.FS.writeFile path.text text
  IO.print outcome.output
  unless outcome.complaint.isEmpty do IO.eprintln outcome.complaint
  return outcome.exit.code.toUInt32
