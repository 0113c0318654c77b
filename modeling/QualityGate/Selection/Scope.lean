import QualityGate.Selection.Exclusion
import QualityGate.Selection.Ignore

/-! The files of a run: all Python files below a root, or those of them that changed
since they were committed. Both leave out what ignore files name; the former also leaves
out hidden files. Without any changed file the run is over all of them. -/
namespace QualityGate

/-- A repository: the directory at its top and the committed files. -/
structure Repository where
  top : Names
  committed : List (Names × ByteArray)

namespace Scope

/-- The files and the repository that files are selected from. -/
structure Source where
  tree : FileTree
  repository : Option Repository := none

/-- Whether the name of a file ends like a Python module's. -/
def isPython (name : String) : Bool :=
  3 < name.length && ['.', 'p', 'y'].isSuffixOf name.toList

def isHidden (name : String) : Bool := name.toList.head? = some '.'

def Source.repositoryAt (s : Source) (names : Names) : Option Repository :=
  s.repository.filter (·.top.isPrefixOf names)

/-- Whether ignore files leave out a file or a directory on its own. Those named `.ignore`
come first, and those of the repository count only inside it. -/
def Source.ignores (s : Source) (names : Names) (isDirectory : Bool) : Bool :=
  let own := IgnoreFile.nearest? s.tree ".ignore" names isDirectory 0
  let shared := (s.repositoryAt names).bind fun r =>
    IgnoreFile.nearest? s.tree ".gitignore" names isDirectory r.top.length
  (own.or shared).getD false

/-- Whether a property holds of a file or of a directory between it and one that is so
many names below the top. -/
def anyOnTheWay (p : Names → Bool → Bool) (names : Names) (top : Nat) : Bool :=
  (List.range (names.length + 1)).any fun n =>
    top < n && p (names.take n) (decide (n < names.length))

/-- The Python files below a directory, by the names on the way from it. -/
def Source.pythonFiles (s : Source) (root : Names) : List Names :=
  (s.tree.files.map (·.1)).filterMap fun names =>
    if root.isPrefixOf names && names.getLast?.any isPython then
      some (names.drop root.length)
    else none

/-- All files of a run over a directory. -/
def Source.all (s : Source) (root : Names) : List Names :=
  (s.pythonFiles root).filter fun names =>
    !names.any isHidden && !anyOnTheWay s.ignores (root ++ names) root.length

/-- Whether a repository leaves out a file that was not committed. -/
def Source.untracked (s : Source) (r : Repository) (names : Names) : Bool :=
  let ignored (names : Names) (isDirectory : Bool) : Bool :=
    (IgnoreFile.nearest? s.tree ".gitignore" names isDirectory r.top.length).getD false
  !anyOnTheWay ignored names r.top.length

def Source.isChanged (s : Source) (r : Repository) (names : Names) : Bool :=
  match r.committed.lookup names with
  | some old => (s.tree.files.lookup names).any (·.data != old.data)
  | none => s.untracked r names

/-- The changed files below a directory; there are none outside a repository. -/
def Source.changed (s : Source) (root : Names) : List Names :=
  match s.repositoryAt root with
  | none => []
  | some r => (s.pythonFiles root).filter fun names => s.isChanged r (root ++ names)

def join (root : Path) (names : Names) : Path := names.foldl (fun p n => p.append ⟨n⟩) root

/-- The files of a run over a root, in order, each one once. -/
def Source.select (s : Source) (root : Path) (changedOnly : Bool) (e : Exclusion) : List Path :=
  match s.tree.directory? root with
  | none => []
  | some names =>
    let changed := if changedOnly then s.changed names else []
    let found := if changed.isEmpty then s.all names else changed
    let files := (found.map (join root)).filter fun p => !e.covers p root
    (files.mergeSort fun p q => p.compare q != .gt).eraseReps

end Scope

end QualityGate
