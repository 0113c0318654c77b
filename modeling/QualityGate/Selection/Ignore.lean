import QualityGate.Glob
import QualityGate.Selection.FileTree
import QualityGate.Text.Segments

/-! Ignore files. Every line is a pattern: `!` takes files back in, a slash at the end
asks for a directory, and a slash elsewhere ties the pattern to the directory of the
ignore file; without one it fits a name at any depth. The last pattern that fits decides,
and a nearer ignore file decides before a farther one. -/
namespace QualityGate

/-- One line of an ignore file; the pattern is split at its slashes. -/
structure IgnorePattern where
  takesBack : Bool
  directoryOnly : Bool
  isAnchored : Bool
  names : List Glob

namespace IgnorePattern

/-- A pattern without blanks behind it. -/
def trimRight (cs : List Char) : List Char :=
  (cs.reverse.dropWhile fun c => c = ' ' || c = '\r').reverse

/-- Reads a line; blank lines, comments and broken patterns say nothing. -/
def ofLine? (line : List Char) : Option IgnorePattern := do
  let cs := trimRight line
  if cs.head? = some '#' then none
  let takesBack := cs.head? = some '!'
  let cs := if takesBack then cs.drop 1 else cs
  let cs := if cs.head? = some '\\' then cs.drop 1 else cs
  let directoryOnly := cs.getLast? = some '/'
  let cs := if directoryOnly then cs.dropLast else cs
  let segments := (Text.split '/' cs).filter (!·.isEmpty)
  if segments.isEmpty then none
  match segments.mapM fun s => (Glob.compile (String.ofList s)).toOption with
  | some names => some { takesBack, directoryOnly, isAnchored := cs.contains '/', names }
  | none => none

/-- Whether globs fit names one by one; two stars alone fit any number of names. -/
def fitNames : List Glob → Names → Bool
  | [], [] => true
  | [], _ :: _ => false
  | g :: gs, [] => g.elements = [.anyComponents] && fitNames gs []
  | g :: gs, n :: ns =>
    if g.elements = [.anyComponents] then fitNames gs (n :: ns) || fitNames (g :: gs) ns
    else g.isMatch n.toList && fitNames gs ns

/-- Whether a pattern fits a file or a directory, by the names below its ignore file. -/
def fits (p : IgnorePattern) (names : Names) (isDirectory : Bool) : Bool :=
  (isDirectory || !p.directoryOnly)
    && (if p.isAnchored then fitNames p.names names
        else fitNames p.names (names.drop (names.length - 1)))

end IgnorePattern

structure IgnoreFile where
  patterns : List IgnorePattern

namespace IgnoreFile

def ofText (text : String) : IgnoreFile :=
  ⟨(Text.split '\n' text.toList).filterMap IgnorePattern.ofLine?⟩

/-- What an ignore file says about names below it: `true` to leave them out, `false` to
keep them. -/
def verdict? (f : IgnoreFile) (names : Names) (isDirectory : Bool) : Option Bool :=
  (f.patterns.reverse.find? (·.fits names isDirectory)).map (!·.takesBack)

/-- The ignore file of a name in a directory. -/
def find? (t : FileTree) (directory : Names) (name : String) : Option IgnoreFile := do
  match t.files.lookup (directory ++ [name]) with
  | some contents => (String.fromUTF8? contents).map ofText
  | none => none

/-- What ignore files of a name say about names, from the nearest directory up to one that
is so many names below the top. -/
def nearest? (t : FileTree) (name : String) (names : Names) (isDirectory : Bool)
    (top : Nat) : Option Bool :=
  ((List.range names.length).filter (top ≤ ·)).reverse.findSome? fun n => do
    (← find? t (names.take n) name).verdict? (names.drop n) isDirectory

end IgnoreFile

end QualityGate
