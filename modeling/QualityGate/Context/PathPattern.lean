import QualityGate.Glob
import QualityGate.Path

/-! Patterns that pick files by their path. A plain name matches a path component;
anything with wildcards, a slash or a dot is a glob, which also matches when its
text without stars stands anywhere in the path. -/
namespace QualityGate

inductive PathPattern where
  | component (name : List Char)
  | glob (pattern : Glob) (fragment : List Char)
deriving DecidableEq, Repr

/-- The text of a path as globs see it, with slashes for backslashes. -/
def Path.globText (p : Path) : List Char :=
  p.text.toList.map fun c => if c = '\\' then '/' else c

namespace PathPattern

/-- Whether a pattern is a glob. -/
def hasGlobMark (raw : List Char) : Bool :=
  raw.any fun c => c = '*' || c = '?' || c = '[' || c = '/' || c = '.'

def trimSlashes (cs : List Char) : List Char :=
  ((cs.dropWhile (· = '/')).reverse.dropWhile (· = '/')).reverse

/-- The text of a pattern without stars and without slashes at its ends. -/
def fragmentOf (raw : List Char) : List Char :=
  trimSlashes (raw.filter (· ≠ '*'))

def parse (raw : String) : Except Glob.Error PathPattern :=
  if hasGlobMark raw.toList then
    (Glob.compile raw).map fun g => .glob g (fragmentOf raw.toList)
  else .ok (.component raw.toList)

def isMatch (pattern : PathPattern) (p : Path) : Bool :=
  match pattern with
  | .component name => p.components.any (· = .normal name)
  | .glob g fragment =>
    let text := p.globText
    g.isMatch text || (!fragment.isEmpty && Text.occursIn fragment text)

end PathPattern

end QualityGate
