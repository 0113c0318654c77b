import QualityGate.Glob
import QualityGate.Path

/-! Files that are left out of a run: those that a pattern matches, either as they are
spelt or by what remains of them below the scope root. -/
namespace QualityGate

/-- Compiled patterns of what is left out. -/
structure Exclusion where
  globs : List Glob
deriving DecidableEq, Repr

namespace Exclusion

structure BadPattern where
  pattern : String
  error : Glob.Error
deriving DecidableEq, Repr

def BadPattern.message (e : BadPattern) : String :=
  "Invalid exclude pattern: " ++ e.pattern ++ ": " ++ e.error.message

/-- Compiles patterns; the first bad one is the error. -/
def compile (patterns : List String) : Except BadPattern Exclusion := do
  let globs ← patterns.mapM fun p => (Glob.compile p).mapError (BadPattern.mk p)
  return { globs }

/-- Whether a file is left out of a run over a root. -/
def covers (e : Exclusion) (path root : Path) : Bool :=
  let inner := (Path.below? root path).getD path
  e.globs.any fun g => g.isMatch inner.text.toList || g.isMatch path.text.toList

end Exclusion

end QualityGate
