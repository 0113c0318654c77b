import QualityGate.Rule.Basic
import QualityGate.Rule.Complexity
import QualityGate.Rule.Design
import QualityGate.Rule.ErrorHandling
import QualityGate.Rule.Purity

/-! The built-in rules, one for each family, and the ways to name them: by name, by
code in any case, or by family. -/
namespace QualityGate.Rule

/-- The rule on the size and the branching of functions. -/
def complexity : Rule where
  name := Complexity.ruleName
  code := "QG001"
  description := "Limits cyclomatic/cognitive complexity, nesting, length and parameters"
  family := .complexity
  check := Complexity.check

/-- The rule on the principles of object-oriented design. -/
def design : Rule where
  name := Design.ruleName
  code := "QG002"
  description := "Checks SOLID heuristics (god classes, isinstance cascades, fat interfaces, ...)"
  family := .design
  check := Design.check

/-- The rule on effects and shared state in the core. -/
def purity : Rule where
  name := Purity.ruleName
  code := "QG003"
  description := "Keeps I/O, global state and async out of functional-core code"
  family := .purity
  check := Purity.check

/-- The rule on exception handlers. -/
def errorHandling : Rule where
  name := ErrorHandling.ruleName
  code := "QG004"
  description := "Detects bare except, silent handlers, swallowed exceptions and nested try"
  family := .errorHandling
  check := ErrorHandling.check

def all : List Rule := [complexity, design, purity, errorHandling]

/-- A text with its ASCII capitals made small. -/
def foldCase (s : String) : List Char := s.toList.map Char.toLower

/-- Whether a key names a rule. -/
def answersTo (r : Rule) (key : String) : Bool :=
  r.name = key || foldCase r.code = foldCase key || r.family.name = key

def find? (key : String) : Option Rule := all.find? (·.answersTo key)

/-- The rules of some families, in reporting order. -/
def forFamilies (fs : List Family) : List Rule := all.filter (·.family ∈ fs)

end QualityGate.Rule
