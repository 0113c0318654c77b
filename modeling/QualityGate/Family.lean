/-! The four families of rules and the role of a file: functional core or imperative shell. Each
family has its own policy on which files are core and which are shell, and its own kinds of
violation. -/
namespace QualityGate

/-- A family of rules, in reporting order. -/
inductive Family where
  | complexity
  | design
  | purity
  | errorHandling
deriving DecidableEq, Repr, Inhabited

namespace Family

def all : List Family := [.complexity, .design, .purity, .errorHandling]

/-- The name used in configuration keys. -/
def name : Family → String
  | .complexity => "complexity"
  | .design => "design"
  | .purity => "purity"
  | .errorHandling => "error-handling"

def ofName? (s : String) : Option Family := all.find? (·.name = s)

theorem mem_all (f : Family) : f ∈ all := by cases f <;> decide

theorem ofName?_name (f : Family) : ofName? f.name = some f := by cases f <;> decide

end Family

/-- Core files hold the logic that should stay pure; shell files hold the edges. -/
inductive Tag where
  | core
  | shell
deriving DecidableEq, Repr, Inhabited

def Tag.name : Tag → String
  | .core => "core"
  | .shell => "shell"

def Tag.ofName? (s : String) : Option Tag := [Tag.core, .shell].find? (·.name = s)

end QualityGate
