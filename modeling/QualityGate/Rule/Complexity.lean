import QualityGate.DottedName
import QualityGate.Metrics
import QualityGate.Rule.Basic
import QualityGate.Violation.Basic

/-! The complexity rule. Every function, however deep it sits, is measured once,
and each measure above its limit is a violation under the function's qualified
name. A file that is too long is one more violation, in front of the others. -/
namespace QualityGate.Rule.Complexity

def ruleName : String := "complexity"

/-- The violation for a measure of a function, if it is above its limit. -/
def exceeding (c : FileContext) (line : Nat) (scope : List String) (name : String) (kind : Kind)
    (severity : Severity) (value limit : Nat) : List Violation :=
  if limit < value then
    [{ file := c.path, function := some name, line, kind, severity, value := some value
       threshold := some limit, context := DottedName.qualified scope name, rule := ruleName }]
  else []

/-- The violation for cyclomatic complexity: reported above the warning limit, an error
above the maximum. The maximum is the limit it is shown with. -/
def branching (c : FileContext) (line : Nat) (scope : List String) (name : String) (value : Nat) :
    List Violation :=
  let t := c.thresholds
  if t.warningComplexity < value then
    [{ file := c.path, function := some name, line, kind := .complexity
       severity := if t.maxComplexity < value then .error else .warning
       value := some value, threshold := some t.maxComplexity
       context := DottedName.qualified scope name, rule := ruleName }]
  else []

/-- The violations of one function, given its measures and the names around it. -/
def ofFunction (c : FileContext) (line : Nat) (scope : List String) (name : String)
    (m : FunctionMetrics) : List Violation :=
  let t := c.thresholds
  branching c line scope name m.complexity
    ++ exceeding c line scope name .length .error m.length t.maxFunctionLines
    ++ exceeding c line scope name .parameters .warning m.parameters t.maxParameters
    ++ exceeding c line scope name .nesting .error m.nesting t.maxNestingDepth
    ++ exceeding c line scope name .cognitiveComplexity .error m.cognitive t.maxCognitiveComplexity

/-- The violations in a tree below definitions with the given names, outermost first. -/
def ofNode (c : FileContext) (scope : List String) : Node → List Violation
  | .functionDef span head body =>
    ofFunction c span.first scope head.name
        (FunctionMetrics.measure (.functionDef span head body) head)
      ++ body.flatMap fun n => ofNode c (scope ++ [head.name]) n
  | .classDef _ head body => body.flatMap fun n => ofNode c (scope ++ [head.name]) n
  | n => n.children.attach.flatMap fun ⟨k, _⟩ => ofNode c scope k
termination_by n => sizeOf n
decreasing_by all_goals exact Node.sizeOf_lt_of_mem_children ‹_›

/-- The violation for a file that is too long. -/
def ofLength (c : FileContext) (lines : Nat) : List Violation :=
  if c.thresholds.maxFileLines < lines then
    [{ file := c.path, line := 1, kind := .fileLength, severity := .warning, value := some lines
       threshold := some c.thresholds.maxFileLines, context := "<module>", rule := ruleName }]
  else []

def check (c : FileContext) (u : SourceUnit) : List Violation :=
  ofLength c u.lineCount ++ u.body.flatMap (ofNode c [])

end QualityGate.Rule.Complexity
