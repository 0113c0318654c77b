import QualityGate.Family
import QualityGate.Path
import QualityGate.Violation.Kind

/-! A violation: what was found, where, by which rule, and in a file of which
role. Findings of a metric carry the value and the limit, the others a message. -/
namespace QualityGate

structure Violation where
  file : Path
  function : Option String := none
  line : Nat
  kind : Kind
  severity : Severity
  value : Option Nat := none
  threshold : Option Nat := none
  message : Option String := none
  context : String := ""
  rule : String
  scope : Tag := .core
deriving DecidableEq, Repr

namespace Violation

/-- The message, or the value beside its limit, or the value alone. -/
def detail (v : Violation) : String :=
  match v.message, v.value, v.threshold with
  | some m, _, _ => m
  | none, some n, some t => toString n ++ " > " ++ toString t
  | none, some n, none => toString n
  | none, none, _ => ""

/-- The position of a violation as `file:line`. -/
def position (v : Violation) : String := v.file.text ++ ":" ++ toString v.line

/-- One line: position, severity, kind and detail. -/
def summaryLine (v : Violation) : String :=
  v.position ++ ": " ++ v.severity.name ++ " [" ++ v.kind.name ++ "] " ++ v.detail

/-- Where a violation was found, when it was inside a function. -/
def functionNote (v : Violation) : String :=
  match v.function with
  | some f => " in " ++ f ++ "()"
  | none => ""

def contextLine (v : Violation) : String :=
  if v.context.isEmpty then ""
  else "  = context: " ++ v.context ++ " (" ++ v.scope.name ++ ")\n"

/-- A few lines: kind, rule and position, then severity and detail, then the context. -/
def block (v : Violation) : String :=
  v.kind.name ++ " " ++ v.rule ++ " at " ++ v.position ++ v.functionNote ++ "\n"
    ++ "  " ++ v.severity.name ++ ": " ++ v.detail ++ "\n"
    ++ v.contextLine

end Violation

end QualityGate
