import QualityGate.Advice

/-! The outcome of a run: the violations, counts of them along several axes, the
decision whether the gate blocks, and advice. -/
namespace QualityGate

/-- Counts and breakdowns of a run. A breakdown lists the positive counts in
reporting order. -/
structure Summary where
  filesAnalyzed : Nat
  filesSkipped : Nat
  errors : Nat
  warnings : Nat
  coreViolations : Nat
  shellWarnings : Nat
  blocked : Bool
  byKind : List (Kind × Nat)
  byFamily : List (Family × Nat)
  byPrinciple : List (Principle × Nat)
deriving DecidableEq, Repr

structure Report where
  allowed : Bool
  violations : List Violation
  summary : Summary
  recommendations : List String
  architectureHint : String
deriving DecidableEq, Repr

/-- Errors block; warnings block in strict mode. -/
def isBlocking (errors warnings : Nat) (strict : Bool) : Bool :=
  0 < errors || (strict && 0 < warnings)

/-- How often each key occurs, without the keys that never do. -/
def tally {κ : Type} [DecidableEq κ] (keys : List κ) (xs : List κ) : List (κ × Nat) :=
  (keys.map fun k => (k, xs.count k)).filter (0 < ·.2)

namespace Summary

def ofViolations (vs : List Violation) (filesAnalyzed filesSkipped : Nat) (strict : Bool) : Summary :=
  let errors := vs.countP (·.severity = .error)
  let warnings := vs.countP (·.severity = .warning)
  { filesAnalyzed, filesSkipped, errors, warnings
    coreViolations := vs.countP (·.scope = .core)
    shellWarnings := vs.countP (·.scope = .shell)
    blocked := isBlocking errors warnings strict
    byKind := tally Kind.all (vs.map (·.kind))
    byFamily := tally Family.all (vs.map (·.kind.family))
    byPrinciple := tally Principle.all (vs.filterMap (·.kind.principle?)) }

end Summary

namespace Report

def ofViolations (vs : List Violation) (filesAnalyzed filesSkipped : Nat) (strict : Bool) : Report :=
  let summary := Summary.ofViolations vs filesAnalyzed filesSkipped strict
  { allowed := !summary.blocked
    violations := vs
    summary
    recommendations := QualityGate.recommendations vs
    architectureHint := QualityGate.architectureHint }

def isBlocked (r : Report) : Bool := r.summary.blocked

def hasErrors (r : Report) : Bool := 0 < r.summary.errors

def bySeverity (r : Report) (s : Severity) : List Violation := r.violations.filter (·.severity = s)

def ofKind (r : Report) (k : Kind) : List Violation := r.violations.filter (·.kind = k)

end Report

end QualityGate
