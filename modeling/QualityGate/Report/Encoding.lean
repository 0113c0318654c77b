import QualityGate.Json.Value
import QualityGate.Report.Basic
import QualityGate.Text.Basic

/-! Violations and reports as JSON. Members that hold a measure or a message are left
out when there is none; reading takes them as null too, passes over members it does not
know, and refuses a member that occurs twice. -/
namespace QualityGate

open Json (Value)

/-! ### Writing -/

/-- A member that is there only with a value. -/
def optionalMember {α : Type} (key : String) (f : α → Value) (o : Option α) :
    List (String × Value) :=
  (o.map fun a => (key, f a)).toList

def Violation.members (v : Violation) : List (String × Value) :=
  [("file", .string v.file.text), ("function", .ofOption .string v.function),
   ("line", .nat v.line), ("violation_type", .string v.kind.name),
   ("severity", .string v.severity.name)]
    ++ optionalMember "value" .nat v.value
    ++ optionalMember "threshold" .nat v.threshold
    ++ optionalMember "message" .string v.message
    ++ [("context", .string v.context), ("rule", .string v.rule), ("scope", .string v.scope.name)]

def Violation.toJson (v : Violation) : Value := .object v.members

def breakdownToJson {κ : Type} (name : κ → String) (counts : List (κ × Nat)) : Value :=
  .object (counts.map fun (k, n) => (name k, .nat n))

def Summary.members (s : Summary) : List (String × Value) :=
  [("files_analyzed", .nat s.filesAnalyzed), ("files_skipped", .nat s.filesSkipped),
   ("errors", .nat s.errors), ("warnings", .nat s.warnings),
   ("core_violations", .nat s.coreViolations), ("shell_warnings", .nat s.shellWarnings),
   ("blocked", .bool s.blocked), ("by_type", breakdownToJson Kind.name s.byKind),
   ("by_family", breakdownToJson Family.name s.byFamily),
   ("by_principle", breakdownToJson Principle.name s.byPrinciple)]

def Summary.toJson (s : Summary) : Value := .object s.members

def Report.members (r : Report) : List (String × Value) :=
  [("allowed", .bool r.allowed), ("violations", .ofList Violation.toJson r.violations),
   ("summary", r.summary.toJson), ("recommendations", .ofList .string r.recommendations),
   ("architecture_hint", .string r.architectureHint)]

def Report.toJson (r : Report) : Value := .object r.members

/-! ### Reading -/

namespace Decode

/-- The members of an object that a key names. -/
def occurrences (key : String) (members : List (String × Value)) : List Value :=
  members.filterMap fun m => if m.1 = key then some m.2 else none

/-- The value of a key that must occur at most once. -/
def member? (members : List (String × Value)) (key : String) : Option (Option Value) :=
  match occurrences key members with
  | [] => some none
  | [v] => some (some v)
  | _ => none

/-- The value of a key that must occur exactly once. -/
def required {α : Type} (read : Value → Option α) (members : List (String × Value))
    (key : String) : Option α := do
  let v ← member? members key
  read (← v)

/-- The value of a key that may be missing, with a default. -/
def withDefault {α : Type} (default : α) (read : Value → Option α)
    (members : List (String × Value)) (key : String) : Option α := do
  match ← member? members key with
  | none => return default
  | some v => read v

def nullable {α : Type} (read : Value → Option α) : Value → Option (Option α)
  | .null => some none
  | v => (read v).map some

/-- A natural number of at most 64 bits. -/
def nat : Value → Option Nat
  | .integer (.ofNat n) => if Text.fitsUnsigned n then some n else none
  | _ => none

def string : Value → Option String
  | .string s => some s
  | _ => none

def bool : Value → Option Bool
  | .bool b => some b
  | _ => none

def list {α : Type} (read : Value → Option α) : Value → Option (List α)
  | .array items => items.mapM read
  | _ => none

/-- One of several named things: its name, or an object that maps its name to null. -/
def named {α : Type} (ofName? : String → Option α) : Value → Option α
  | .string s => ofName? s
  | .object [(s, .null)] => ofName? s
  | _ => none

/-- Counts by a named key, in the order of all keys; of several counts for one key, the last
one holds. -/
def breakdown {κ : Type} [DecidableEq κ] (keys : List κ) (ofName? : String → Option κ) :
    Value → Option (List (κ × Nat))
  | .object members => do
    let counts ← members.mapM fun (k, v) => return (← ofName? k, ← nat v)
    return keys.filterMap fun k => (counts.reverse.lookup k).map (k, ·)
  | _ => none

end Decode

open Decode

def Violation.keys : List String :=
  ["file", "function", "line", "violation_type", "severity", "value", "threshold", "message",
   "context", "rule", "scope"]

def Violation.ofMembers (ms : List (String × Value)) : Option Violation := do
  return { file := ⟨← required string ms "file"⟩
           function := ← withDefault none (nullable string) ms "function"
           line := ← required nat ms "line"
           kind := ← required (named Kind.ofName?) ms "violation_type"
           severity := ← required (named Severity.ofName?) ms "severity"
           value := ← withDefault none (nullable nat) ms "value"
           threshold := ← withDefault none (nullable nat) ms "threshold"
           message := ← withDefault none (nullable string) ms "message"
           context := ← withDefault "" string ms "context"
           rule := ← required string ms "rule"
           scope := ← required (named Tag.ofName?) ms "scope" }

/-- A violation from JSON: an object, or an array of all values in order. -/
def Violation.ofJson : Value → Option Violation
  | .object ms => ofMembers ms
  | .array items =>
    if items.length = keys.length then ofMembers (keys.zip items) else none
  | _ => none

def Summary.ofJson : Value → Option Summary
  | .object ms => do
    return { filesAnalyzed := ← required nat ms "files_analyzed"
             filesSkipped := ← required nat ms "files_skipped"
             errors := ← required nat ms "errors"
             warnings := ← required nat ms "warnings"
             coreViolations := ← required nat ms "core_violations"
             shellWarnings := ← required nat ms "shell_warnings"
             blocked := ← required bool ms "blocked"
             byKind := ← required (breakdown Kind.all Kind.ofName?) ms "by_type"
             byFamily := ← required (breakdown Family.all Family.ofName?) ms "by_family"
             byPrinciple := ← required (breakdown Principle.all Principle.ofName?) ms "by_principle" }
  | _ => none

def Report.ofJson : Value → Option Report
  | .object ms => do
    return { allowed := ← required bool ms "allowed"
             violations := ← required (list Violation.ofJson) ms "violations"
             summary := ← required Summary.ofJson ms "summary"
             recommendations := ← required (list string) ms "recommendations"
             architectureHint := ← withDefault "" string ms "architecture_hint" }
  | _ => none

end QualityGate
