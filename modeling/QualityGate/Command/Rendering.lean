import QualityGate.Command.Options
import QualityGate.Json.Value
import QualityGate.Report.Encoding
import QualityGate.Rule.Catalogue

/-! What the command prints: a report as lines for people, as JSON, or with one line for
each violation, and the table of all rules. -/
namespace QualityGate.Command

/-- Texts as lines, each with its end. -/
def lines (ls : List String) : String := String.join (ls.map (· ++ "\n"))

/-! ### Reports -/

inductive Colour where
  | red
  | green
  | yellow
deriving DecidableEq, Repr

/-- What switches a colour on. -/
def Colour.code : Colour → String
  | red => "\x1b[31m"
  | green => "\x1b[32m"
  | yellow => "\x1b[33m"

def Colour.paint (c : Colour) (s : String) : String := c.code ++ s ++ "\x1b[0m"

def severityColour : Severity → Colour
  | .error => .red
  | .warning => .yellow

def violationLines (v : Violation) : List String :=
  [v.position ++ v.functionNote ++ " [" ++ v.kind.name ++ "]",
   "  " ++ (severityColour v.severity).paint v.severity.name ++ ": " ++ v.detail]
    ++ (if v.context.isEmpty then []
        else ["  = context: " ++ v.context ++ " (" ++ v.scope.name ++ ")"])
    ++ [""]

/-- A heading with lines below it, if there are any. -/
def headed (heading : String) (body : List String) : List String :=
  if body.isEmpty then [] else heading :: body.map ("  " ++ ·) ++ [""]

/-- The verdict of the gate, in its colour. -/
def verdict (s : Summary) : String :=
  let colour :=
    if s.blocked then Colour.red else if 0 < s.warnings then .yellow else .green
  colour.paint
    ("Quality gate " ++ (if s.blocked then "BLOCKED" else "PASSED") ++ ": "
      ++ toString s.errors ++ " error(s), " ++ toString s.warnings ++ " warning(s) in "
      ++ toString s.filesAnalyzed ++ " file(s)")

def closingLines (r : Report) : List String :=
  let s := r.summary
  ["Core findings: " ++ toString s.coreViolations ++ ", Shell findings: "
      ++ toString s.shellWarnings]
    ++ (if 0 < s.filesSkipped then
          ["Skipped " ++ toString s.filesSkipped ++ " unparsable file(s)"]
        else [])
    ++ (if (s.byFamily.lookup .purity).isSome then ["", "Hint: " ++ r.architectureHint] else [])

/-- A report for people. -/
def renderText (r : Report) : String :=
  lines
    (r.violations.flatMap violationLines
      ++ headed "By principle:"
        (r.summary.byPrinciple.map fun (p, n) => p.name ++ ": " ++ toString n)
      ++ headed "Recommendations:" (r.recommendations.map ("- " ++ ·))
      ++ verdict r.summary :: closingLines r)

def render (r : Report) : OutputFormat → String
  | .text => renderText r
  | .json => lines [r.toJson.pretty]
  | .compact => lines (r.violations.map (·.summaryLine))

/-! ### Rules -/

/-- A text with blanks behind it, up to a width. -/
def padded (width : Nat) (s : String) : String :=
  s ++ String.ofList (List.replicate (width - s.length) ' ')

def ruleLine (r : Rule) : String :=
  padded 8 r.code ++ " " ++ padded 20 r.name ++ " " ++ r.family.name ++ " " ++ r.description

def kindsLine (r : Rule) : String :=
  "  " ++ padded 20 r.name ++ " "
    ++ Text.joinStrings ", " ((Kind.all.filter (·.family = r.family)).map Kind.name)

def ruleTable : String :=
  lines
    (["Available rules:", "",
      padded 8 "Code" ++ " " ++ padded 20 "Name" ++ " " ++ padded 16 "Family" ++ " Description",
      String.ofList (List.replicate 90 '-')]
      ++ Rule.all.map ruleLine
      ++ ["", "Violation types:"]
      ++ Rule.all.map kindsLine
      ++ ["", "Use --rules to run a subset, e.g.:",
          "  qgate check --rules purity,error-handling",
          "  qgate check --rules QG001,QG002"])

end QualityGate.Command
