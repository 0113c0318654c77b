import QualityGate.Config.Basic
import QualityGate.Report.Basic
import QualityGate.Rule.Basic

/-! The engine: it runs every enabled rule over the selected files. A file that is not
text, or that the front end cannot parse, is skipped and counted; a file that cannot be
read ends the run. The files' contents are a function of their paths. -/
namespace QualityGate

/-- A front end turns the text of a file into a unit, or says why it cannot. -/
structure FrontEnd (ε : Type) where
  language : String
  extensions : List String
  parse : Path → String → Except ε SourceUnit

/-- What ends a run, or keeps an engine from being built. -/
inductive EngineError where
  | unreadable (path : Path) (reason : String)
  | config (e : ConfigError)
  | missingFrontEnd
deriving DecidableEq, Repr

def EngineError.message : EngineError → String
  | .unreadable path reason => "IO error reading " ++ path.text ++ ": " ++ reason
  | .config e => "Configuration error: " ++ e.message
  | .missingFrontEnd => "No source parser configured"

structure Engine (ε : Type) where
  root : Path
  rules : List Rule
  frontEnd : FrontEnd ε
  thresholds : Thresholds
  classifiers : ClassifierSet
  strict : Bool
  coreOnly : Bool

/-- What an engine is built from. What is not given comes from the configuration. -/
structure EngineOptions (ε : Type) where
  root : Option Path := none
  rules : List Rule
  frontEnd : Option (FrontEnd ε)
  thresholds : Option Thresholds := none
  classifiers : Option ClassifierSet := none
  config : Config := .standard
  strict : Option Bool := none
  coreOnly : Option Bool := none

inductive FileOutcome where
  | analyzed (violations : List Violation)
  | skipped
deriving DecidableEq, Repr

def FileOutcome.violations : FileOutcome → List Violation
  | .analyzed vs => vs
  | .skipped => []

namespace Engine

variable {ε : Type}

/-- Builds an engine from its options; the rules that the configuration switches off are
left out. -/
def build (o : EngineOptions ε) : Except EngineError (Engine ε) := do
  let frontEnd ← match o.frontEnd with
    | some f => pure f
    | none => throw .missingFrontEnd
  let thresholds ← match o.thresholds with
    | some t => pure t
    | none => o.config.resolveThresholds.mapError .config
  let classifiers ← match o.classifiers with
    | some c => pure c
    | none => o.config.resolveClassifiers.mapError .config
  return { root := o.root.getD ⟨"."⟩
           rules := o.rules.filter fun r => o.config.isRuleEnabled r.name
           frontEnd, thresholds, classifiers
           strict := o.strict.getD o.config.analyzer.strict
           coreOnly := o.coreOnly.getD o.config.analyzer.coreOnly }

def context (e : Engine ε) (path : Path) : FileContext :=
  .classified path e.root e.thresholds e.classifiers

/-- The violations of one rule, marked with the file's tag for the rule's family. -/
def applyRule (e : Engine ε) (c : FileContext) (u : SourceUnit) (r : Rule) : List Violation :=
  let tag := c.tag r.family
  if e.coreOnly && tag = .shell then []
  else (r.check c u).map fun v => { v with scope := tag }

/-- The violations of a parsed file, rule by rule. -/
def analyzeUnit (e : Engine ε) (u : SourceUnit) : List Violation :=
  e.rules.flatMap (e.applyRule (e.context u.path) u)

/-- The outcome for a file with known contents. -/
def analyzeBytes (e : Engine ε) (path : Path) (bytes : ByteArray) : FileOutcome :=
  match String.fromUTF8? bytes with
  | none => .skipped
  | some source =>
    match e.frontEnd.parse path source with
    | .error _ => .skipped
    | .ok u => .analyzed (e.analyzeUnit u)

/-- The outcome for a file that may be unreadable. -/
def analyzeFile (e : Engine ε) (contents : Path → Except String ByteArray) (path : Path) :
    Except EngineError FileOutcome :=
  match contents path with
  | .error reason => .error (.unreadable path reason)
  | .ok bytes => .ok (e.analyzeBytes path bytes)

/-- Whether a violation may stand before another: by file, then by line. -/
def inOrder (a b : Violation) : Bool :=
  ((a.file.compare b.file).then (compare a.line b.line)) != .gt

/-- Runs the engine over files. Violations are sorted by file and line; those of one line
keep their order. -/
def run (e : Engine ε) (contents : Path → Except String ByteArray) (files : List Path) :
    Except EngineError Report := do
  let outcomes ← files.mapM (e.analyzeFile contents)
  let skipped := outcomes.count .skipped
  let violations := (outcomes.flatMap (·.violations)).mergeSort inOrder
  return .ofViolations violations (outcomes.length - skipped) skipped e.strict

end Engine

end QualityGate
