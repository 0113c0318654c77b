import QualityGate.Context.Classifier
import QualityGate.Thresholds

/-! The configuration of the gate: limits, switches of the analyser, switches of
single rules, and pattern lists that replace built-in ones. Resolving a section may
fail, and validating resolves every section in a fixed order. -/
namespace QualityGate

inductive ConfigError where
  | malformed
  | negativeLimit (e : NegativeLimit)
  | unknownFamily (name : String)
  | badPattern (e : Glob.Error)
deriving DecidableEq, Repr

namespace ConfigError

def message : ConfigError → String
  | malformed => "Failed to parse config"
  | negativeLimit e => "Invalid threshold " ++ e.limit.name ++ " = " ++ toString e.value
  | unknownFamily name => "Unknown rule family in [classifier." ++ name ++ "]"
  | badPattern e => "Invalid pattern: " ++ e.message

/-- The code under which an error is documented. -/
def code : ConfigError → String
  | malformed => "qgate::config::parse"
  | negativeLimit _ => "qgate::config::invalid_threshold"
  | unknownFamily _ => "qgate::config::unknown_family"
  | badPattern _ => "qgate::config::pattern"

/-- What to do about an error, where there is a hint. -/
def help? : ConfigError → Option String
  | negativeLimit _ => some "thresholds must be non-negative integers"
  | unknownFamily _ => some "expected one of: complexity, design, purity, error-handling"
  | malformed | badPattern _ => none

end ConfigError

structure AnalyzerSettings where
  exclude : List String
  strict : Bool
  parallel : Bool
  coreOnly : Bool
deriving DecidableEq, Repr

/-- The switches when nothing is configured: directories that hold no code of one's own
are left out. -/
def AnalyzerSettings.standard : AnalyzerSettings where
  exclude := ["**/.venv/**", "**/venv/**", "**/__pycache__/**", "**/node_modules/**"]
  strict := false
  parallel := true
  coreOnly := false

/-- Pattern lists that replace those of a family. -/
structure PatternLists where
  shell : Option (List String)
  core : Option (List String)
deriving DecidableEq, Repr

/-- A configuration. Rules and families are listed by name, each name once; families are
in the order of their names. -/
structure Config where
  thresholds : Overrides
  analyzer : AnalyzerSettings
  rules : List (String × Option Bool)
  classifier : List (String × PatternLists)
deriving DecidableEq, Repr

namespace Config

def standard : Config where
  thresholds := .empty
  analyzer := .standard
  rules := []
  classifier := []

/-- Whether a rule is switched on; it is unless it is switched off. -/
def isRuleEnabled (c : Config) (rule : String) : Bool :=
  match c.rules.lookup rule with
  | some (some enabled) => enabled
  | _ => true

/-- The limits: the standard ones under the configured ones. -/
def resolveThresholds (c : Config) : Except ConfigError Thresholds :=
  (c.thresholds.apply .standard).mapError .negativeLimit

def replaceLists (t : ClassifierSet) (name : String) (lists : PatternLists) :
    Except ConfigError ClassifierSet :=
  match Family.ofName? name with
  | none => .error (.unknownFamily name)
  | some f => (t.override f lists.shell lists.core).mapError .badPattern

/-- The classifiers: the built-in ones under the configured lists, name by name. -/
def resolveClassifiers (c : Config) : Except ConfigError ClassifierSet := do
  let builtin ← ClassifierSet.builtin.mapError .badPattern
  c.classifier.foldlM (fun t entry => replaceLists t entry.1 entry.2) builtin

/-- Compiles the patterns of what is left out; the first bad one is the error. -/
def resolveExclude (c : Config) : Except ConfigError (List Glob) :=
  (c.analyzer.exclude.mapM Glob.compile).mapError .badPattern

/-- Resolves every section: limits, classifiers, then what is left out. -/
def validate (c : Config) : Except ConfigError Unit := do
  let _ ← c.resolveThresholds
  let _ ← c.resolveClassifiers
  let _ ← c.resolveExclude

end Config

end QualityGate
