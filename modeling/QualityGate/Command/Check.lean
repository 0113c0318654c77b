import QualityGate.Command.Template
import QualityGate.Config.Reader
import QualityGate.Python.FrontEnd
import QualityGate.Rule.Catalogue
import QualityGate.Selection.Scope
import QualityGate.Text.Basic

/-! The check: it finds the configuration, prepares an engine from it and from the
options, selects the files, runs the engine and renders the report. Options win over the
configuration, but the configuration must be valid by itself. -/
namespace QualityGate.Command

inductive CommandError where
  | noScopeRoot (root : Path)
  | unreadableConfig (path : Path) (reason : String)
  | config (e : ConfigError)
  | exclude (e : Exclusion.BadPattern)
  | engine (e : EngineError)
  | alreadyThere (path : Path)
  | unwritable (path : Path)
deriving DecidableEq, Repr

def CommandError.message : CommandError → String
  | noScopeRoot root => "Scope root is not a readable directory: " ++ root.text
  | unreadableConfig path reason => "Failed to load config: " ++ path.text ++ ": " ++ reason
  | config e => e.message
  | exclude e => e.message
  | engine e => e.message
  | alreadyThere path =>
    "Configuration file already exists at " ++ path.text ++ ". Use --force to overwrite."
  | unwritable path => "Failed to write " ++ path.text

/-- Where a command runs: the files, and where a configuration for all scopes lies. -/
structure Environment where
  source : Scope.Source
  configDirectory : Option Path := none

/-! ### Configuration -/

/-- The configuration files of a scope root, the preferred one first. -/
def projectConfigs (root : Path) : List Path := [root.append ⟨configName⟩, root.append ⟨".qgate.toml"⟩]

/-- The configuration file of a run: the one asked for, or the first that exists in the
scope root, or the one for all scopes. -/
def findConfig (e : Environment) (root : Path) (asked : Option Path) : Option Path :=
  let shared := e.configDirectory.map (·.append ⟨"config.toml"⟩)
  asked.or ((projectConfigs root ++ shared.toList).find? e.source.tree.isFile)

def readConfig (e : Environment) (path : Path) : Except CommandError Config :=
  match e.source.tree.read path with
  | .error reason => .error (.unreadableConfig path reason)
  | .ok bytes =>
    match String.fromUTF8? bytes with
    | none => .error (.unreadableConfig path "stream did not contain valid UTF-8")
    | some text => (Config.parse text).mapError .config

/-- The configuration of a run; the standard one if there is no file. -/
def loadConfig (e : Environment) (root : Path) (asked : Option Path) :
    Except CommandError Config :=
  match findConfig e root asked with
  | none => .ok .standard
  | some path => readConfig e path

/-! ### Preparation -/

/-- The rules that keys between commas name, in their order, each one once. -/
def selectRules (filter : String) : List Rule :=
  ((Text.split ',' filter.toList).filterMap fun key =>
    Rule.find? (String.ofList (Text.trim key))).eraseDupsBy (·.name == ·.name)

/-- The rules that options ask for; all of them if they say nothing. -/
def CheckOptions.selectedRules (o : CheckOptions) : List Rule :=
  match o.rules with
  | some filter => selectRules filter
  | none => Rule.all

structure Prepared where
  engine : Engine Python.ParseError
  exclusion : Exclusion

def prepare (c : Config) (o : CheckOptions) : Except CommandError Prepared := do
  c.validate.mapError .config
  let thresholds ← ((c.thresholds.mergedWith o.thresholds).apply .standard).mapError
    fun e => .config (.negativeLimit e)
  let exclusion ← (Exclusion.compile (c.analyzer.exclude ++ o.exclude)).mapError .exclude
  let engine ← (Engine.build
    { root := some ⟨o.root⟩
      rules := o.selectedRules
      frontEnd := some Python.frontEnd
      thresholds := some thresholds
      config := c
      strict := some (o.strict || c.analyzer.strict)
      coreOnly := some (o.coreOnly || c.analyzer.coreOnly) }).mapError .engine
  return { engine, exclusion }

def check (e : Environment) (asked : Option Path) (o : CheckOptions) :
    Except CommandError Report := do
  let root : Path := ⟨o.root⟩
  if !e.source.tree.isDirectory root then throw (.noScopeRoot root)
  let p ← prepare (← loadConfig e root asked) o
  let files := e.source.select root (!o.all) p.exclusion
  (p.engine.run e.source.tree.read files).mapError .engine

end QualityGate.Command
