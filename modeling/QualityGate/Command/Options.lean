import QualityGate.Thresholds

/-! What a user may ask of the command, and the words for it: switches with their long
and short forms, the commands, and which switches each command knows. -/
namespace QualityGate.Command

inductive OutputFormat where
  | text
  | json
  | compact
deriving DecidableEq, Repr, Inhabited

namespace OutputFormat

def ofName? : String → Option OutputFormat
  | "text" => some .text
  | "json" => some .json
  | "compact" => some .compact
  | _ => none

end OutputFormat

structure CheckOptions where
  path : Option String := none
  scopeRoot : Option String := none
  all : Bool := false
  strict : Bool := false
  json : Bool := false
  format : OutputFormat := .text
  rules : Option String := none
  exclude : List String := []
  sequential : Bool := false
  coreOnly : Bool := false
  thresholds : Overrides := .empty
deriving DecidableEq, Repr

namespace CheckOptions

/-- The root of the scope; the working directory if none is given. -/
def root (o : CheckOptions) : String := (o.scopeRoot.or o.path).getD "."

def outputFormat (o : CheckOptions) : OutputFormat := if o.json then .json else o.format

end CheckOptions

inductive Request where
  | check (o : CheckOptions)
  | listRules
  | writeTemplate (force : Bool)
deriving DecidableEq, Repr

/-- The commands by name; `top` is what stands before any of them. -/
inductive Verb where
  | top
  | check
  | listRules
  | init
  | help
deriving DecidableEq, Repr

def Verb.ofName? : String → Option Verb
  | "check" => some .check
  | "list-rules" => some .listRules
  | "init" => some .init
  | "help" => some .help
  | _ => none

/-- A switch: a flag, or an option with a value. -/
inductive Switch where
  | verbose
  | config
  | help
  | version
  | all
  | strict
  | json
  | sequential
  | coreOnly
  | force
  | scopeRoot
  | format
  | rules
  | exclude
  | limit (l : Limit)
deriving DecidableEq, Repr

namespace Switch

/-- The long form without its dashes; a limit's underscores become dashes. -/
def long : Switch → String
  | verbose => "verbose"
  | config => "config"
  | help => "help"
  | version => "version"
  | all => "all"
  | strict => "strict"
  | json => "json"
  | sequential => "sequential"
  | coreOnly => "core-only"
  | force => "force"
  | scopeRoot => "scope-root"
  | format => "format"
  | rules => "rules"
  | exclude => "exclude"
  | limit l => l.name.map fun c => if c = '_' then '-' else c

def short? : Switch → Option Char
  | verbose => some 'v'
  | config => some 'c'
  | help => some 'h'
  | version => some 'V'
  | format => some 'f'
  | exclude => some 'e'
  | _ => none

def takesValue : Switch → Bool
  | config | scopeRoot | format | rules | exclude | limit _ => true
  | _ => false

def knownTo : Verb → List Switch
  | .top => [verbose, config, help, version]
  | .check =>
    [verbose, config, help, all, strict, json, sequential, coreOnly, scopeRoot, format, rules,
     exclude] ++ Limit.all.map limit
  | .listRules => [verbose, config, help]
  | .init => [verbose, config, help, force]
  | .help => []

end Switch

end QualityGate.Command
