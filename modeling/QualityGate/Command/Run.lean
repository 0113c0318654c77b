import QualityGate.Command.Arguments
import QualityGate.Command.Check

/-! The command as a whole: what it prints, what it writes, and how it exits. -/
namespace QualityGate.Command

inductive Exit where
  | allowed
  | blocked
  | failed
deriving DecidableEq, Repr

def Exit.code : Exit → Nat
  | allowed => 0
  | blocked => 2
  | failed => 3

/-- What a run of the command comes to: how it exits, what it prints, what it complains
about, and the file that it writes. -/
structure Outcome where
  exit : Exit
  output : String := ""
  complaint : String := ""
  written : Option (Path × String) := none
deriving DecidableEq, Repr

namespace Outcome

def ofError (e : CommandError) : Outcome := { exit := .failed, complaint := e.message }

def ofReport (r : Report) (f : OutputFormat) : Outcome :=
  { exit := if r.allowed then .allowed else .blocked, output := render r f }

end Outcome

/-- Creates the configuration file, unless there is something of its name already. -/
def writeTemplate (e : Environment) (force : Bool) : Except CommandError Outcome := do
  let path : Path := ⟨configName⟩
  let there := (e.source.tree.locate path).toOption
  if there.isSome && !force then throw (.alreadyThere path)
  if e.source.tree.isDirectory path then throw (.unwritable path)
  return { exit := .allowed, output := createdNotice, written := some (path, configTemplate) }

/-- Does what a request asks for. -/
def answer (e : Environment) (config : Option String) : Request → Except CommandError Outcome
  | .check o => do
    return .ofReport (← check e (config.map Path.mk) o) o.outputFormat
  | .listRules => return { exit := .allowed, output := ruleTable }
  | .writeTemplate force => writeTemplate e force

/-- The name and the version of the program. -/
def versionLine : String := "qgate 0.3.0"

def usage : String :=
  lines
    ["Usage: qgate [-v] [-c FILE] check [OPTIONS] [PATH]",
     "       qgate list-rules",
     "       qgate init [--force]"]

def run (e : Environment) (arguments : List String) : Outcome :=
  match Invocation.ofArguments arguments with
  | .invalid => { exit := .failed, complaint := usage }
  | .help => { exit := .allowed, output := usage }
  | .version => { exit := .allowed, output := lines [versionLine] }
  | .run config request =>
    match answer e config request with
    | .ok outcome => outcome
    | .error error => .ofError error

end QualityGate.Command
