import QualityGate.DottedName
import QualityGate.Rule.Basic
import QualityGate.Text.Basic
import QualityGate.Violation.Basic

/-! The purity rule: calls that reach outside, shared state and asynchrony do not
belong into functions of the core. Each impure node inside a function is one
violation, labelled with the innermost function around it; an asynchronous function
is one wherever it stands. In the shell they are warnings. -/
namespace QualityGate.Rule.Purity

def ruleName : String := "purity"

/-! ### Impure calls -/

/-- Texts that mark an impure call wherever they stand in its name, by category; the
first category with a match counts. -/
def callTable : List (Kind × List String) :=
  [(.fileAccess,
      ["open", "read_text", "write_text", "read_bytes", "write_bytes", "mkdir", "rmdir",
       "unlink", "rename", "shutil.copy", "shutil.move"]),
   (.network,
      ["requests.get", "requests.post", "requests.put", "requests.delete", "requests.patch",
       "httpx.get", "httpx.post", "http.request", "urllib.request", "urlopen",
       "socket.connect", "socket.send", "socket.recv"]),
   (.database,
      ["execute", "query", "cursor", "commit", "rollback", "add", "delete", "flush", "merge",
       "refresh"]),
   (.subprocess,
      ["run", "call", "check_output", "check_call", "Popen", "system", "spawn"]),
   (.sideEffects,
      ["print", "pprint", "logging", "logger", "log", "debug", "info", "warning", "error",
       "critical"])]

/-- Modules whose functions are impure, by category; asked when no call text matched. -/
def moduleTable : List (Kind × List String) :=
  [(.fileAccess, ["os", "shutil", "pathlib", "io", "tempfile"]),
   (.network, ["requests", "httpx", "aiohttp", "urllib", "socket", "http"]),
   (.database, ["sqlite3", "psycopg2", "mysql", "pymongo", "redis", "sqlalchemy"]),
   (.subprocess, ["subprocess", "os"])]

/-- Whether a call text marks a callee: it is the last segment or occurs in the name. -/
def marks (callee pattern : String) : Bool :=
  DottedName.last callee = pattern || Text.contains callee pattern

/-- The category of a callee, by the call table, else by the module table. -/
def classifyCall (callee : String) : Option Kind :=
  let byCall := callTable.find? fun row => row.2.any (marks callee)
  let byModule := moduleTable.find? fun row => row.2.contains (DottedName.root callee)
  (byCall.or byModule).map (·.1)

/-! ### Violations -/

/-- A finding inside a function. -/
def finding (c : FileContext) (severity : Severity) (function : String) (line : Nat)
    (kind : Kind) (message : String) : Violation where
  file := c.path
  function := some function
  line := line
  kind := kind
  severity := severity
  message := some message
  context := function
  rule := ruleName

/-- How an awaited expression is called in a message. -/
def awaitedName : Node → String
  | .call _ callee .. => callee
  | .name _ s => s
  | _ => "<expression>"

/-- The kind and the message of a node that is impure inside a function. -/
def impurity? : Node → Option (Kind × String)
  | .call _ callee .. => (classifyCall callee).map fun k => (k, callee)
  | .globalNames _ names => some (.globalState, "global " ++ Text.joinStrings ", " names)
  | .nonlocalNames _ names => some (.nonlocalState, "nonlocal " ++ Text.joinStrings ", " names)
  | .await _ value => some (.asynchrony, "await " ++ awaitedName value)
  | .loop _ .asyncForEach .. => some (.asynchrony, "async for")
  | .withBlock _ true .. => some (.asynchrony, "async with")
  | _ => none

/-- The finding for a node itself, if the node stands inside a function. -/
def ownFinding (c : FileContext) (severity : Severity) (function : Option String) (n : Node) :
    List Violation :=
  match function, impurity? n with
  | some f, some (kind, message) => [finding c severity f n.line kind message]
  | _, _ => []

def ofAsync (c : FileContext) (severity : Severity) (line : Nat) (head : FunctionHead) :
    List Violation :=
  if head.isAsync then
    [finding c severity head.name line .asynchrony ("async def " ++ head.name)]
  else []

/-- The violations in a tree inside a function, if any. -/
def ofNode (c : FileContext) (severity : Severity) (function : Option String) :
    Node → List Violation
  | .functionDef span head body =>
    ofAsync c severity span.first head ++ body.flatMap fun n => ofNode c severity (some head.name) n
  | n =>
    ownFinding c severity function n
      ++ n.children.attach.flatMap fun ⟨k, _⟩ => ofNode c severity function k
termination_by n => sizeOf n
decreasing_by all_goals exact Node.sizeOf_lt_of_mem_children ‹_›

def severityFor : Tag → Severity
  | .core => .error
  | .shell => .warning

def check (c : FileContext) (u : SourceUnit) : List Violation :=
  u.body.flatMap (ofNode c (severityFor (c.tag .purity)) none)

end QualityGate.Rule.Purity
