import QualityGate.Rule.Basic
import QualityGate.Violation.Basic

/-! The error-handling rule: handlers without a type, silent handlers, handlers that
swallow any exception in the core, and handlers stacked too deep. The findings of a
`try` come before those of what it holds. -/
namespace QualityGate.Rule.ErrorHandling

def ruleName : String := "error-handling"

/-- Exception types that catch nearly everything. -/
def broadExceptions : List String := ["Exception", "BaseException"]

/-! ### What is recognised -/

/-- A body that does nothing: a single `pass` or a single string. -/
def isSilent : List Node → Bool
  | [.pass _] => true
  | [.literal _ (.str _)] => true
  | _ => false

/-- Whether a type expression is the name of a broad exception. -/
def isBroadName : Node → Bool
  | .name _ s => broadExceptions.contains s
  | _ => false

/-- Whether a type expression is broad, alone or in a tuple. -/
def isBroad : Node → Bool
  | .tuple _ items => items.any isBroadName
  | n => isBroadName n

def raises (body : List Node) : Bool := (Node.walkAll body).any (·.isRaise)

/-! ### What is reported -/

/-- A finding, with the innermost function around it as its context. -/
def finding (c : FileContext) (function : Option String) (line : Nat) (kind : Kind)
    (severity : Severity) (message : String) : Violation where
  file := c.path
  function := function
  line := line
  kind := kind
  severity := severity
  message := some message
  context := function.getD ""
  rule := ruleName

def ofHandler (c : FileContext) (function : Option String) : Node → List Violation
  | .handler span caught _ body =>
    match caught with
    | none =>
      [finding c function span.first .bareExcept .error
        "Bare 'except:' catches all exceptions including KeyboardInterrupt and SystemExit. Use specific exceptions."]
    | some type =>
      if isSilent body then
        [finding c function span.first .exceptPass .error
          "Silent exception handling (except: pass) hides bugs. Either let it crash or handle meaningfully."]
      else if c.tag .errorHandling = .core && isBroad type && !raises body then
        [finding c function span.first .exceptionSwallowed .warning
          "Broad exception caught without re-raise. In core logic, let errors propagate to boundaries."]
      else []
  | _ => []

/-- The finding for a `try` that is nested too deep. -/
def ofDepth (c : FileContext) (function : Option String) (line depth : Nat) : List Violation :=
  let limit := c.thresholds.maxNestedTry
  if limit < depth then
    [{ finding c function line .nestedTryExcept .warning
        s!"Nested try/except depth {depth} exceeds max {limit}. Simplify error handling."
      with value := some depth, threshold := some limit }]
  else []

/-- The violations in a tree below some number of `try` statements and inside a
function, if any. -/
def ofNode (c : FileContext) (depth : Nat) (function : Option String) : Node → List Violation
  | .functionDef _ head body => body.flatMap fun n => ofNode c depth (some head.name) n
  | .tryExcept span body handlers orelse final =>
    handlers.flatMap (ofHandler c function) ++ ofDepth c function span.first (depth + 1)
      ++ (Node.tryExcept span body handlers orelse final).children.attach.flatMap
          fun ⟨k, _⟩ => ofNode c (depth + 1) function k
  | n => n.children.attach.flatMap fun ⟨k, _⟩ => ofNode c depth function k
termination_by n => sizeOf n
decreasing_by all_goals exact Node.sizeOf_lt_of_mem_children ‹_›

def check (c : FileContext) (u : SourceUnit) : List Violation :=
  u.body.flatMap (ofNode c 0 none)

end QualityGate.Rule.ErrorHandling
