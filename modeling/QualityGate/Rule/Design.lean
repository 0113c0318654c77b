import QualityGate.DottedName
import QualityGate.Rule.Basic
import QualityGate.Violation.Basic

/-! The design rule: one structural heuristic for each principle of object-oriented
design. What happens inside a function is attributed to the function that encloses
it most closely. Violations are reported principle by principle. -/
namespace QualityGate.Rule.Design

def ruleName : String := "design-principles"

/-- Endings of names that mark infrastructure classes. -/
def serviceSuffixes : List String :=
  ["Connection", "Service", "Client", "Repository", "Database", "Cache", "Logger", "Queue",
   "Session"]

/-- Base classes that make a class an interface. -/
def interfaceBases : List String := ["Protocol", "ABC"]

def reportingOrder : List Kind :=
  [.srpFileLength, .srpClassMethods, .ocpIsinstanceCascade, .lspNotImplemented,
   .ispFatInterface, .dipDirectInstantiation]

/-- The definition around a node. -/
inductive Enclosing where
  | module
  | inClass (name : String)
  | inFunction
deriving DecidableEq, Repr

/-! ### What is recognised -/

/-- The number of public functions that stand directly in a class body. -/
def publicMethods (body : List Node) : Nat :=
  body.countP fun n => n.functionHead?.any (DottedName.isPublic ·.name)

def isInterface (head : ClassHead) : Bool :=
  head.bases.any fun b => interfaceBases.contains (DottedName.last b)

def isNamed (name : String) : Node → Bool
  | .name _ s => s = name
  | _ => false

/-- Whether a condition asks for the class of a value, alone or in a chain. -/
def asksForClass : Node → Bool
  | .call _ _ func _ => isNamed "isinstance" func
  | .boolOp _ _ values => values.attach.any fun ⟨v, _⟩ => asksForClass v
  | _ => false

/-- Whether a node is a branch on the class of a value. -/
def branchesOnClass : Node → Bool
  | .branch _ _ test .. => asksForClass test
  | _ => false

/-- Whether a node raises the exception for a missing implementation. -/
def raisesNotImplemented : Node → Bool
  | .raise _ (some e) _ =>
    match e with
    | .call _ _ func _ => isNamed "NotImplementedError" func
    | e => isNamed "NotImplementedError" e
  | _ => false

/-- The infrastructure class that a node instantiates, if any. -/
def instantiates? : Node → Option String
  | .call _ callee .. =>
    let name := DottedName.last callee
    if serviceSuffixes.any fun s => s.toList.isSuffixOf name.toList then some name else none
  | _ => none

/-! ### What is reported -/

/-- The violation for a file that is too long. -/
def ofLength (c : FileContext) (lines : Nat) : List Violation :=
  let limit := c.thresholds.maxFileLines
  if limit < lines then
    [{ file := c.path, line := 1, kind := .srpFileLength, severity := .warning
       value := some lines, threshold := some limit, rule := ruleName
       message := some s!"File has {lines} lines (max: {limit})" }]
  else []

/-- The violation for a class with too many public methods. -/
def ofClassSize (c : FileContext) (line : Nat) (name : String) (methods : Nat) : List Violation :=
  let limit := c.thresholds.maxClassPublicMethods
  if limit < methods then
    [{ file := c.path, line, kind := .srpClassMethods, severity := .warning
       value := some methods, threshold := some limit, context := name, rule := ruleName
       message := some s!"Class '{name}' has {methods} public methods (max: {limit})" }]
  else []

/-- The violation for an interface with too many public methods. -/
def ofInterfaceSize (c : FileContext) (line : Nat) (name : String) (methods : Nat) :
    List Violation :=
  let limit := c.thresholds.maxInterfaceMethods
  if limit < methods then
    [{ file := c.path, line, kind := .ispFatInterface, severity := .warning
       value := some methods, threshold := some limit, context := name, rule := ruleName
       message := some (s!"Interface '{name}' has {methods} methods (max: {limit}). "
         ++ "Consider splitting into smaller interfaces.") }]
  else []

def ofClass (c : FileContext) (line : Nat) (head : ClassHead) (body : List Node) :
    List Violation :=
  let methods := publicMethods body
  ofClassSize c line head.name methods
    ++ (if isInterface head then ofInterfaceSize c line head.name methods else [])

/-- The violation for a function that asks for classes too often. -/
def ofCascade (c : FileContext) (line : Nat) (name : String) (checks : Nat) : List Violation :=
  let limit := c.thresholds.maxIsinstanceChain
  if limit < checks then
    [{ file := c.path, function := some name, line, kind := .ocpIsinstanceCascade
       severity := .warning, value := some checks, threshold := some limit, context := name
       rule := ruleName
       message := some (s!"Function '{name}' has {checks} isinstance checks. "
         ++ "Consider using polymorphism or strategy pattern.") }]
  else []

/-- The violation for a method that raises instead of being implemented. -/
def ofMissing (c : FileContext) (line : Nat) (className name : String) : Violation where
  file := c.path
  function := some name
  line := line
  kind := .lspNotImplemented
  severity := .error
  context := className ++ "." ++ name
  rule := ruleName
  message := some
    s!"Method '{name}' in class '{className}' raises NotImplementedError, violating LSP."

/-- The violation for an instantiation that should be injected. -/
def ofInstantiation (c : FileContext) (line : Nat) (name service : String) : Violation where
  file := c.path
  function := some name
  line := line
  kind := .dipDirectInstantiation
  severity := .warning
  context := name
  rule := ruleName
  message := some (s!"Direct instantiation of '{service}' in function '{name}'. "
    ++ "Consider dependency injection.")

/-- The violations of a function; only methods can break the contract of a class, and
only core files must leave instantiation to others. -/
def ofFunction (c : FileContext) (around : Enclosing) (line : Nat) (name : String)
    (body : List Node) : List Violation :=
  let inside := Node.scopeAll body
  ofCascade c line name (inside.countP branchesOnClass)
    ++ (match around with
      | .inClass className =>
        (inside.filter raisesNotImplemented).map fun n => ofMissing c n.line className name
      | _ => [])
    ++ (match c.tag .design with
      | .core =>
        inside.filterMap fun n => (instantiates? n).map (ofInstantiation c n.line name)
      | .shell => [])

/-- The violations in a tree, in source order. -/
def ofNode (c : FileContext) (around : Enclosing) : Node → List Violation
  | .functionDef span head body =>
    ofFunction c around span.first head.name body
      ++ body.flatMap fun n => ofNode c .inFunction n
  | .classDef span head body =>
    ofClass c span.first head body ++ body.flatMap fun n => ofNode c (.inClass head.name) n
  | n => n.children.attach.flatMap fun ⟨k, _⟩ => ofNode c around k
termination_by n => sizeOf n
decreasing_by all_goals exact Node.sizeOf_lt_of_mem_children ‹_›

/-- Violations sorted by kind; those of one kind keep their order. -/
def byPrinciple (vs : List Violation) : List Violation :=
  reportingOrder.flatMap fun k => vs.filter (·.kind = k)

def check (c : FileContext) (u : SourceUnit) : List Violation :=
  byPrinciple (ofLength c u.lineCount ++ u.body.flatMap (ofNode c .module))

end QualityGate.Rule.Design
