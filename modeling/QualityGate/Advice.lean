import QualityGate.Violation.Basic

/-! Advice on what was found: one line per kind, shared between kinds that call
for the same remedy, and a standing hint on the architecture. -/
namespace QualityGate

/-- The hint that closes every report. -/
def architectureHint : String :=
  "Consider 'Functional Core, Imperative Shell' pattern: Keep business logic pure, push I/O to edges (handlers, adapters)."

def Kind.advice : Kind → String
  | .complexity =>
    "COMPLEXITY: Extract helper functions, use early returns, simplify conditional logic with guard clauses."
  | .length =>
    "LENGTH: Split function into smaller, single-purpose functions. Apply Single Responsibility Principle."
  | .parameters =>
    "PARAMETERS: Group related parameters into a dataclass/dict. Consider Builder pattern for complex construction."
  | .nesting =>
    "NESTING: Use early returns/guard clauses to reduce nesting. Extract nested blocks into separate functions."
  | .cognitiveComplexity =>
    "COGNITIVE COMPLEXITY: Flatten deeply nested branches and loops. Name intermediate conditions and extract them into predicates."
  | .fileLength =>
    "FILE LENGTH: Split the module along its responsibilities. Long files hide unrelated concerns."
  | .srpFileLength | .srpClassMethods =>
    "SRP: Extract responsibilities into separate modules/classes. Each class should have one reason to change."
  | .ocpIsinstanceCascade =>
    "OCP: Use strategy pattern, registry, or polymorphism instead of type-checking cascades. Extend, don't modify."
  | .lspNotImplemented =>
    "LSP: Subclasses must honor base class contracts. If a method can't be implemented, the inheritance hierarchy is wrong."
  | .ispFatInterface =>
    "ISP: Split fat interfaces into smaller, focused ones. Clients shouldn't depend on methods they don't use."
  | .dipDirectInstantiation =>
    "DIP: Inject dependencies instead of instantiating them directly. Business logic should depend on abstractions."
  | .fileAccess =>
    "FILE I/O: Move file operations to adapter layer. Pass data as function arguments instead of reading inside logic."
  | .network =>
    "NETWORK: Extract HTTP calls to repository/adapter pattern. Business logic should receive data, not fetch it."
  | .database =>
    "DATABASE: Use repository pattern. Business logic receives/returns data, database operations happen in repository layer."
  | .subprocess =>
    "SUBPROCESS: Move shell commands to adapter/infrastructure layer. Core logic should work with data, not execute processes."
  | .globalState | .nonlocalState =>
    "GLOBAL STATE: Pass state as explicit parameters. Use dependency injection for shared state."
  | .sideEffects =>
    "SIDE EFFECTS: Return values instead of printing. Let calling code handle output/logging."
  | .asynchrony =>
    "ASYNC I/O: Move async functions to shell/adapter layer. Core business logic should be synchronous and pure. Pass data to core functions, await in shell."
  | .bareExcept =>
    "BARE EXCEPT: Catch specific exceptions. Bare 'except:' catches KeyboardInterrupt and SystemExit, making programs hard to stop."
  | .exceptPass =>
    "SILENT FAILURE: Remove 'except: pass' blocks. Either let errors crash (preferred in core logic) or handle them meaningfully with logging."
  | .exceptionSwallowed =>
    "SWALLOWED EXCEPTION: In core logic, let exceptions propagate. Handle them at boundaries (API, CLI, adapters) where you can respond appropriately."
  | .nestedTryExcept =>
    "NESTED TRY/EXCEPT: Flatten error handling. Complex fallback cascades are hard to debug. Fail fast and handle at a single boundary."

/-- Whether a violation calls for advice: impurity is expected in the shell. -/
def Violation.isAdvised (v : Violation) : Bool :=
  v.kind.family != .purity || v.scope = .core

/-- A list with later repetitions left out. -/
def firstOccurrences {α : Type} [DecidableEq α] (xs : List α) : List α :=
  xs.foldl (fun kept x => if x ∈ kept then kept else kept ++ [x]) []

/-- The advice for a list of violations, each line once, in the order of the kinds. -/
def recommendations (vs : List Violation) : List String :=
  firstOccurrences
    ((Kind.all.filter fun k => vs.any fun v => v.isAdvised && v.kind = k).map Kind.advice)

end QualityGate
