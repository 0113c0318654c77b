import QualityGate.Family

/-! The kinds of violation, in reporting order, with the family each belongs to,
and for the kinds of the design family the principle that they speak for. -/
namespace QualityGate

/-- How bad a violation is. A warning blocks only in strict mode. -/
inductive Severity where
  | warning
  | error
deriving DecidableEq, Repr, Inhabited

def Severity.name : Severity → String
  | .warning => "warning"
  | .error => "error"

def Severity.ofName? (s : String) : Option Severity :=
  [Severity.warning, .error].find? (·.name = s)

inductive Principle where
  | singleResponsibility
  | openClosed
  | substitution
  | interfaceSegregation
  | dependencyInversion
deriving DecidableEq, Repr, Inhabited

namespace Principle

def all : List Principle :=
  [.singleResponsibility, .openClosed, .substitution, .interfaceSegregation, .dependencyInversion]

/-- The acronym of a principle. -/
def name : Principle → String
  | .singleResponsibility => "SRP"
  | .openClosed => "OCP"
  | .substitution => "LSP"
  | .interfaceSegregation => "ISP"
  | .dependencyInversion => "DIP"

def ofName? (s : String) : Option Principle := all.find? (·.name = s)

theorem mem_all (p : Principle) : p ∈ all := by cases p <;> decide

end Principle

inductive Kind where
  | complexity
  | length
  | parameters
  | nesting
  | cognitiveComplexity
  | fileLength
  | srpFileLength
  | srpClassMethods
  | ocpIsinstanceCascade
  | lspNotImplemented
  | ispFatInterface
  | dipDirectInstantiation
  | fileAccess
  | network
  | database
  | subprocess
  | globalState
  | nonlocalState
  | sideEffects
  | asynchrony
  | bareExcept
  | exceptPass
  | exceptionSwallowed
  | nestedTryExcept
deriving DecidableEq, Repr, Inhabited

namespace Kind

def all : List Kind :=
  [.complexity, .length, .parameters, .nesting, .cognitiveComplexity, .fileLength,
   .srpFileLength, .srpClassMethods, .ocpIsinstanceCascade, .lspNotImplemented,
   .ispFatInterface, .dipDirectInstantiation,
   .fileAccess, .network, .database, .subprocess, .globalState, .nonlocalState,
   .sideEffects, .asynchrony,
   .bareExcept, .exceptPass, .exceptionSwallowed, .nestedTryExcept]

def name : Kind → String
  | .complexity => "complexity"
  | .length => "length"
  | .parameters => "parameters"
  | .nesting => "nesting"
  | .cognitiveComplexity => "cognitive_complexity"
  | .fileLength => "file_length"
  | .srpFileLength => "srp_file_length"
  | .srpClassMethods => "srp_class_methods"
  | .ocpIsinstanceCascade => "ocp_isinstance_cascade"
  | .lspNotImplemented => "lsp_not_implemented"
  | .ispFatInterface => "isp_fat_interface"
  | .dipDirectInstantiation => "dip_direct_instantiation"
  | .fileAccess => "file_io"
  | .network => "network"
  | .database => "database"
  | .subprocess => "subprocess"
  | .globalState => "global_state"
  | .nonlocalState => "nonlocal_state"
  | .sideEffects => "side_effects"
  | .asynchrony => "async_io"
  | .bareExcept => "bare_except"
  | .exceptPass => "except_pass"
  | .exceptionSwallowed => "exception_swallowed"
  | .nestedTryExcept => "nested_try_except"

def ofName? (s : String) : Option Kind := all.find? (·.name = s)

/-- The family whose rules report a kind. -/
def family : Kind → Family
  | .complexity | .length | .parameters | .nesting | .cognitiveComplexity | .fileLength =>
    .complexity
  | .srpFileLength | .srpClassMethods | .ocpIsinstanceCascade | .lspNotImplemented
  | .ispFatInterface | .dipDirectInstantiation => .design
  | .fileAccess | .network | .database | .subprocess | .globalState | .nonlocalState
  | .sideEffects | .asynchrony => .purity
  | .bareExcept | .exceptPass | .exceptionSwallowed | .nestedTryExcept => .errorHandling

/-- The principle that a kind of the design family speaks for. -/
def principle? : Kind → Option Principle
  | .srpFileLength | .srpClassMethods => some .singleResponsibility
  | .ocpIsinstanceCascade => some .openClosed
  | .lspNotImplemented => some .substitution
  | .ispFatInterface => some .interfaceSegregation
  | .dipDirectInstantiation => some .dependencyInversion
  | _ => none

theorem mem_all (k : Kind) : k ∈ all := by cases k <;> decide

theorem ofName?_name (k : Kind) : ofName? k.name = some k := by cases k <;> decide

/-- Exactly the kinds of the design family have a principle. -/
theorem isSome_principle?_iff (k : Kind) : k.principle?.isSome ↔ k.family = .design := by
  cases k <;> decide

end Kind

end QualityGate
