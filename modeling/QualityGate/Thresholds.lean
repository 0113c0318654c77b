/-! The eleven numeric limits. Limits are natural numbers; what a user writes may be
any integer or missing, and is checked when it is applied over a base. -/
namespace QualityGate

/-- The names of the limits, in the order in which they are checked. -/
inductive Limit where
  | maxComplexity
  | warningComplexity
  | maxFunctionLines
  | maxNestingDepth
  | maxParameters
  | maxCognitiveComplexity
  | maxFileLines
  | maxClassPublicMethods
  | maxInterfaceMethods
  | maxIsinstanceChain
  | maxNestedTry
deriving DecidableEq, Repr, Inhabited

namespace Limit

def all : List Limit :=
  [.maxComplexity, .warningComplexity, .maxFunctionLines, .maxNestingDepth, .maxParameters,
   .maxCognitiveComplexity, .maxFileLines, .maxClassPublicMethods, .maxInterfaceMethods,
   .maxIsinstanceChain, .maxNestedTry]

/-- The name of a limit in a configuration. -/
def name : Limit → String
  | .maxComplexity => "max_complexity"
  | .warningComplexity => "warning_complexity"
  | .maxFunctionLines => "max_function_lines"
  | .maxNestingDepth => "max_nesting_depth"
  | .maxParameters => "max_parameters"
  | .maxCognitiveComplexity => "max_cognitive_complexity"
  | .maxFileLines => "max_file_lines"
  | .maxClassPublicMethods => "max_class_public_methods"
  | .maxInterfaceMethods => "max_interface_methods"
  | .maxIsinstanceChain => "max_isinstance_chain"
  | .maxNestedTry => "max_nested_try"

theorem mem_all (l : Limit) : l ∈ all := by cases l <;> decide

end Limit

structure PerLimit (α : Type) where
  maxComplexity : α
  warningComplexity : α
  maxFunctionLines : α
  maxNestingDepth : α
  maxParameters : α
  maxCognitiveComplexity : α
  maxFileLines : α
  maxClassPublicMethods : α
  maxInterfaceMethods : α
  maxIsinstanceChain : α
  maxNestedTry : α
deriving DecidableEq, Repr

namespace PerLimit

variable {α : Type}

def get (t : PerLimit α) : Limit → α
  | .maxComplexity => t.maxComplexity
  | .warningComplexity => t.warningComplexity
  | .maxFunctionLines => t.maxFunctionLines
  | .maxNestingDepth => t.maxNestingDepth
  | .maxParameters => t.maxParameters
  | .maxCognitiveComplexity => t.maxCognitiveComplexity
  | .maxFileLines => t.maxFileLines
  | .maxClassPublicMethods => t.maxClassPublicMethods
  | .maxInterfaceMethods => t.maxInterfaceMethods
  | .maxIsinstanceChain => t.maxIsinstanceChain
  | .maxNestedTry => t.maxNestedTry

def ofFn (g : Limit → α) : PerLimit α :=
  ⟨g .maxComplexity, g .warningComplexity, g .maxFunctionLines, g .maxNestingDepth,
   g .maxParameters, g .maxCognitiveComplexity, g .maxFileLines, g .maxClassPublicMethods,
   g .maxInterfaceMethods, g .maxIsinstanceChain, g .maxNestedTry⟩

/-- The table of a function that may fail; limits are asked in order. -/
def ofFnM {m : Type → Type} [Monad m] (g : Limit → m α) : m (PerLimit α) := do
  return ⟨← g .maxComplexity, ← g .warningComplexity, ← g .maxFunctionLines,
    ← g .maxNestingDepth, ← g .maxParameters, ← g .maxCognitiveComplexity, ← g .maxFileLines,
    ← g .maxClassPublicMethods, ← g .maxInterfaceMethods, ← g .maxIsinstanceChain,
    ← g .maxNestedTry⟩

@[simp] theorem get_ofFn (g : Limit → α) (l : Limit) : (ofFn g).get l = g l := by cases l <;> rfl

@[simp] theorem ofFn_get (t : PerLimit α) : ofFn t.get = t := rfl

/-- Two tables with the same entries are equal. -/
theorem ext_get {s t : PerLimit α} (h : ∀ l, s.get l = t.get l) : s = t := by
  rw [← ofFn_get s, ← ofFn_get t, funext h]

end PerLimit

abbrev Thresholds := PerLimit Nat

/-- The limits when nothing is configured. -/
def Thresholds.standard : Thresholds where
  maxComplexity := 10
  warningComplexity := 7
  maxFunctionLines := 50
  maxNestingDepth := 4
  maxParameters := 5
  maxCognitiveComplexity := 15
  maxFileLines := 300
  maxClassPublicMethods := 5
  maxInterfaceMethods := 7
  maxIsinstanceChain := 2
  maxNestedTry := 2

/-- Limits as a user wrote them, before they are checked. -/
abbrev Overrides := PerLimit (Option Int)

structure NegativeLimit where
  limit : Limit
  value : Int
deriving DecidableEq, Repr

namespace Overrides

def empty : Overrides := .ofFn fun _ => none

/-- Two layers as one; what the later layer writes wins. -/
def mergedWith (earlier later : Overrides) : Overrides :=
  .ofFn fun l => (later.get l).or (earlier.get l)

/-- One limit over its base; a negative one is refused. -/
def resolve (o : Overrides) (base : Thresholds) (l : Limit) : Except NegativeLimit Nat :=
  match o.get l with
  | none => .ok (base.get l)
  | some (.ofNat n) => .ok n
  | some v => .error ⟨l, v⟩

/-- The limits over a base; the first negative one is the error. -/
def apply (o : Overrides) (base : Thresholds) : Except NegativeLimit Thresholds :=
  PerLimit.ofFnM (o.resolve base)

@[simp] theorem mergedWith_get (a b : Overrides) (l : Limit) :
    (a.mergedWith b).get l = (b.get l).or (a.get l) := by simp [mergedWith]

end Overrides

end QualityGate
