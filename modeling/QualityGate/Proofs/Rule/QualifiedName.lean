import QualityGate.Proofs.Node.Ancestors
import QualityGate.Proofs.Rule.Locality

/-! What the complexity rule reports, function by function. The rule pushes the name of every
definition that it enters and pops it when it leaves; at a function the names on the stack are those
of the definitions among its ancestors. Every function of a file is measured in this way, once, and
each measure above its limit is one violation. -/
namespace QualityGate

/-- The name that a definition gives to what stands in it. -/
def Node.definitionName? : Node → Option String
  | functionDef _ head _ => some head.name
  | classDef _ head _ => some head.name
  | _ => none

namespace Rule.Complexity

open Node (ancestors definitionName? nodeAt? places)

variable {c : FileContext} {n : Node}

/-! ### Measures and their limits -/

/-- A measure with the limit above which it is reported. -/
structure Measured where
  kind : Kind
  value : Nat
  limit : Nat

/-- The measures of a function in the order in which they are reported. -/
def measured (t : Thresholds) (n : Node) (head : FunctionHead) : List Measured :=
  [⟨.complexity, n.cyclomatic, t.warningComplexity⟩, ⟨.length, n.lineSpan, t.maxFunctionLines⟩,
    ⟨.parameters, head.parameterCount, t.maxParameters⟩,
    ⟨.nesting, n.nestingDepth, t.maxNestingDepth⟩,
    ⟨.cognitiveComplexity, n.cognitive, t.maxCognitiveComplexity⟩]

/-- What a function is reported for below definitions with some names: the measures above their
limits, where it starts and under its qualified name. -/
structure Covers (c : FileContext) (names : List String) (n : Node) (head : FunctionHead)
    (vs : List Violation) : Prop where
  exceeding : vs.map (fun v => (v.kind, v.value)) =
    ((measured c.thresholds n head).filter fun m => m.limit < m.value).map fun m =>
      (m.kind, some m.value)
  labelled : ∀ v ∈ vs, v.context = Text.joinStrings "." (names ++ [head.name]) ∧
    v.function = some head.name ∧ v.line = n.line

/-- Violations report one measure when it is above its limit, and nothing else. -/
def Reports (m : Measured) (vs : List Violation) : Prop :=
  vs.map (fun v => (v.kind, v.value)) = if m.limit < m.value then [(m.kind, some m.value)] else []

theorem exceeding_reports (line : Nat) (scope : List String) (name : String) (kind : Kind)
    (severity : Severity) (value limit : Nat) :
    Reports ⟨kind, value, limit⟩ (exceeding c line scope name kind severity value limit) := by
  unfold Reports exceeding
  split_ifs <;> rfl

theorem branching_reports (line : Nat) (scope : List String) (name : String) (value : Nat) :
    Reports ⟨.complexity, value, c.thresholds.warningComplexity⟩
      (branching c line scope name value) := by
  unfold Reports branching
  dsimp only
  split_ifs <;> rfl

theorem ownReport_covers (c : FileContext) (scope : List String) (span : Span)
    (head : FunctionHead) (body : List Node) :
    Covers c scope (.functionDef span head body) head
      (ownReport c scope (.functionDef span head body)) where
  exceeding := by
    simp only [ownReport, ofFunction, FunctionMetrics.measure, List.map_append]
    rw [branching_reports, exceeding_reports, exceeding_reports, exceeding_reports,
      exceeding_reports]
    simp only [measured, List.filter_cons, List.filter_nil, decide_eq_true_eq]
    split_ifs <;> rfl
  labelled v hv := by
    simp only [ownReport, ofFunction, branching, exceeding, List.mem_append,
      List.mem_ite_nil_right, List.mem_singleton] at hv
    rcases hv with (((⟨-, rfl⟩ | ⟨-, rfl⟩) | ⟨-, rfl⟩) | ⟨-, rfl⟩) | ⟨-, rfl⟩ <;>
      exact ⟨rfl, rfl, rfl⟩

/-! ### Function by function -/

/-- The names on the stack are those of the definitions among the ancestors. -/
theorem foldl_namesBelow (as : List Node) :
    as.foldl namesBelow [] = as.filterMap definitionName? := by
  induction as using List.reverseRecOn with
  | nil => rfl
  | append_singleton as n ih =>
    rw [List.foldl_concat, ih, List.filterMap_append]
    cases n <;> simp [namesBelow, definitionName?]

/-- Only a function is reported. -/
theorem ownReport_of_not (scope : List String) (n : Node) (h : n.functionHead?.isSome = false) :
    ownReport c scope n = [] := by
  cases n <;> first | rfl | cases h

/-- Every function is measured where it stands, under the names of all definitions around it. -/
theorem check_measures_functions (c : FileContext) (u : SourceUnit) :
    let functions := (places u.body).filter (·.2.functionHead?.isSome)
    check c u = ofLength c u.lineCount ++ (functions.flatMap fun p =>
      ownReport c ((ancestors u.body p.1).filterMap definitionName?) p.2) ∧
    ((ofLength c u.lineCount).map (·.kind) =
      if c.thresholds.maxFileLines < u.lineCount then [.fileLength] else []) ∧
    functions.map Prod.snd = u.walk.filter (·.functionHead?.isSome) ∧
    (∀ p, p ∈ functions ↔ nodeAt? u.body p.1 = some p.2 ∧ p.2.functionHead?.isSome) ∧
    ∀ names span head body, Covers c names (.functionDef span head body) head
      (ownReport c names (.functionDef span head body)) := by
  intro functions
  refine ⟨?_, ?_, Node.map_snd_filter_places (·.functionHead?.isSome) u.body,
    fun p => Node.mem_filter_places_iff (·.functionHead?.isSome), ownReport_covers c⟩
  · rw [check_eq, Node.flatMap_walkAllWith_filter ownReport_of_not]
    simp only [foldl_namesBelow]
    rfl
  · unfold ofLength
    split_ifs <;> rfl

-- a method and a function in it, measured one after the other
example :
    let c : FileContext :=
      .withTags ⟨"a.py"⟩ ⟨"."⟩ { Thresholds.standard with maxFunctionLines := 1 } (.uniform .core)
    let u : SourceUnit := ⟨⟨"a.py"⟩, 5, [.classDef ⟨1, 5⟩ ⟨"C", []⟩ [.functionDef ⟨2, 5⟩
      ⟨"f", [], false⟩ [.functionDef ⟨3, 4⟩ ⟨"g", [], false⟩ [.pass ⟨4, 4⟩], .pass ⟨5, 5⟩]]]⟩
    (check c u).map (fun v => (v.kind, v.line, v.context, v.value)) =
      [(.length, 2, "C.f", some 4), (.length, 3, "C.f.g", some 2)] := by decide +kernel

end Rule.Complexity

end QualityGate
