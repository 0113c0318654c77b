import QualityGate.Proofs.Rule.Locality
import QualityGate.Proofs.Sequence.Embedding

/-! Lower limits. Every finding of a metric is gated by one limit, so with lower limits a
rule reports all that it reported, in the same order and possibly with more in between.
A finding keeps its place, its kind and its value; only the limit that it is shown with,
its message and, upwards, its severity may change. -/
namespace QualityGate

/-- A finding and its counterpart under lower limits. -/
structure Violation.TightensTo (v w : Violation) : Prop where
  file : w.file = v.file
  function : w.function = v.function
  line : w.line = v.line
  kind : w.kind = v.kind
  value : w.value = v.value
  context : w.context = v.context
  rule : w.rule = v.rule
  scope : w.scope = v.scope
  severity : v.severity = .error → w.severity = .error

instance : Std.Refl Violation.TightensTo where
  refl _ := ⟨rfl, rfl, rfl, rfl, rfl, rfl, rfl, rfl, id⟩

/-- A finding that is shown with another limit. -/
theorem Violation.TightensTo.of_threshold (v : Violation) (threshold : Option Nat)
    (message : Option String) : v.TightensTo { v with threshold, message } :=
  ⟨rfl, rfl, rfl, rfl, rfl, rfl, rfl, rfl, id⟩

/-- A finding for a value above a limit is also made for a lower limit. -/
theorem embeds_of_limit_le {limit limit' value : Nat} (hle : limit' ≤ limit) {v w : Violation}
    (h : v.TightensTo w) :
    List.SublistForall₂ Violation.TightensTo (if limit < value then [v] else [])
      (if limit' < value then [w] else []) := by
  split_ifs with hv hw
  · exact .cons h .nil
  · omega
  · exact .nil
  · exact .nil

namespace Rule

variable {c : FileContext} {stricter : Thresholds}

namespace Complexity

theorem exceeding_tightens {limit limit' : Nat} (hle : limit' ≤ limit) (line : Nat)
    (scope : List String) (name : String) (kind : Kind) (severity : Severity) (value : Nat) :
    List.SublistForall₂ Violation.TightensTo (exceeding c line scope name kind severity value limit)
      (exceeding { c with thresholds := stricter } line scope name kind severity value limit') :=
  embeds_of_limit_le hle (.of_threshold _ _ _)

theorem branching_tightens (hle : ∀ l, stricter.get l ≤ c.thresholds.get l) (line : Nat)
    (scope : List String) (name : String) (value : Nat) :
    List.SublistForall₂ Violation.TightensTo (branching c line scope name value)
      (branching { c with thresholds := stricter } line scope name value) := by
  have hmax : stricter.maxComplexity ≤ c.thresholds.maxComplexity := hle .maxComplexity
  refine embeds_of_limit_le (hle .warningComplexity)
    ⟨rfl, rfl, rfl, rfl, rfl, rfl, rfl, rfl, fun herror => ?_⟩
  -- a value above the old maximum is above the new one
  dsimp only at herror ⊢
  split_ifs at herror with hv
  rw [if_pos (by omega)]

theorem ownReport_tightens (hle : ∀ l, stricter.get l ≤ c.thresholds.get l) (scope : List String)
    (n : Node) :
    List.SublistForall₂ Violation.TightensTo (ownReport c scope n)
      (ownReport { c with thresholds := stricter } scope n) := by
  cases n with
  | functionDef span head body =>
    unfold ownReport ofFunction
    refine embeds_append (embeds_append (embeds_append (embeds_append ?_ ?_) ?_) ?_) ?_
    · exact branching_tightens hle _ _ _ _
    · exact exceeding_tightens (hle .maxFunctionLines) _ _ _ _ _ _
    · exact exceeding_tightens (hle .maxParameters) _ _ _ _ _ _
    · exact exceeding_tightens (hle .maxNestingDepth) _ _ _ _ _ _
    · exact exceeding_tightens (hle .maxCognitiveComplexity) _ _ _ _ _ _
  | _ => exact .nil

theorem check_tightens (hle : ∀ l, stricter.get l ≤ c.thresholds.get l) (u : SourceUnit) :
    List.SublistForall₂ Violation.TightensTo (check c u)
      (check { c with thresholds := stricter } u) := by
  rw [check_eq, check_eq]
  refine embeds_append ?_ (embeds_flatMap fun p _ => ownReport_tightens hle p.1 p.2)
  exact embeds_of_limit_le (hle .maxFileLines) (.of_threshold _ _ _)

end Complexity

namespace Design

theorem ofClass_tightens (hle : ∀ l, stricter.get l ≤ c.thresholds.get l) (line : Nat)
    (head : ClassHead) (body : List Node) :
    List.SublistForall₂ Violation.TightensTo (ofClass c line head body)
      (ofClass { c with thresholds := stricter } line head body) := by
  refine embeds_append ?_ ?_
  · exact embeds_of_limit_le (hle .maxClassPublicMethods) (.of_threshold _ _ _)
  · split
    · exact embeds_of_limit_le (hle .maxInterfaceMethods) (.of_threshold _ _ _)
    · exact .nil

theorem ofFunction_tightens (hle : ∀ l, stricter.get l ≤ c.thresholds.get l) (around : Enclosing)
    (line : Nat) (name : String) (body : List Node) :
    List.SublistForall₂ Violation.TightensTo (ofFunction c around line name body)
      (ofFunction { c with thresholds := stricter } around line name body) := by
  -- the other two parts know no limit
  refine embeds_append (embeds_append ?_ ?_) ?_
  · exact embeds_of_limit_le (hle .maxIsinstanceChain) (.of_threshold _ _ _)
  · exact refl_of _ _
  · exact refl_of _ _

theorem ownReport_tightens (hle : ∀ l, stricter.get l ≤ c.thresholds.get l) (around : Enclosing)
    (n : Node) :
    List.SublistForall₂ Violation.TightensTo (ownReport c around n)
      (ownReport { c with thresholds := stricter } around n) := by
  cases n with
  | functionDef span head body => exact ofFunction_tightens hle _ _ _ _
  | classDef span head body => exact ofClass_tightens hle _ _ _
  | _ => exact .nil

theorem byPrinciple_tightens {vs ws : List Violation}
    (h : List.SublistForall₂ Violation.TightensTo vs ws) :
    List.SublistForall₂ Violation.TightensTo (byPrinciple vs) (byPrinciple ws) := by
  refine embeds_flatMap fun k _ => embeds_filter (fun v w hvw => ?_) h
  rw [hvw.kind]

theorem check_tightens (hle : ∀ l, stricter.get l ≤ c.thresholds.get l) (u : SourceUnit) :
    List.SublistForall₂ Violation.TightensTo (check c u)
      (check { c with thresholds := stricter } u) := by
  rw [check_eq, check_eq]
  refine byPrinciple_tightens
    (embeds_append ?_ (embeds_flatMap fun p _ => ownReport_tightens hle p.1 p.2))
  exact embeds_of_limit_le (hle .maxFileLines) (.of_threshold _ _ _)

end Design

/-- The purity rule knows no limit. -/
theorem Purity.check_thresholds (u : SourceUnit) :
    check { c with thresholds := stricter } u = check c u := by
  have hown : ownReport { c with thresholds := stricter } = ownReport c := by
    funext severity function n
    cases n <;> rfl
  rw [check_eq, check_eq, hown]
  rfl

namespace ErrorHandling

theorem ownReport_tightens (hle : ∀ l, stricter.get l ≤ c.thresholds.get l)
    (position : Nat × Option String) (n : Node) :
    List.SublistForall₂ Violation.TightensTo (ownReport c position n)
      (ownReport { c with thresholds := stricter } position n) := by
  cases n with
  | tryExcept span body handlers orelse final =>
    refine embeds_append (embeds_flatMap fun h _ => ?_) ?_
    · have hhandler : ofHandler { c with thresholds := stricter } position.2 h =
          ofHandler c position.2 h := by cases h <;> rfl
      rw [hhandler]
      exact refl_of _ _
    · exact embeds_of_limit_le (hle .maxNestedTry) (.of_threshold _ _ _)
  | _ => exact .nil

theorem check_tightens (hle : ∀ l, stricter.get l ≤ c.thresholds.get l) (u : SourceUnit) :
    List.SublistForall₂ Violation.TightensTo (check c u)
      (check { c with thresholds := stricter } u) := by
  rw [check_eq, check_eq]
  exact embeds_flatMap fun p _ => ownReport_tightens hle p.1 p.2

end ErrorHandling

/-- With lower limits a built-in rule still reports all that it reported. -/
theorem check_tightens {r : Rule} (hr : r ∈ all)
    (hle : ∀ l, stricter.get l ≤ c.thresholds.get l) (u : SourceUnit) :
    List.SublistForall₂ Violation.TightensTo (r.check c u)
      (r.check { c with thresholds := stricter } u) := by
  simp only [all, List.mem_cons, List.not_mem_nil, or_false] at hr
  rcases hr with rfl | rfl | rfl | rfl
  · exact Complexity.check_tightens hle u
  · exact Design.check_tightens hle u
  · have heq : Purity.check { c with thresholds := stricter } u = Purity.check c u :=
      Purity.check_thresholds u
    show List.SublistForall₂ Violation.TightensTo (Purity.check c u) (Purity.check _ u)
    rw [heq]
    exact refl_of _ _
  · exact ErrorHandling.check_tightens hle u

end Rule

end QualityGate
