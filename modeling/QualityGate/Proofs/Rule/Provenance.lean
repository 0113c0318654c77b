import QualityGate.Proofs.Rule.Locality

/-! Where a violation comes from. Whatever a built-in rule reports names the file of its
context and the rule itself, and is of a kind of the rule's family. -/
namespace QualityGate

/-- The marks that a rule leaves on what it reports about a file. -/
structure Violation.SignedBy (v : Violation) (c : FileContext) (rule : String) (family : Family) :
    Prop where
  file : v.file = c.path
  rule : v.rule = rule
  family : v.kind.family = family

theorem Violation.SignedBy.kind_ne {v : Violation} {c : FileContext} {rule : String} {family : Family}
    {k : Kind} (h : v.SignedBy c rule family) (hk : k.family ≠ family) : v.kind ≠ k := by
  rintro rfl
  exact hk h.family

/-- A finding that is made under a condition is signed if the finding itself is. -/
theorem Violation.SignedBy.of_mem_ite {v w : Violation} {c : FileContext} {rule : String}
    {family : Family} {p : Prop} [Decidable p] (hv : v ∈ if p then [w] else [])
    (hw : w.SignedBy c rule family) : v.SignedBy c rule family := by
  rw [List.mem_ite_nil_right, List.mem_singleton] at hv
  obtain ⟨-, rfl⟩ := hv
  exact hw

namespace Rule

namespace Complexity

theorem signed_of_mem_exceeding {c : FileContext} {line : Nat} {scope : List String} {name : String}
    {kind : Kind} {severity : Severity} {value limit : Nat} {v : Violation}
    (hk : kind.family = .complexity)
    (hv : v ∈ exceeding c line scope name kind severity value limit) :
    v.SignedBy c ruleName .complexity :=
  .of_mem_ite hv ⟨rfl, rfl, hk⟩

theorem signed_of_mem_branching {c : FileContext} {line : Nat} {scope : List String} {name : String}
    {value : Nat} {v : Violation} (hv : v ∈ branching c line scope name value) :
    v.SignedBy c ruleName .complexity :=
  .of_mem_ite hv ⟨rfl, rfl, rfl⟩

theorem signed_of_mem_ofLength {c : FileContext} {lines : Nat} {v : Violation}
    (hv : v ∈ ofLength c lines) : v.SignedBy c ruleName .complexity :=
  .of_mem_ite hv ⟨rfl, rfl, rfl⟩

theorem signed_of_mem_ownReport {c : FileContext} {scope : List String} {n : Node} {v : Violation}
    (hv : v ∈ ownReport c scope n) : v.SignedBy c ruleName .complexity := by
  cases n with
  | functionDef span head body =>
    simp only [ownReport, ofFunction, List.mem_append] at hv
    rcases hv with (((hv | hv) | hv) | hv) | hv
    · exact signed_of_mem_branching hv
    all_goals exact signed_of_mem_exceeding rfl hv
  | _ => simp [ownReport] at hv

theorem signed_of_mem_check {c : FileContext} {u : SourceUnit} {v : Violation} (hv : v ∈ check c u) :
    v.SignedBy c ruleName .complexity := by
  rcases mem_check hv with hv | ⟨scope, n, -, hv⟩
  · exact signed_of_mem_ofLength hv
  · exact signed_of_mem_ownReport hv

end Complexity

namespace Design

theorem signed_of_mem_ofLength {c : FileContext} {lines : Nat} {v : Violation}
    (hv : v ∈ ofLength c lines) : v.SignedBy c ruleName .design :=
  .of_mem_ite hv ⟨rfl, rfl, rfl⟩

theorem signed_of_mem_ofClass {c : FileContext} {line : Nat} {head : ClassHead} {body : List Node}
    {v : Violation} (hv : v ∈ ofClass c line head body) : v.SignedBy c ruleName .design := by
  rcases mem_ofClass hv with hv | hv
  · exact .of_mem_ite hv ⟨rfl, rfl, rfl⟩
  · exact .of_mem_ite hv ⟨rfl, rfl, rfl⟩

theorem signed_of_mem_ofFunction {c : FileContext} {around : Enclosing} {line : Nat} {name : String}
    {body : List Node} {v : Violation} (hv : v ∈ ofFunction c around line name body) :
    v.SignedBy c ruleName .design := by
  rcases mem_ofFunction hv with hv | ⟨n, -, className, rfl⟩ | ⟨-, n, -, service, rfl⟩
  · exact .of_mem_ite hv ⟨rfl, rfl, rfl⟩
  · exact ⟨rfl, rfl, rfl⟩
  · exact ⟨rfl, rfl, rfl⟩

theorem signed_of_mem_ownReport {c : FileContext} {around : Enclosing} {n : Node} {v : Violation}
    (hv : v ∈ ownReport c around n) : v.SignedBy c ruleName .design := by
  cases n with
  | functionDef => exact signed_of_mem_ofFunction hv
  | classDef => exact signed_of_mem_ofClass hv
  | _ => simp [ownReport] at hv

theorem signed_of_mem_check {c : FileContext} {u : SourceUnit} {v : Violation} (hv : v ∈ check c u) :
    v.SignedBy c ruleName .design := by
  rcases mem_check hv with hv | ⟨around, n, -, hv⟩
  · exact signed_of_mem_ofLength hv
  · exact signed_of_mem_ownReport hv

end Design

namespace Purity

theorem family_of_classifyCall {callee : String} {k : Kind} (h : classifyCall callee = some k) :
    k.family = .purity := by
  have hrows : ∀ row ∈ callTable ++ moduleTable, row.1.family = .purity := by decide
  unfold classifyCall at h
  obtain ⟨row, hrow, rfl⟩ := Option.map_eq_some_iff.mp h
  rcases Option.or_eq_some_iff.mp hrow with hcall | ⟨-, hmodule⟩
  · exact hrows row (List.mem_append_left _ (List.mem_of_find?_eq_some hcall))
  · exact hrows row (List.mem_append_right _ (List.mem_of_find?_eq_some hmodule))

theorem family_of_impurity? {n : Node} {k : Kind} {message : String}
    (h : impurity? n = some (k, message)) : k.family = .purity := by
  unfold impurity? at h
  split at h
  · obtain ⟨k', hk, heq⟩ := Option.map_eq_some_iff.mp h
    obtain ⟨rfl, -⟩ := Prod.mk.inj heq
    exact family_of_classifyCall hk
  all_goals first
    | (obtain ⟨rfl, -⟩ := Prod.mk.inj (Option.some.inj h); rfl)
    | exact absurd h (by simp)

theorem signed_of_mem_ownReport {c : FileContext} {severity : Severity} {function : Option String}
    {n : Node} {v : Violation} (hv : v ∈ ownReport c severity function n) :
    v.SignedBy c ruleName .purity := by
  rcases mem_ownReport hv with ⟨name, message, rfl⟩ | ⟨name, kind, message, himpure, rfl⟩
  · exact ⟨rfl, rfl, rfl⟩
  · exact ⟨rfl, rfl, family_of_impurity? himpure⟩

theorem signed_of_mem_check {c : FileContext} {u : SourceUnit} {v : Violation} (hv : v ∈ check c u) :
    v.SignedBy c ruleName .purity := by
  obtain ⟨function, n, -, hv⟩ := mem_check hv
  exact signed_of_mem_ownReport hv

end Purity

namespace ErrorHandling

theorem signed_of_mem_ofHandler {c : FileContext} {function : Option String} {n : Node}
    {v : Violation} (hv : v ∈ ofHandler c function n) : v.SignedBy c ruleName .errorHandling := by
  rcases mem_ofHandler hv with ⟨kind, message, rfl | rfl, rfl⟩ | ⟨-, message, rfl⟩
  all_goals exact ⟨rfl, rfl, rfl⟩

theorem signed_of_mem_ofDepth {c : FileContext} {function : Option String} {line depth : Nat}
    {v : Violation} (hv : v ∈ ofDepth c function line depth) :
    v.SignedBy c ruleName .errorHandling :=
  .of_mem_ite hv ⟨rfl, rfl, rfl⟩

theorem signed_of_mem_ownReport {c : FileContext} {position : Nat × Option String} {n : Node}
    {v : Violation} (hv : v ∈ ownReport c position n) : v.SignedBy c ruleName .errorHandling := by
  rcases mem_ownReport hv with hv | ⟨h, -, hv⟩
  · exact signed_of_mem_ofDepth hv
  · exact signed_of_mem_ofHandler hv

theorem signed_of_mem_check {c : FileContext} {u : SourceUnit} {v : Violation} (hv : v ∈ check c u) :
    v.SignedBy c ruleName .errorHandling := by
  obtain ⟨position, n, -, hv⟩ := mem_check hv
  exact signed_of_mem_ownReport hv

end ErrorHandling

/-- A built-in rule signs whatever it reports. -/
theorem signed_of_mem_check {r : Rule} (hr : r ∈ all) {c : FileContext} {u : SourceUnit}
    {v : Violation} (hv : v ∈ r.check c u) : v.SignedBy c r.name r.family := by
  simp only [all, List.mem_cons, List.not_mem_nil, or_false] at hr
  rcases hr with rfl | rfl | rfl | rfl
  · exact Complexity.signed_of_mem_check hv
  · exact Design.signed_of_mem_check hv
  · exact Purity.signed_of_mem_check hv
  · exact ErrorHandling.signed_of_mem_check hv

end Rule

end QualityGate
