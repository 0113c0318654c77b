import QualityGate.Proofs.Node.Lines
import QualityGate.Proofs.Rule.Locality

/-! On which lines violations stand. A built-in rule reports a node on the first line of the
node or of one below it, and a file as such on its first line. -/
namespace QualityGate

namespace Node

/-- A scope leaves out nested definitions and has no other nodes than the plain traversal. -/
theorem mem_walk_of_mem_scope {n m : Node} (hm : m ∈ n.scope) : m ∈ n.walk := by
  induction n using induction_on_children with
  | step n ih =>
    rw [scope_eq] at hm
    split at hm
    · simp at hm
    · rw [List.mem_cons, scopeAll, List.mem_flatMap] at hm
      rcases hm with rfl | ⟨k, hk, hm⟩
      · exact m.mem_walk_self
      · exact walk_subset_of_mem_children hk (ih k hk hm)

theorem mem_walkAll_of_mem_scopeAll {ns : List Node} {m : Node} (hm : m ∈ scopeAll ns) :
    m ∈ walkAll ns := by
  obtain ⟨n, hn, hm⟩ := List.mem_flatMap.mp hm
  exact List.mem_flatMap.mpr ⟨n, hn, mem_walk_of_mem_scope hm⟩

end Node

/-- A finding that is made under a condition stands where the finding itself does. -/
theorem Violation.line_of_mem_ite {v w : Violation} {p : Prop} [Decidable p]
    (hv : v ∈ if p then [w] else []) : v.line = w.line := by
  rw [List.mem_ite_nil_right, List.mem_singleton] at hv
  rw [hv.2]

/-- Whether a violation stands on the first line of one of several nodes. -/
def Violation.StartsWith (v : Violation) (ns : List Node) : Prop := ∃ n ∈ ns, v.line = n.line

namespace Violation.StartsWith

variable {v : Violation}

theorem own {n : Node} (h : v.line = n.line) : v.StartsWith n.walk := ⟨n, n.mem_walk_self, h⟩

theorem of_mem_ite {w : Violation} {n : Node} {p : Prop} [Decidable p]
    (hv : v ∈ if p then [w] else []) (hw : w.line = n.line) : v.StartsWith n.walk :=
  own ((line_of_mem_ite hv).trans hw)

/-- What stands where a node below another one starts. -/
theorem of_mem_walkAll {n : Node} {ns : List Node} (hn : n ∈ Node.walkAll ns)
    (h : v.StartsWith n.walk) : v.StartsWith (Node.walkAll ns) := by
  obtain ⟨m, hm, hline⟩ := h
  obtain ⟨root, hroot, hn⟩ := List.mem_flatMap.mp hn
  exact ⟨m, List.mem_flatMap.mpr ⟨root, hroot, Node.walk_subset_of_mem_walk hn hm⟩, hline⟩

end Violation.StartsWith

namespace Rule

variable {c : FileContext} {u : SourceUnit} {v : Violation}

namespace Complexity

theorem startsWith_of_mem_ownReport {scope : List String} {n : Node}
    (hv : v ∈ ownReport c scope n) : v.StartsWith n.walk := by
  cases n with
  | functionDef span head body =>
    simp only [ownReport, ofFunction, List.mem_append] at hv
    rcases hv with (((hv | hv) | hv) | hv) | hv <;> exact .of_mem_ite hv rfl
  | _ => simp [ownReport] at hv

theorem line_of_mem_check (hv : v ∈ check c u) : v.line = 1 ∨ v.StartsWith u.walk := by
  rcases mem_check hv with hv | ⟨scope, n, hn, hv⟩
  · exact .inl (Violation.line_of_mem_ite hv)
  · exact .inr (.of_mem_walkAll hn (startsWith_of_mem_ownReport hv))

end Complexity

namespace Design

/-- A function is reported where it starts, or where a node in its scope does. -/
theorem startsWith_of_mem_ofFunction {around : Enclosing} {span : Span} {head : FunctionHead}
    {body : List Node} (hv : v ∈ ofFunction c around span.first head.name body) :
    v.StartsWith (Node.functionDef span head body).walk := by
  have hinside : ∀ n ∈ Node.scopeAll body, n ∈ (Node.functionDef span head body).walk := by
    intro n hn
    rw [Node.walk_eq]
    exact List.mem_cons_of_mem _ (Node.mem_walkAll_of_mem_scopeAll hn)
  rcases mem_ofFunction hv with hv | ⟨n, hn, className, rfl⟩ | ⟨-, n, hn, service, rfl⟩
  · exact .of_mem_ite hv rfl
  · exact ⟨n, hinside n hn, rfl⟩
  · exact ⟨n, hinside n hn, rfl⟩

theorem startsWith_of_mem_ownReport {around : Enclosing} {n : Node}
    (hv : v ∈ ownReport c around n) : v.StartsWith n.walk := by
  cases n with
  | functionDef => exact startsWith_of_mem_ofFunction hv
  | classDef => rcases mem_ofClass hv with hv | hv <;> exact .of_mem_ite hv rfl
  | _ => simp [ownReport] at hv

theorem line_of_mem_check (hv : v ∈ check c u) : v.line = 1 ∨ v.StartsWith u.walk := by
  rcases mem_check hv with hv | ⟨around, n, hn, hv⟩
  · exact .inl (Violation.line_of_mem_ite hv)
  · exact .inr (.of_mem_walkAll hn (startsWith_of_mem_ownReport hv))

end Design

theorem Purity.startsWith_of_mem_check (hv : v ∈ check c u) : v.StartsWith u.walk := by
  obtain ⟨function, n, hn, hv⟩ := mem_check hv
  rcases mem_ownReport hv with ⟨name, message, rfl⟩ | ⟨name, kind, message, -, rfl⟩
  · exact ⟨n, hn, rfl⟩
  · exact ⟨n, hn, rfl⟩

namespace ErrorHandling

/-- A `try` is reported where it starts, or where one of its handlers does. -/
theorem startsWith_of_mem_ownReport {position : Nat × Option String} {n : Node}
    (hv : v ∈ ownReport c position n) : v.StartsWith n.walk := by
  rcases mem_ownReport hv with hv | ⟨h, hh, hv⟩
  · exact .of_mem_ite hv rfl
  · have hwalk : h ∈ n.walk := Node.walk_subset_of_mem_children hh h.mem_walk_self
    rcases mem_ofHandler hv with ⟨kind, message, -, rfl⟩ | ⟨-, message, rfl⟩
    · exact ⟨h, hwalk, rfl⟩
    · exact ⟨h, hwalk, rfl⟩

theorem startsWith_of_mem_check (hv : v ∈ check c u) : v.StartsWith u.walk := by
  obtain ⟨position, n, hn, hv⟩ := mem_check hv
  exact .of_mem_walkAll hn (startsWith_of_mem_ownReport hv)

end ErrorHandling

/-- A built-in rule reports on the first line of the file or of one of its nodes. -/
theorem line_of_mem_check {r : Rule} (hr : r ∈ all) (hv : v ∈ r.check c u) :
    v.line = 1 ∨ v.StartsWith u.walk := by
  simp only [all, List.mem_cons, List.not_mem_nil, or_false] at hr
  rcases hr with rfl | rfl | rfl | rfl
  · exact Complexity.line_of_mem_check hv
  · exact Design.line_of_mem_check hv
  · exact .inr (Purity.startsWith_of_mem_check hv)
  · exact .inr (ErrorHandling.startsWith_of_mem_check hv)

end Rule

end QualityGate
