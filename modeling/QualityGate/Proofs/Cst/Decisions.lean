import Mathlib.Data.List.Basic
import QualityGate.Proofs.Cst.Shape

/-! The decision points of a concrete tree. They are not counted in what decorates or heads a
definition, in imports and statements about names, and in the name that a handler gives; of a
string only the values in its fields count. -/
namespace QualityGate.Python.Cst

/-! ### What is counted -/

/-- The decision points that a node itself adds. -/
def decisionsAt (c : Cst) : Nat :=
  match c.kind with
  | .ifStatement | .elifClause | .whileStatement | .exceptClause | .exceptGroupClause
  | .booleanOperator => 1
  | .forStatement | .withStatement => if c.isAsync then 0 else 1
  | .listComprehension | .setComprehension | .dictionaryComprehension | .generatorExpression =>
    c.children.countP isClause
  | _ => 0

/-- What a handler catches, without the name for it; whatever stands behind the first exception
is a name for it. -/
def caughtIn (c : Cst) : List Cst :=
  match c.members.find? (·.kind != .block) with
  | none => []
  | some d => if d.kind = .asPattern then d.members.filter (·.field? != some .alias) else [d]

/-- The fields' values and the strings that stand right inside a string or a row of them. -/
def stringValues (c : Cst) : List Cst :=
  c.children.flatMap fun d =>
    match d.kind with
    | .string => [d]
    | .interpolation => d.childrenAs .expression
    | _ => []

/-- The nodes below a node that counting goes on with. -/
def followed (c : Cst) : List Cst :=
  match c.kind with
  | .functionDefinition | .classDefinition => c.childrenAs .body
  | .decoratedDefinition => c.childrenAs .definition
  | .importStatement | .importFromStatement | .globalStatement | .nonlocalStatement => []
  | .exceptClause | .exceptGroupClause => c.caughtIn ++ c.members.filter (·.kind = .block)
  | .string | .concatenatedString => c.stringValues
  | _ => c.children

theorem sizeOf_lt_of_mem_members {c d : Cst} (h : d ∈ c.members) : sizeOf d < sizeOf c :=
  sizeOf_lt_of_mem_children (List.mem_filter.mp h).1

theorem sizeOf_lt_of_mem_childrenAs {c d : Cst} {f : Field} (h : d ∈ c.childrenAs f) :
    sizeOf d < sizeOf c :=
  sizeOf_lt_of_mem_children (List.mem_filter.mp h).1

theorem sizeOf_lt_of_mem_caughtIn {c d : Cst} (h : d ∈ c.caughtIn) : sizeOf d < sizeOf c := by
  unfold caughtIn at h
  split at h
  · simp at h
  · rename_i e he
    have hlt := sizeOf_lt_of_mem_members (List.mem_of_find?_eq_some he)
    split at h
    · have := sizeOf_lt_of_mem_members (List.mem_filter.mp h).1
      omega
    · obtain rfl := List.mem_singleton.mp h
      exact hlt

theorem sizeOf_lt_of_mem_stringValues {c d : Cst} (h : d ∈ c.stringValues) :
    sizeOf d < sizeOf c := by
  obtain ⟨e, he, h⟩ := List.mem_flatMap.mp h
  have hlt := sizeOf_lt_of_mem_children he
  split at h
  · obtain rfl := List.mem_singleton.mp h
    exact hlt
  · have := sizeOf_lt_of_mem_childrenAs h
    omega
  · simp at h

theorem sizeOf_lt_of_mem_followed {c d : Cst} (h : d ∈ c.followed) : sizeOf d < sizeOf c := by
  unfold followed at h
  split at h
  · exact sizeOf_lt_of_mem_childrenAs h
  · exact sizeOf_lt_of_mem_childrenAs h
  · exact sizeOf_lt_of_mem_childrenAs h
  · simp at h
  · simp at h
  · simp at h
  · simp at h
  · rcases List.mem_append.mp h with h | h
    · exact sizeOf_lt_of_mem_caughtIn h
    · exact sizeOf_lt_of_mem_members (List.mem_filter.mp h).1
  · rcases List.mem_append.mp h with h | h
    · exact sizeOf_lt_of_mem_caughtIn h
    · exact sizeOf_lt_of_mem_members (List.mem_filter.mp h).1
  · exact sizeOf_lt_of_mem_stringValues h
  · exact sizeOf_lt_of_mem_stringValues h
  · exact sizeOf_lt_of_mem_children h

/-- The nodes that counting reaches from a node, that node first. -/
def reached (c : Cst) : List Cst := c :: c.followed.attach.flatMap fun ⟨d, _⟩ => reached d
termination_by sizeOf c
decreasing_by exact sizeOf_lt_of_mem_followed ‹_›

def decisions (c : Cst) : Nat := total (c.reached.map decisionsAt)

theorem decisions_eq (c : Cst) :
    c.decisions = c.decisionsAt + total (c.followed.map decisions) := by
  have hreached : c.reached = c :: c.followed.flatMap reached := by
    rw [reached]
    simp
  rw [decisions, hreached, List.map_cons, total_cons, total_map_flatMap]
  rfl

theorem decisions_of_children {c : Cst} {n : Nat}
    (h : c.decisionsAt = n ∧ c.followed = c.children) :
    c.decisions = n + total (c.children.map decisions) := by
  rw [decisions_eq, h.1, h.2]

end QualityGate.Python.Cst
