import QualityGate.Proofs.Node.Inheritance
import QualityGate.Rule.Catalogue

/-! The built-in rules node by node. What a rule reports for a node is decided by the
node, by the file's context and by what the node inherits: the names of the definitions
around it, the definition that encloses it most closely, the innermost function, or the
number of `try` statements above it. A check lists these reports in source order, and a report
takes one of a few forms. -/
namespace QualityGate.Rule

open Node (walkAllWith)

namespace Complexity

/-- A definition hands its name down, behind the names around it. -/
def namesBelow (scope : List String) : Node → List String
  | .functionDef _ head _ => scope ++ [head.name]
  | .classDef _ head _ => scope ++ [head.name]
  | _ => scope

/-- What a node is reported for: a function, for its measures. -/
def ownReport (c : FileContext) (scope : List String) : Node → List Violation
  | .functionDef span head body =>
    ofFunction c span.first scope head.name (FunctionMetrics.measure (.functionDef span head body) head)
  | _ => []

theorem ofNode_eq (c : FileContext) (scope : List String) (n : Node) :
    ofNode c scope n = ownReport c scope n ++ n.children.flatMap (ofNode c (namesBelow scope n)) := by
  cases n with
  | functionDef | classDef =>
    rw [ofNode]
    rfl
  | _ =>
    rw [ofNode] <;> simp [ownReport, namesBelow]

theorem check_eq (c : FileContext) (u : SourceUnit) :
    check c u = ofLength c u.lineCount ++
      (walkAllWith namesBelow [] u.body).flatMap fun p => ownReport c p.1 p.2 := by
  rw [check, Node.flatMap_eq_flatMap_walkAllWith (ofNode_eq c)]

theorem mem_check {c : FileContext} {u : SourceUnit} {v : Violation} (hv : v ∈ check c u) :
    v ∈ ofLength c u.lineCount ∨ ∃ scope, ∃ n ∈ u.walk, v ∈ ownReport c scope n := by
  rw [check_eq, List.mem_append] at hv
  exact hv.imp_right Node.exists_mem_walkAll_of_mem_flatMap

end Complexity

namespace Design

/-- A definition encloses what stands below it. -/
def enclosingBelow (around : Enclosing) : Node → Enclosing
  | .functionDef .. => .inFunction
  | .classDef _ head _ => .inClass head.name
  | _ => around

/-- What a node is reported for: a function or a class, for its shape. -/
def ownReport (c : FileContext) (around : Enclosing) : Node → List Violation
  | .functionDef span head body => ofFunction c around span.first head.name body
  | .classDef span head body => ofClass c span.first head body
  | _ => []

theorem ofNode_eq (c : FileContext) (around : Enclosing) (n : Node) :
    ofNode c around n =
      ownReport c around n ++ n.children.flatMap (ofNode c (enclosingBelow around n)) := by
  cases n with
  | functionDef | classDef =>
    rw [ofNode]
    rfl
  | _ =>
    rw [ofNode] <;> simp [ownReport, enclosingBelow]

theorem check_eq (c : FileContext) (u : SourceUnit) :
    check c u = byPrinciple (ofLength c u.lineCount ++
      (walkAllWith enclosingBelow .module u.body).flatMap fun p => ownReport c p.1 p.2) := by
  rw [check, Node.flatMap_eq_flatMap_walkAllWith (ofNode_eq c)]

theorem mem_check {c : FileContext} {u : SourceUnit} {v : Violation} (hv : v ∈ check c u) :
    v ∈ ofLength c u.lineCount ∨ ∃ around, ∃ n ∈ u.walk, v ∈ ownReport c around n := by
  rw [check_eq, byPrinciple, List.mem_flatMap] at hv
  obtain ⟨k, -, hv⟩ := hv
  exact (List.mem_append.mp (List.mem_filter.mp hv).1).imp_right
    Node.exists_mem_walkAll_of_mem_flatMap

/-- A class is reported for its size, and an interface once more. -/
theorem mem_ofClass {c : FileContext} {line : Nat} {head : ClassHead} {body : List Node}
    {v : Violation} (hv : v ∈ ofClass c line head body) :
    v ∈ ofClassSize c line head.name (publicMethods body) ∨
      v ∈ ofInterfaceSize c line head.name (publicMethods body) := by
  rcases List.mem_append.mp hv with hv | hv
  · exact .inl hv
  · split at hv
    · exact .inr hv
    · simp at hv

/-- A function is reported for asking for classes, or for what stands in its scope: a missing
implementation, and in the core an instantiation. -/
theorem mem_ofFunction {c : FileContext} {around : Enclosing} {line : Nat} {name : String}
    {body : List Node} {v : Violation} (hv : v ∈ ofFunction c around line name body) :
    v ∈ ofCascade c line name ((Node.scopeAll body).countP branchesOnClass) ∨
    (∃ n ∈ Node.scopeAll body, ∃ className, v = ofMissing c n.line className name) ∨
    c.tag .design = .core ∧
      ∃ n ∈ Node.scopeAll body, ∃ service, v = ofInstantiation c n.line name service := by
  simp only [ofFunction, List.mem_append] at hv
  rcases hv with (hv | hv) | hv
  · exact .inl hv
  · cases around with
    | inClass className =>
      obtain ⟨n, hn, rfl⟩ := List.mem_map.mp hv
      exact .inr (.inl ⟨n, (List.mem_filter.mp hn).1, className, rfl⟩)
    | _ => simp at hv
  · -- an instantiation is only looked for in the core
    cases htag : c.tag .design with
    | core =>
      rw [htag] at hv
      obtain ⟨n, hn, hv⟩ := List.mem_filterMap.mp hv
      obtain ⟨service, -, rfl⟩ := Option.map_eq_some_iff.mp hv
      exact .inr (.inr ⟨rfl, n, hn, service, rfl⟩)
    | shell => simp [htag] at hv

end Design

namespace Purity

/-- A function hands its name down in place of the one around it. -/
def functionBelow (function : Option String) : Node → Option String
  | .functionDef _ head _ => some head.name
  | _ => function

/-- What a node is reported for: an asynchronous function anywhere, any other impurity
inside a function. -/
def ownReport (c : FileContext) (severity : Severity) (function : Option String) :
    Node → List Violation
  | .functionDef span head _ => ofAsync c severity span.first head
  | n => ownFinding c severity function n

theorem ofNode_eq (c : FileContext) (severity : Severity) (function : Option String) (n : Node) :
    ofNode c severity function n = ownReport c severity function n ++
      n.children.flatMap (ofNode c severity (functionBelow function n)) := by
  cases n with
  | functionDef =>
    rw [ofNode]
    rfl
  | _ =>
    rw [ofNode] <;> simp [ownReport, functionBelow]

theorem check_eq (c : FileContext) (u : SourceUnit) :
    check c u = (walkAllWith functionBelow none u.body).flatMap fun p =>
      ownReport c (severityFor (c.tag .purity)) p.1 p.2 := by
  rw [check, Node.flatMap_eq_flatMap_walkAllWith (ofNode_eq c _)]

theorem mem_check {c : FileContext} {u : SourceUnit} {v : Violation} (hv : v ∈ check c u) :
    ∃ function, ∃ n ∈ u.walk, v ∈ ownReport c (severityFor (c.tag .purity)) function n := by
  rw [check_eq] at hv
  exact Node.exists_mem_walkAll_of_mem_flatMap hv

/-- A node is reported where it stands, for being asynchronous or for its impurity. -/
theorem mem_ownReport {c : FileContext} {severity : Severity} {function : Option String} {n : Node}
    {v : Violation} (hv : v ∈ ownReport c severity function n) :
    (∃ name message, v = finding c severity name n.line .asynchrony message) ∨
    ∃ name kind message, impurity? n = some (kind, message) ∧
      v = finding c severity name n.line kind message := by
  unfold ownReport at hv
  split at hv
  · rw [ofAsync, List.mem_ite_nil_right, List.mem_singleton] at hv
    exact .inl ⟨_, _, hv.2⟩
  · unfold ownFinding at hv
    split at hv
    · exact .inr ⟨_, _, _, ‹_›, List.mem_singleton.mp hv⟩
    · simp at hv

end Purity

namespace ErrorHandling

/-- A function hands its name down, and a `try` counts for what it holds. -/
def positionBelow (position : Nat × Option String) : Node → Nat × Option String
  | .functionDef _ head _ => (position.1, some head.name)
  | .tryExcept .. => (position.1 + 1, position.2)
  | _ => position

/-- What a node is reported for: a `try`, for its handlers and for its depth. -/
def ownReport (c : FileContext) (position : Nat × Option String) : Node → List Violation
  | .tryExcept span _ handlers _ _ =>
    handlers.flatMap (ofHandler c position.2) ++ ofDepth c position.2 span.first (position.1 + 1)
  | _ => []

theorem ofNode_eq (c : FileContext) (position : Nat × Option String) (n : Node) :
    ofNode c position.1 position.2 n = ownReport c position n ++ n.children.flatMap fun k =>
      ofNode c (positionBelow position n).1 (positionBelow position n).2 k := by
  cases n with
  | functionDef =>
    rw [ofNode]
    rfl
  | tryExcept =>
    rw [ofNode]
    simp [ownReport, positionBelow]
  | _ =>
    rw [ofNode] <;> simp [ownReport, positionBelow]

theorem check_eq (c : FileContext) (u : SourceUnit) :
    check c u = (walkAllWith positionBelow (0, none) u.body).flatMap fun p =>
      ownReport c p.1 p.2 :=
  Node.flatMap_eq_flatMap_walkAllWith (ofNode_eq c) (0, none) u.body

theorem mem_check {c : FileContext} {u : SourceUnit} {v : Violation} (hv : v ∈ check c u) :
    ∃ position, ∃ n ∈ u.walk, v ∈ ownReport c position n := by
  rw [check_eq] at hv
  exact Node.exists_mem_walkAll_of_mem_flatMap hv

/-- A handler is reported for catching everything or nothing in particular, or for its silence. -/
theorem mem_ofHandler {c : FileContext} {function : Option String} {n : Node} {v : Violation}
    (hv : v ∈ ofHandler c function n) :
    (∃ kind message, (kind = .bareExcept ∨ kind = .exceptPass) ∧
      v = finding c function n.line kind .error message) ∨
    c.tag .errorHandling = .core ∧
      ∃ message, v = finding c function n.line .exceptionSwallowed .warning message := by
  unfold ofHandler at hv
  split at hv
  · split at hv
    · exact .inl ⟨_, _, .inl rfl, List.mem_singleton.mp hv⟩
    · split_ifs at hv with hsilent hswallowed
      · exact .inl ⟨_, _, .inr rfl, List.mem_singleton.mp hv⟩
      · have htag : c.tag .errorHandling = .core := by
          simp only [Bool.and_eq_true, decide_eq_true_eq] at hswallowed
          exact hswallowed.1.1
        exact .inr ⟨htag, _, List.mem_singleton.mp hv⟩
      · simp at hv
  · simp at hv

/-- A `try` is reported for its depth or for one of its handlers. -/
theorem mem_ownReport {c : FileContext} {position : Nat × Option String} {n : Node} {v : Violation}
    (hv : v ∈ ownReport c position n) :
    v ∈ ofDepth c position.2 n.line (position.1 + 1) ∨
      ∃ h ∈ n.children, v ∈ ofHandler c position.2 h := by
  cases n with
  | tryExcept span body handlers orelse final =>
    simp only [ownReport, List.mem_append, List.mem_flatMap] at hv
    rcases hv with ⟨h, hh, hv⟩ | hv
    · exact .inr ⟨h, by simp [Node.children, hh], hv⟩
    · exact .inl hv
  | _ => simp [ownReport] at hv

end ErrorHandling

end QualityGate.Rule
