import QualityGate.Node.Walk

/-! Measures of the tree. All of them cover the whole subtree, so a function's
numbers include the functions nested in it. Cyclomatic complexity counts decision
points; cognitive complexity weighs control structures by how deep they sit;
nesting depth is the longest chain of control structures. -/
namespace QualityGate

namespace Node

/-- The decision points that a node itself adds. -/
def decisionPoints : Node → Nat
  | branch .. | handler .. => 1
  | loop _ form .. => if form = .asyncForEach then 0 else 1
  | withBlock _ isAsync .. => if isAsync then 0 else 1
  | boolOp _ _ values => values.length - 1
  | comprehension _ _ generators => total (generators.map fun g => 1 + g.filters.length)
  | _ => 0

/-- One plus the decision points of the subtree. -/
def cyclomatic (n : Node) : Nat := 1 + total (n.walk.map decisionPoints)

/-- The cognitive complexity of a node that sits at a level of nesting. A control
structure costs one more than its level, and what it holds sits one level deeper. A
branch's test stays at the branch's level, and so does a branch that continues it,
for one more; a handler costs one. -/
def cognitiveAt (level : Nat) : Node → Nat
  | branch _ _ test body orelse =>
    1 + level + cognitiveAt level test + total (body.map fun c => cognitiveAt (level + 1) c)
      + total (orelse.map fun c =>
          if c.isElif then 1 + cognitiveAt level c else cognitiveAt (level + 1) c)
  | tryExcept _ body handlers orelse final =>
    1 + level + total (body.map fun c => cognitiveAt (level + 1) c)
      + total (handlers.map fun c => 1 + cognitiveAt (level + 1) c)
      + total (orelse.map fun c => cognitiveAt (level + 1) c)
      + total (final.map fun c => cognitiveAt (level + 1) c)
  | n =>
    if n.isControl then
      1 + level + total (n.children.attach.map fun ⟨c, _⟩ => cognitiveAt (level + 1) c)
    else total (n.children.attach.map fun ⟨c, _⟩ => cognitiveAt level c)
termination_by n => sizeOf n
decreasing_by
  all_goals first
    | exact sizeOf_lt_of_mem_children ‹_›
    | (apply sizeOf_lt_of_mem_children; simp [children, *])

def cognitive (n : Node) : Nat := cognitiveAt 0 n

/-- The depth reached below a node whose own depth is given. -/
def depthBelow (current : Nat) (n : Node) : Nat :=
  (n.children.attach.map fun ⟨c, _⟩ =>
    depthBelow (if c.isControl then current + 1 else current) c).foldl max current
termination_by sizeOf n
decreasing_by exact sizeOf_lt_of_mem_children ‹_›

/-- The largest number of control structures on a path below the node. -/
def nestingDepth (n : Node) : Nat := depthBelow 0 n

/-- The number of lines that a node spans, never less than one. -/
def lineSpan (n : Node) : Nat := n.span.last - n.span.first + 1

end Node

/-- The parameters that count: every positional one, and one for each kind of rest. -/
def FunctionHead.parameterCount (f : FunctionHead) : Nat :=
  let has (mode : ParameterMode) : Nat := if f.parameters.any (·.mode = mode) then 1 else 0
  f.parameters.countP (·.mode = .positional) + has .restPositional + has .restKeyword

structure FunctionMetrics where
  complexity : Nat
  cognitive : Nat
  nesting : Nat
  length : Nat
  parameters : Nat
deriving DecidableEq, Repr

def FunctionMetrics.measure (n : Node) (head : FunctionHead) : FunctionMetrics where
  complexity := n.cyclomatic
  cognitive := n.cognitive
  nesting := n.nestingDepth
  length := n.lineSpan
  parameters := head.parameterCount

/-- The measures of a function definition; other nodes have none. -/
def Node.functionMetrics? (n : Node) : Option FunctionMetrics :=
  n.functionHead?.map (FunctionMetrics.measure n)

end QualityGate
