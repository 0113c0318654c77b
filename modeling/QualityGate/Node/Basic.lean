/-! The tree that rules work on. It knows definitions, branches, loops, handlers,
context blocks, calls and a few expressions; everything else is `other` and counts
only through its children. Every node covers a span of lines. -/
namespace QualityGate

structure Span where
  first : Nat
  last : Nat
deriving DecidableEq, Repr, Inhabited

inductive ParameterMode where
  | positional
  | restPositional
  | restKeyword
deriving DecidableEq, Repr, Inhabited

structure Parameter where
  name : String
  mode : ParameterMode
deriving DecidableEq, Repr, Inhabited

structure FunctionHead where
  name : String
  parameters : List Parameter
  isAsync : Bool
deriving DecidableEq, Repr, Inhabited

structure ClassHead where
  name : String
  bases : List String
deriving DecidableEq, Repr, Inhabited

inductive LoopForm where
  | forEach
  | whileTrue
  | asyncForEach
deriving DecidableEq, Repr, Inhabited

inductive BoolOperator where
  | conjunction
  | disjunction
deriving DecidableEq, Repr, Inhabited

/-- A constant, with its text where it has one. -/
inductive Literal where
  | str (text : String)
  | bytes (text : String)
  | number (text : String)
  | bool (value : Bool)
  | none
  | ellipsis
deriving DecidableEq, Repr, Inhabited

/-- A clause of a comprehension: target and source, then the filters behind it. -/
structure Generator (α : Type) where
  header : List α
  filters : List α

inductive Node where
  | functionDef (span : Span) (head : FunctionHead) (body : List Node)
  | classDef (span : Span) (head : ClassHead) (body : List Node)
  | branch (span : Span) (isElif : Bool) (test : Node) (body orelse : List Node)
  | loop (span : Span) (form : LoopForm) (header body orelse : List Node)
  | tryExcept (span : Span) (body handlers orelse final : List Node)
  | handler (span : Span) (caught : Option Node) (name : Option String) (body : List Node)
  | withBlock (span : Span) (isAsync : Bool) (items body : List Node)
  | boolOp (span : Span) (operator : BoolOperator) (values : List Node)
  | comprehension (span : Span) (element : List Node) (generators : List (Generator Node))
  | call (span : Span) (callee : String) (func : Node) (arguments : List Node)
  | raise (span : Span) (exception cause : Option Node)
  | globalNames (span : Span) (names : List String)
  | nonlocalNames (span : Span) (names : List String)
  | await (span : Span) (value : Node)
  | imports (span : Span) (modules : List String)
  | literal (span : Span) (value : Literal)
  | name (span : Span) (name : String)
  | tuple (span : Span) (items : List Node)
  | pass (span : Span)
  | other (span : Span) (children : List Node)

namespace Node

instance : Inhabited Node := ⟨.other default []⟩

def span : Node → Span
  | functionDef s .. | classDef s .. | branch s .. | loop s .. | tryExcept s .. | handler s ..
  | withBlock s .. | boolOp s .. | comprehension s .. | call s .. | raise s ..
  | globalNames s .. | nonlocalNames s .. | await s .. | imports s .. | literal s ..
  | name s .. | tuple s .. | pass s | other s .. => s

def line (n : Node) : Nat := n.span.first

/-- The nodes of the clauses of a comprehension, clause by clause. -/
def clauseNodes : List (Generator Node) → List Node
  | [] => []
  | g :: gs => g.header ++ g.filters ++ clauseNodes gs

/-- The direct children in source order. -/
def children : Node → List Node
  | functionDef _ _ body => body
  | classDef _ _ body => body
  | branch _ _ test body orelse => test :: (body ++ orelse)
  | loop _ _ header body orelse => header ++ body ++ orelse
  | tryExcept _ body handlers orelse final => body ++ handlers ++ orelse ++ final
  | handler _ caught _ body => caught.toList ++ body
  | withBlock _ _ items body => items ++ body
  | boolOp _ _ values => values
  | comprehension _ element generators => element ++ clauseNodes generators
  | call _ _ func arguments => func :: arguments
  | raise _ exception cause => exception.toList ++ cause.toList
  | await _ value => [value]
  | tuple _ items => items
  | other _ children => children
  | globalNames .. | nonlocalNames .. | imports .. | literal .. | name .. | pass _ => []

/-- Whether a node opens a level of nesting. Asynchronous loops and blocks do not. -/
def isControl : Node → Bool
  | branch .. | tryExcept .. => true
  | loop _ form .. => form != .asyncForEach
  | withBlock _ isAsync .. => !isAsync
  | _ => false

def isDefinition : Node → Bool
  | functionDef .. | classDef .. => true
  | _ => false

/-- Whether a node is a branch that continues another branch. -/
def isElif : Node → Bool
  | branch _ isElif .. => isElif
  | _ => false

def isRaise : Node → Bool
  | raise .. => true
  | _ => false

def functionHead? : Node → Option FunctionHead
  | functionDef _ head _ => some head
  | _ => none

def classHead? : Node → Option ClassHead
  | classDef _ head _ => some head
  | _ => none

/-! ### Size -/

theorem sizeOf_lt_of_mem_clauseNodes {c : Node} {gs : List (Generator Node)}
    (h : c ∈ clauseNodes gs) : sizeOf c < sizeOf gs := by
  induction gs with
  | nil => simp [clauseNodes] at h
  | cons g gs ih =>
    simp only [clauseNodes, List.mem_append] at h
    have hg : sizeOf g = 1 + sizeOf g.header + sizeOf g.filters := by cases g; simp
    simp only [List.cons.sizeOf_spec]
    rcases h with (h | h) | h
    · have := List.sizeOf_lt_of_mem h; omega
    · have := List.sizeOf_lt_of_mem h; omega
    · have := ih h; omega

theorem sizeOf_lt_of_mem_toList {c : Node} {o : Option Node} (h : c ∈ o.toList) :
    sizeOf c < sizeOf o := by
  cases o with
  | none => simp at h
  | some d => simp at h; subst h; simp

/-- A child is smaller than its parent. -/
theorem sizeOf_lt_of_mem_children {c n : Node} (h : c ∈ n.children) : sizeOf c < sizeOf n := by
  cases n <;> simp only [children, List.mem_append, List.mem_cons, List.not_mem_nil] at h <;>
    simp only [functionDef.sizeOf_spec, classDef.sizeOf_spec, branch.sizeOf_spec, loop.sizeOf_spec,
      tryExcept.sizeOf_spec, handler.sizeOf_spec, withBlock.sizeOf_spec, boolOp.sizeOf_spec,
      comprehension.sizeOf_spec, call.sizeOf_spec, raise.sizeOf_spec, await.sizeOf_spec,
      tuple.sizeOf_spec, other.sizeOf_spec]
  case branch =>
    rcases h with rfl | h | h
    · omega
    all_goals have := List.sizeOf_lt_of_mem h; omega
  case loop =>
    rcases h with (h | h) | h
    all_goals have := List.sizeOf_lt_of_mem h; omega
  case tryExcept =>
    rcases h with ((h | h) | h) | h
    all_goals have := List.sizeOf_lt_of_mem h; omega
  case handler =>
    rcases h with h | h
    · have := sizeOf_lt_of_mem_toList h; omega
    · have := List.sizeOf_lt_of_mem h; omega
  case withBlock =>
    rcases h with h | h
    all_goals have := List.sizeOf_lt_of_mem h; omega
  case comprehension =>
    rcases h with h | h
    · have := List.sizeOf_lt_of_mem h; omega
    · have := sizeOf_lt_of_mem_clauseNodes h; omega
  case call =>
    rcases h with rfl | h
    · omega
    · have := List.sizeOf_lt_of_mem h; omega
  case raise =>
    rcases h with h | h
    all_goals have := sizeOf_lt_of_mem_toList h; omega
  case await =>
    rcases h with rfl | h
    · omega
    · exact h.elim
  all_goals have := List.sizeOf_lt_of_mem h; omega

end Node

end QualityGate
