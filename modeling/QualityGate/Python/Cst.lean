import QualityGate.Python.Token.Basic
import QualityGate.Total

/-! The concrete syntax tree: every token and every construct of a text with its place.
Constructs that matter to nobody by name are all of the kind `construct`; comments and
line continuations stand where they were written. -/
namespace QualityGate.Python

/-- The kinds of nodes. Operators, delimiters and keywords are kept as tokens. -/
inductive Kind where
  | token (text : String)
  | comment
  | lineContinuation
  | functionDefinition
  | classDefinition
  | decoratedDefinition
  | ifStatement
  | elifClause
  | elseClause
  | forStatement
  | whileStatement
  | tryStatement
  | exceptClause
  | exceptGroupClause
  | finallyClause
  | withStatement
  | withClause
  | withItem
  | block
  | raiseStatement
  | globalStatement
  | nonlocalStatement
  | importStatement
  | importFromStatement
  | passStatement
  | expressionStatement
  | dottedName
  | aliasedImport
  | identifier
  | integer
  | float
  | string
  | stringStart
  | stringContent
  | stringEnd
  | interpolation
  | concatenatedString
  | trueLiteral
  | falseLiteral
  | noneLiteral
  | ellipsis
  | booleanOperator
  | await
  | call
  | argumentList
  | keywordArgument
  | attribute
  | subscript
  | tuple
  | list
  | listSplat
  | expressionList
  | parenthesizedExpression
  | listComprehension
  | setComprehension
  | dictionaryComprehension
  | generatorExpression
  | pair
  | forInClause
  | ifClause
  | asPattern
  | asPatternTarget
  | tuplePattern
  | listPattern
  | listSplatPattern
  | dictionarySplatPattern
  | defaultParameter
  | typedParameter
  | typedDefaultParameter
  | construct
deriving DecidableEq, Repr, Inhabited

/-- The roles that a node may play in its parent. -/
inductive Field where
  | name
  | parameters
  | superclasses
  | body
  | definition
  | condition
  | consequence
  | alternative
  | left
  | right
  | operator
  | value
  | key
  | alias
  | function
  | arguments
  | object
  | attribute
  | cause
  | moduleName
  | expression
deriving DecidableEq, Repr, Inhabited

inductive Cst where
  | node (kind : Kind) (field : Option Field) (start stop : Position) (children : List Cst)
deriving Inhabited

namespace Cst

def kind : Cst → Kind
  | node k .. => k

def field? : Cst → Option Field
  | node _ f .. => f

def start : Cst → Position
  | node _ _ p .. => p

def stop : Cst → Position
  | node _ _ _ p _ => p

def children : Cst → List Cst
  | node _ _ _ _ cs => cs

def withField (f : Field) : Cst → Cst
  | node k _ p q cs => node k (some f) p q cs

def withKind (k : Kind) : Cst → Cst
  | node _ f p q cs => node k f p q cs

def text (source : Array Char) (c : Cst) : String :=
  String.ofList (source.extract c.start.offset c.stop.offset).toList

def isComment (c : Cst) : Bool := c.kind = .comment

/-- Whether a node is more than a bare token. -/
def isNamed (c : Cst) : Bool :=
  match c.kind with
  | .token _ => false
  | _ => true

/-- The children that are neither bare tokens nor comments. -/
def parts (c : Cst) : List Cst := c.children.filter fun d => d.isNamed && !d.isComment

/-- The child in a role; of several, the first one. -/
def child? (c : Cst) (f : Field) : Option Cst := c.children.find? (·.field? = some f)

def childrenAs (c : Cst) (f : Field) : List Cst := c.children.filter (·.field? = some f)

/-- The first part of a kind. -/
def part? (c : Cst) (k : Kind) : Option Cst := c.parts.find? (·.kind = k)

/-- Whether a node starts with the word `async`. -/
def isAsync (c : Cst) : Bool := c.children.head?.any (·.kind = .token "async")

/-! ### Size -/

theorem sizeOf_lt_of_mem_children {c d : Cst} (h : d ∈ c.children) : sizeOf d < sizeOf c := by
  cases c with
  | node k f p q cs =>
    have : sizeOf d < sizeOf cs := List.sizeOf_lt_of_mem h
    simp only [node.sizeOf_spec]; omega

theorem mem_children_of_mem_parts {c d : Cst} (h : d ∈ c.parts) : d ∈ c.children :=
  (List.mem_filter.1 h).1

theorem mem_children_of_child? {c d : Cst} {f : Field} (h : c.child? f = some d) :
    d ∈ c.children := List.mem_of_find?_eq_some h

theorem mem_children_of_part? {c d : Cst} {k : Kind} (h : c.part? k = some d) :
    d ∈ c.children := mem_children_of_mem_parts (List.mem_of_find?_eq_some h)

def count (c : Cst) : Nat := 1 + total (c.children.attach.map fun ⟨d, _⟩ => count d)
termination_by sizeOf c
decreasing_by exact sizeOf_lt_of_mem_children ‹_›

theorem count_eq (c : Cst) : c.count = 1 + total (c.children.map count) := by
  rw [count]
  simp

theorem total_count_child?_le (c : Cst) (f : Field) :
    total ((c.child? f).toList.map count) ≤ total ((c.childrenAs f).map count) := by
  rw [child?, ← List.head?_filter, ← childrenAs]
  cases c.childrenAs f <;> simp

end Cst

end QualityGate.Python
