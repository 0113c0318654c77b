import QualityGate.Node.Basic
import QualityGate.Python.Cst

/-! From the concrete syntax tree to the tree that rules work on. Every node that is
lowered, and every `elif`, opens a level inside the one it is reached from; levels are
limited, and a tree that needs more of them has no lowered form. Statements around one
expression, parentheses and decorators leave no node of their own, and chains of `and`
or `or` become one node. -/
namespace QualityGate.Python

namespace Cst

/-! ### Lines -/

/-- Where the last token of a node stops that is no comment. -/
def contentEnd (c : Cst) : Position :=
  match _h : (c.children.filter fun d => !d.isComment).getLast? with
  | some d => contentEnd d
  | none => c.stop
termination_by sizeOf c
decreasing_by
  exact sizeOf_lt_of_mem_children (List.mem_filter.1 (List.mem_of_getLast? _h)).1

/-- The lines of a node; one that stops before the first character of a line does not
reach that line. -/
def span (c : Cst) : Span :=
  let stop := c.contentEnd
  ⟨c.start.row + 1, if stop.column = 0 && c.start.row < stop.row then stop.row else stop.row + 1⟩

/-! ### Names -/

/-- The name that an identifier or a chain of attributes of one spells. -/
def dotted? (source : Array Char) (c : Cst) : Option String :=
  match c.kind with
  | .identifier => some (c.text source)
  | .attribute =>
    match _h : c.child? .object, c.child? .attribute with
    | some object, some name => (dotted? source object).map (· ++ "." ++ name.text source)
    | _, _ => none
  | _ => none
termination_by sizeOf c
decreasing_by exact sizeOf_lt_of_mem_children (mem_children_of_child? _h)

/-- The attributes that end an expression, with the name they belong to if there is one. -/
def trail (source : Array Char) (c : Cst) : List String :=
  if c.kind = .attribute then
    let own := ((c.child? .attribute).map (text source)).toList
    match _h : c.child? .object with
    | some object => trail source object ++ own
    | none => own
  else if c.kind = .identifier then [c.text source]
  else []
termination_by sizeOf c
decreasing_by exact sizeOf_lt_of_mem_children (mem_children_of_child? _h)

/-- What a called expression is known as. -/
def callee (source : Array Char) (c : Cst) : String := ".".intercalate (c.trail source)

/-- The text of a child in a role, or nothing. -/
def childText (source : Array Char) (c : Cst) (f : Field) : String :=
  ((c.child? f).map (text source)).getD ""

def names (source : Array Char) (c : Cst) : List String :=
  (c.parts.filter (·.kind = .identifier)).map (text source)

def modules (source : Array Char) (c : Cst) : List String :=
  match c.child? .moduleName with
  | some m => [m.text source]
  | none => c.parts.filterMap fun d =>
    match d.kind with
    | .dottedName => some (d.text source)
    | .aliasedImport => (d.child? .name).map (text source)
    | _ => none

/-! ### Definitions -/

def splatName (source : Array Char) (c : Cst) : String :=
  (c.parts.head?.map (text source)).getD ""

/-- A parameter; the marks between parameters are none. -/
def parameter? (source : Array Char) (c : Cst) : Option Parameter :=
  match c.kind with
  | .identifier | .tuplePattern => some ⟨c.text source, .positional⟩
  | .defaultParameter | .typedDefaultParameter => some ⟨c.childText source .name, .positional⟩
  | .listSplatPattern => some ⟨c.splatName source, .restPositional⟩
  | .dictionarySplatPattern => some ⟨c.splatName source, .restKeyword⟩
  | .typedParameter =>
    match _h : c.parts.head? with
    | some d => parameter? source d
    | none => none
  | _ => none
termination_by sizeOf c
decreasing_by
  exact sizeOf_lt_of_mem_children (mem_children_of_mem_parts (List.mem_of_head? _h))

def functionHead (source : Array Char) (c : Cst) : FunctionHead where
  name := c.childText source .name
  parameters := ((c.child? .parameters).map fun p => p.parts.filterMap (parameter? source)).getD []
  isAsync := c.isAsync

/-- What a class definition says before its body; bases that are no names are left out. -/
def classHead (source : Array Char) (c : Cst) : ClassHead where
  name := c.childText source .name
  bases := ((c.child? .superclasses).map fun p => p.parts.filterMap (dotted? source)).getD []

/-! ### Conditions -/

def boolOperator (c : Cst) : BoolOperator :=
  if (c.child? .operator).any (·.kind = .token "or") then .disjunction else .conjunction

/-- Whether a node joins two conditions by an operator. -/
def joins (op : BoolOperator) (c : Cst) : Bool :=
  c.kind = .booleanOperator && c.boolOperator = op

/-- The two sides of a condition, the left one first; a missing one is left out. -/
def sides (c : Cst) : List Cst := [Field.left, .right].filterMap c.child?

theorem sides_eq (c : Cst) : c.sides = (c.child? .left).toList ++ (c.child? .right).toList := by
  rw [sides, List.filterMap_cons, List.filterMap_cons, List.filterMap_nil]
  cases c.child? .left <;> cases c.child? .right <;> rfl

/-- The sides of a node have together fewer nodes than it has. -/
theorem total_count_sides_lt (c : Cst) : total (c.sides.map count) < c.count := by
  have hleft := c.total_count_child?_le .left
  have hright := c.total_count_child?_le .right
  have hroles := total_map_filter_add_le (p := fun d : Cst => d.field? = some .left)
    (q := fun d => d.field? = some .right) (by simp +contextual) c.children count
  rw [sides_eq, List.map_append, total_append, count_eq c]
  simp only [childrenAs] at hleft hright
  omega

/-- A chain of conditions that is being taken apart: the nodes still to be looked at, on a stack
that grows to the right, and the operands found so far. -/
structure Flattening where
  pending : Array Cst
  found : Array Cst

namespace Flattening

/-- The node on top leaves the stack. If it joins two conditions by the operator, its sides are
put there, the left one on top; any other node is an operand. -/
def step? (op : BoolOperator) (s : Flattening) : Option Flattening :=
  if h : 0 < s.pending.size then
    let c := s.pending.back h
    if c.joins op then
      some { s with pending := s.pending.pop ++ [Field.right, .left].filterMap c.child? }
    else some ⟨s.pending.pop, s.found.push c⟩
  else none

/-- A chain that is being taken apart, by lists; the node on top is the first one pending. -/
def ofLists (pending found : List Cst) : Flattening := ⟨pending.reverse.toArray, found.toArray⟩

theorem exists_ofLists (s : Flattening) : ∃ pending found, s = ofLists pending found :=
  ⟨s.pending.toList.reverse, s.found.toList, by simp [ofLists]⟩

/-- What is first gives way to its sides or is an operand. -/
theorem step?_cons (op : BoolOperator) (c : Cst) (pending found : List Cst) :
    (ofLists (c :: pending) found).step? op =
      if c.joins op then some (ofLists (c.sides ++ pending) found)
      else some (ofLists pending (found ++ [c])) := by
  have hstack : ofLists (c :: pending) found =
      ⟨pending.reverse.toArray.push c, found.toArray⟩ := by
    simp [ofLists]
  have hreverse : [Field.right, .left].filterMap c.child? = c.sides.reverse := by
    rw [sides, ← List.filterMap_reverse]
    rfl
  have hsides : pending.reverse.toArray ++ [Field.right, .left].filterMap c.child? =
      (c.sides ++ pending).reverse.toArray := by
    simp [hreverse]
  have hsize : 0 < (pending.reverse.toArray.push c).size := by
    simp
  have htop : (pending.reverse.toArray.push c).back hsize = c := by
    simp [Array.back]
  rw [hstack, step?, dif_pos hsize]
  simp only [htop, Array.pop_push, hsides]
  simp [ofLists]

/-- The number of nodes on the stack and below them. -/
def weight (s : Flattening) : Nat := total (s.pending.toList.map count)

theorem weight_ofLists (pending found : List Cst) :
    (ofLists pending found).weight = total (pending.map count) := by
  simp only [weight, ofLists, total_map_reverse]

theorem weight_lt_of_step? {op : BoolOperator} {s s' : Flattening} (h : s.step? op = some s') :
    s'.weight < s.weight := by
  obtain ⟨pending, found, rfl⟩ := s.exists_ofLists
  cases pending with
  | nil => cases h
  | cons c pending =>
    have hcount := count_eq c
    rw [step?_cons] at h
    rw [weight_ofLists, List.map_cons, total_cons]
    split at h
    · obtain rfl := Option.some.inj h
      have hsides := c.total_count_sides_lt
      rw [weight_ofLists, List.map_append, total_append]
      omega
    · obtain rfl := Option.some.inj h
      rw [weight_ofLists]
      omega

/-- The operands that are found when the stack is empty. -/
def run (op : BoolOperator) (s : Flattening) : Array Cst :=
  match _h : s.step? op with
  | none => s.found
  | some s' => run op s'
termination_by s.weight
decreasing_by exact weight_lt_of_step? _h

theorem run_eq (op : BoolOperator) (s : Flattening) : s.run op =
    match s.step? op with
    | none => s.found
    | some s' => s'.run op := by
  rw [run]
  split
  next h => rw [h]
  next h => rw [h]

end Flattening

/-- The operands of a chain of conditions with one operator, from left to right. -/
def operands (op : BoolOperator) (c : Cst) : List Cst := (Flattening.run op ⟨#[c], #[]⟩).toList

/-! ### Strings -/

/-- The runs of content and the fields' values of a string or of several in a row. -/
def stringPieces (source : Array Char) (c : Cst) : List (String ⊕ Cst) :=
  c.parts.attach.flatMap fun ⟨d, _⟩ =>
    match d.kind with
    | .string => stringPieces source d
    | .stringContent => [.inl (d.text source)]
    | .interpolation => ((d.child? .expression).map .inr).toList
    | _ => []
termination_by sizeOf c
decreasing_by exact sizeOf_lt_of_mem_children (mem_children_of_mem_parts ‹_›)

/-- Whether a string, or the first of several, holds bytes. -/
def isBytes (source : Array Char) (c : Cst) : Bool :=
  if c.kind = .concatenatedString then
    match _h : c.parts.head? with
    | some d => isBytes source d
    | none => false
  else
    (c.part? .stringStart).any fun d => (d.text source).toList.any fun x => x = 'b' || x = 'B'
termination_by sizeOf c
decreasing_by
  exact sizeOf_lt_of_mem_children (mem_children_of_mem_parts (List.mem_of_head? _h))

end Cst

/-! ### Lowering

A level only makes a node of what `descend` makes of the parts of a subtree, in whatever monad
that happens. -/

/-- A part of the tree that becomes one node: a node, or an `elif` with the clauses that
follow it. -/
inductive Subtree where
  | whole (c : Cst)
  | elifChain (clause : Cst) (rest : List Cst)

namespace Lowering

variable {m : Type → Type} [Monad m] (source : Array Char) (descend : Subtree → m Node)

/-- A childless node on the lines of another one. -/
def placeholder (c : Cst) : Node := .other c.span []

def all (cs : List Cst) : m (List Node) := cs.mapM fun c => descend (.whole c)

def child (c : Cst) (f : Field) : m (List Node) := all descend (c.child? f).toList

/-- A child, or a placeholder where it is missing. -/
def childOr (c place : Cst) (f : Field) : m Node :=
  match c.child? f with
  | some d => descend (.whole d)
  | none => return placeholder place

/-- The statements of a block that may be missing. -/
def block (c : Option Cst) : m (List Node) :=
  all descend ((c.map Cst.parts).getD [])

/-- The statements of a clause for all other cases. -/
def otherwise (c : Option Cst) : m (List Node) :=
  block descend (c.bind fun d => (d.child? .body).or (d.part? .block))

/-- What a branch does otherwise, by the clauses behind it. -/
def alternatives : List Cst → m (List Node)
  | [] => return []
  | c :: rest =>
    if c.kind = .elifClause then do return [← descend (.elifChain c rest)]
    else otherwise descend (some c)

/-- A branch with its condition and the clauses behind it. -/
def branch (lines : Span) (isElif : Bool) (c : Cst) (rest : List Cst) : m Node := do
  return .branch lines isElif (← childOr descend c c .condition)
    (← block descend (c.child? .consequence)) (← alternatives descend rest)

def loop (c : Cst) (form : LoopForm) (header : List Field) : m Node := do
  return .loop c.span form (← header.mapM (child descend c)).flatten
    (← block descend (c.child? .body)) (← otherwise descend (c.child? .alternative))

def tryExcept (c : Cst) : m Node := do
  let body ← block descend (c.child? .body)
  let handlers ← all descend (c.parts.filter fun d =>
    d.kind = .exceptClause || d.kind = .exceptGroupClause)
  let others ← (c.parts.filter (·.kind = .elseClause)).mapM fun d => otherwise descend (some d)
  let finals ← (c.parts.filter (·.kind = .finallyClause)).mapM fun d =>
    block descend (d.part? .block)
  return .tryExcept c.span body handlers (others.getLast?.getD []) (finals.getLast?.getD [])

/-- What a handler catches and the name it gives to it: what stands before its block. -/
def caught : List Cst → m (Option Node × Option String)
  | [] => return (none, none)
  | p :: rest =>
    if p.kind = .asPattern then do
      let types ← all descend p.parts.head?.toList
      return (types.head?, (p.child? .alias).map (Cst.text source))
    else do
      let type ← descend (.whole p)
      return (some type, rest.head?.map (Cst.text source))

def handler (c : Cst) : m Node := do
  let (type, name) ← caught source descend (c.parts.filter (·.kind != .block))
  return .handler c.span type name (← block descend (c.part? .block))

def withBlock (c : Cst) : m Node := do
  let items := ((c.part? .withClause).map Cst.parts).getD []
  return .withBlock c.span c.isAsync
    (← all descend (items.map fun item => (item.child? .value).getD item))
    (← block descend (c.child? .body))

/-- What a comprehension collects: the key and the value of a pair, or one value. -/
def collected (c : Cst) : m (List Node) :=
  match c.child? .body with
  | none => return []
  | some d =>
    if d.kind = .pair then do return (← child descend d .key) ++ (← child descend d .value)
    else all descend [d]

/-- One more clause of a comprehension; filters belong to the source before them. The
clauses so far are given last one first. -/
def addClause (gs : List (Generator Node)) (c : Cst) : m (List (Generator Node)) :=
  match c.kind, gs with
  | .forInClause, gs => do
    let header := (← child descend c .left) ++ (← all descend (c.childrenAs .right))
    return ⟨header, []⟩ :: gs
  | .ifClause, g :: gs => do
    return { g with filters := g.filters ++ (← all descend c.parts.head?.toList) } :: gs
  | _, gs => return gs

def comprehension (c : Cst) : m Node := do
  let element ← collected descend c
  let clauses ← c.parts.foldlM (addClause descend) []
  return .comprehension c.span element clauses.reverse

def argument (c : Cst) : m Node :=
  if c.kind = .keywordArgument then childOr descend c c .value else descend (.whole c)

/-- The arguments of a call: a list of them, or one generator. -/
def arguments (c : Option Cst) : m (List Node) :=
  match c with
  | none => return []
  | some d => if d.kind = .argumentList then d.parts.mapM (argument descend) else all descend [d]

def call (c : Cst) : m Node := do
  let callee := ((c.child? .function).map (Cst.callee source)).getD ""
  let arguments ← arguments descend (c.child? .arguments)
  return .call c.span callee (← childOr descend c c .function) arguments

def raise (c : Cst) : m Node := do
  let raised ← all descend (c.parts.find? (·.field? != some .cause)).toList
  let cause ← child descend c .cause
  return .raise c.span raised.head? cause.head?

/-- What a string stands for: its content, or the values of its fields. -/
def string (c : Cst) : m Node := do
  let pieces := c.stringPieces source
  let fields := pieces.filterMap Sum.getRight?
  let content := String.join (pieces.filterMap Sum.getLeft?)
  if !fields.isEmpty then return .other c.span (← all descend fields)
  else if c.isBytes source then return .literal c.span (.bytes content)
  else return .literal c.span (.str content)

/-- A node of which only its parts matter. -/
def other (c : Cst) : m Node := return .other c.span (← all descend c.parts)

/-- A node by its kind. -/
def whole (c : Cst) : m Node :=
  match c.kind with
  | .functionDefinition => do
    return .functionDef c.span (c.functionHead source) (← block descend (c.child? .body))
  | .classDefinition => do
    return .classDef c.span (c.classHead source) (← block descend (c.child? .body))
  | .decoratedDefinition =>
    match c.child? .definition with
    | some d => descend (.whole d)
    | none => other descend c
  | .ifStatement => branch descend c.span false c (c.childrenAs .alternative)
  | .forStatement =>
    loop descend c (if c.isAsync then .asyncForEach else .forEach) [.left, .right]
  | .whileStatement => loop descend c .whileTrue [.condition]
  | .tryStatement => tryExcept descend c
  | .exceptClause | .exceptGroupClause => handler source descend c
  | .withStatement => withBlock descend c
  | .booleanOperator => do
    return .boolOp c.span c.boolOperator (← all descend (c.operands c.boolOperator))
  | .listComprehension | .setComprehension | .dictionaryComprehension
  | .generatorExpression => comprehension descend c
  | .call => call source descend c
  | .attribute =>
    match c.dotted? source with
    | some name => return .name c.span name
    | none => do return .other c.span (← child descend c .object)
  | .identifier => return .name c.span (c.text source)
  | .raiseStatement => raise descend c
  | .globalStatement => return .globalNames c.span (c.names source)
  | .nonlocalStatement => return .nonlocalNames c.span (c.names source)
  | .await =>
    match c.parts with
    | value :: _ => do return .await c.span (← descend (.whole value))
    | [] => return placeholder c
  | .importStatement | .importFromStatement => return .imports c.span (c.modules source)
  | .passStatement => return .pass c.span
  | .expressionStatement | .parenthesizedExpression =>
    match c.parts with
    | [only] => descend (.whole only)
    | _ => other descend c
  | .string | .concatenatedString => string source descend c
  | .integer | .float => return .literal c.span (.number (c.text source))
  | .trueLiteral => return .literal c.span (.bool true)
  | .falseLiteral => return .literal c.span (.bool false)
  | .noneLiteral => return .literal c.span .none
  | .ellipsis => return .literal c.span .ellipsis
  | .tuple | .expressionList => do return .tuple c.span (← all descend c.parts)
  | _ => other descend c

/-- One level of lowering; what lies deeper is left to `descend`. -/
def level : Subtree → m Node
  | .whole c => whole source descend c
  | .elifChain c rest =>
    branch descend ⟨c.span.first, ((rest.getLast?).getD c).span.last⟩ true c rest

/-- The node of a subtree, if some number of levels is enough. -/
def lower (source : Array Char) : Nat → Subtree → Option Node
  | 0, _ => none
  | n + 1, t => level source (lower source n) t

/-- The most levels that a tree may have. -/
def maxLevels : Nat := 200

/-- The statements of a whole tree, if no part of it needs too many levels. -/
def statements (source : Array Char) (c : Cst) : Option (List Node) :=
  all (lower source maxLevels) c.parts

end Lowering

end QualityGate.Python
