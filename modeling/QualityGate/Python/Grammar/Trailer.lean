import QualityGate.Python.Grammar.Atom

/-! What follows an atom: attributes, calls with their arguments, and subscripts with their indices
and slices. A starred operand and a target are atoms with trailers. A target is read as an
expression first; names, attributes and subscripts are targets as they are, and brackets around
targets are patterns. -/
namespace QualityGate.Python

namespace Cst

/-- Whether a node may stand behind the star of a pattern. -/
def isPlainTarget (c : Cst) : Bool :=
  c.kind = .identifier || c.kind = .attribute || c.kind = .subscript

/-- The pattern that brackets of a kind make around targets. -/
def bracketPattern? : Kind → Option Kind
  | .tuple | .parenthesizedExpression => some .tuplePattern
  | .list => some .listPattern
  | _ => none

def asTarget? (c : Cst) : Option Cst :=
  if c.isPlainTarget || c.isComment || c.kind = .lineContinuation || !c.isNamed then some c
  else if c.kind = .listSplat then
    if c.parts.all fun d => d.isPlainTarget || d.kind = .lineContinuation then
      some (c.withKind .listSplatPattern)
    else none
  else do
    let kind ← bracketPattern? c.kind
    let inner ← c.children.attach.mapM fun ⟨d, _⟩ => asTarget? d
    return .node kind c.field? c.start c.stop inner
termination_by sizeOf c
decreasing_by exact sizeOf_lt_of_mem_children ‹_›

end Cst

namespace Grammar

def argument (r : Rules) : Grammar Piece := do
  let t ← next
  if t.isSymbol "*" then element r
  else if t.isSymbol "**" then
    let stars ← take
    return stars.build .construct [← r (.expression 0)]
  else if t.isName && (← seesSecond "=") then
    let key ← name
    let equals ← take
    return (key.as .name).build .keywordArgument [equals, (← r (.expression 0)).as .value]
  else r (.expression 0)

/-- The arguments of a call: a list of them, or one generator. -/
def callArguments (r : Rules) : Grammar Piece :=
  bracketedAs "(" ")" do
    if ← sees ")" then return (.argumentList, [])
    if let some comma ← accept? "," then return (.argumentList, [comma])
    let first ← argument r
    comprehensionOr r first
      (do
        match ← accept? "," with
        | none => return (.argumentList, [first])
        | some comma =>
          allowClose
          if ← sees ")" then return (.argumentList, [first, comma])
          let rest ← separated "," (return !(← sees ")")) do return [← argument r]
          return (.argumentList, first :: comma :: rest))
      .generatorExpression

/-- A bound of a slice, unless the next token ends it. -/
def bound? (r : Rules) : Grammar (List Piece) := do
  if (← sees ":") || (← sees ",") || (← sees "]") then return []
  return [← r (.expression 0)]

def index (r : Rules) : Grammar Piece := do
  let lower ← bound? r
  match lower, ← accept? ":" with
  | [i], none => return i
  | _, none => reject
  | _, some colon =>
    let upper ← bound? r
    let step ← match ← accept? ":" with
      | some colon => pure (colon :: (← bound? r))
      | none => pure []
    build .construct (lower ++ colon :: upper ++ step)

def called (function arguments : Piece) : Piece :=
  (function.as .function).build .call [arguments.as .arguments]

/-- Something with an attribute or a subscript behind it, if one comes next. -/
def selected? (r : Rules) (p : Piece) : Grammar (Option Piece) := do
  if ← sees "." then
    let ps := [← take, (← name).as .attribute]
    return some ((p.as .object).build .attribute ps)
  if ← sees "[" then
    let ps ← bracketed "[" "]" (separated "," (return !(← sees "]")) do return [← index r])
    return some (p.build .subscript ps)
  return none

/-- An atom with what follows it: attributes, calls and subscripts. -/
def suffixed (r : Rules) : Grammar Piece := do
  loop (fun (p : Piece) => do
    if let some q ← selected? r p then return .inl q
    if ← sees "(" then return .inl (called p (← callArguments r))
    return .inr p) (← atom r)

/-- A star before a name, an attribute or a subscript. Calls at the end apply to the whole,
with the star. -/
def starred (r : Rules) : Grammar Piece := do
  let star ← expect "*"
  loop (fun ((p, calls) : Piece × List Piece) => do
    if let some q ← selected? r (calls.foldl called p) then return .inl (q, [])
    if ← sees "(" then return .inl (p, calls ++ [← callArguments r])
    require p.node.isPlainTarget
    return .inr (calls.foldl called (star.build .listSplat [p]))) (← atom r, [])

def target (r : Rules) : Grammar Piece := do
  let p ← if ← sees "*" then starred r else suffixed r
  match p.node.asTarget? with
  | some c => return { p with node := c }
  | none => reject

end Grammar

end QualityGate.Python
