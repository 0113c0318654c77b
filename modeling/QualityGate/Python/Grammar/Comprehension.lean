import QualityGate.Python.Grammar.Strength
import QualityGate.Python.Grammar.TypeHint

/-! Values in a row: lists of expressions and of targets, the values of collections, and
the clauses that make a comprehension of a value. -/
namespace QualityGate.Python.Grammar

/-! ### Lists -/

/-- Takes expressions with commas between them, and perhaps one behind the last. -/
def expressionItems (r : Rules) : Grammar (List Piece) :=
  separated "," (aheadIs startsExpression) do return [← r (.expression 0)]

/-- One piece as it is, or several as a construct. -/
def listOf (kind : Kind) (ps : List Piece) : Grammar Piece :=
  match ps with
  | [p] => return p
  | ps => build kind ps

def expressions (r : Rules) : Grammar Piece := do listOf .expressionList (← expressionItems r)

def targets (r : Rules) : Grammar Piece := do
  let ps ← separated "," (return !(← sees "in")) do return [← r .target]
  listOf .construct ps

/-- What `yield` hands over. -/
def yielded (r : Rules) : Grammar Piece := do
  let word ← expect "yield"
  if let some source ← accept? "from" then
    return word.build .construct [source, ← r (.expression 0)]
  if ← aheadIs startsExpression then return word.build .construct [← expressions r]
  return wrapped word

/-- A value in a collection: an expression, a starred one, or what is yielded. -/
def element (r : Rules) : Grammar Piece := do
  let t ← next
  if t.isSymbol "*" then
    let star ← take
    return star.build .listSplat [← r (.expression 0)]
  else if t.isWord "yield" then yielded r
  else r (.expression 0)

/-- Takes the values of a collection behind the first one. -/
def moreElements (r : Rules) (closing : String) (first : Piece) : Grammar (List Piece) := do
  match ← accept? "," with
  | none => return [first]
  | some comma =>
    allowClose
    if ← sees closing then return [first, comma]
    let rest ← separated "," (return !(← sees closing)) do return [← element r]
    return first :: comma :: rest

/-! ### Comprehensions -/

def seesForClause : Grammar Bool := do
  if ← sees "for" then return true
  return (← sees "async") && (← seesSecond "for")

def sources (r : Rules) : Grammar (List Piece) := do
  let first ← r (.expression 2)
  loop (fun (read : List Piece) => do
    match ← accept? "," with
    | none => return .inr read
    | some comma =>
      if ← aheadIs startsExpression then
        let source ← r (.expression 2)
        return .inl (read ++ [comma.as .right, source.as .right])
      else return .inr (read ++ [comma])) [first.as .right]

def forClause (r : Rules) : Grammar Piece := do
  let marks ← if ← sees "async" then pure [← take] else pure []
  let word ← expect "for"
  let left ← targets r
  let within ← expect "in"
  build .forInClause (marks ++ [word, left.as .left, within] ++ (← sources r))

def ifClause (r : Rules) (floor : Nat) : Grammar Piece := do
  let word ← expect "if"
  return word.build .ifClause [← r (.expression floor)]

/-- The clauses of a comprehension; the first one is over a source. -/
def clauses (r : Rules) : Grammar (List Piece) := do
  let first ← forClause r
  loop (fun (read : List Piece) => do
    if ← seesForClause then return .inl (read ++ [← forClause r])
    if ← sees "if" then return .inl (read ++ [← ifClause r 2])
    return .inr read) [first]

/-- Takes what is in brackets behind its first value: clauses, or more values. -/
def comprehensionOr (r : Rules) (first : Piece) (others : Grammar (Kind × List Piece))
    (kind : Kind) : Grammar (Kind × List Piece) := do
  if ← seesForClause then return (kind, first.as .body :: (← clauses r)) else others

/-- Takes a construct in brackets whose kind its inside decides. -/
def bracketedAs (opening closing : String) (inside : Grammar (Kind × List Piece)) :
    Grammar Piece := do
  let o ← expect opening
  withLineEnds false do
    allowClose
    let (kind, ps) ← inside
    build kind (o :: ps ++ [← expect closing])

end QualityGate.Python.Grammar
