import QualityGate.Python.Grammar.Basic

/-! Types behind a colon or an arrow. A name with brackets is a generic type whose
arguments are types again; it may be continued by a bar or a point. Anything else is an
expression. -/
namespace QualityGate.Python.Grammar

/-- Whether an operator or a word comes right behind the next token, before the statement
may end. -/
def seesSecond (s : String) : Grammar Bool := do
  let mayEnd := (← get).lineEnds
  secondIs fun t => t.isText s && !(mayEnd && t.indent.isSome)

def wrapped (p : Piece) : Piece := p.build .construct []

/-- An argument of a generic type; it may be bounded by another type. -/
def typeArgument (r : Rules) : Grammar Piece := do
  let t ← r .typeHint
  match ← accept? ":" with
  | none => return t
  | some colon => return wrapped (t.build .construct [colon, ← r .typeHint])

/-- Arguments or parameters of a type in brackets. -/
def typeArguments (r : Rules) : Grammar Piece := do
  let ps ← bracketed "[" "]" do
    separated "," (return !(← sees "]")) do return [← typeArgument r]
  build .construct ps

/-- A type that no bar and no point continues, and whether one still may. -/
def simpleType (r : Rules) : Grammar (Piece × Bool) := do
  let t ← next
  if t.isSymbol "*" || t.isSymbol "**" then
    let star ← take
    return (wrapped (star.build .construct [← name]), true)
  else if t.isName && (← seesSecond "[") then
    let base ← name
    return (wrapped (base.build .construct [← typeArguments r]), true)
  else return (wrapped (← r (.expression 0)), false)

def typeHint (r : Rules) : Grammar Piece := do
  loop (fun ((t, unfinished) : Piece × Bool) => do
    if !unfinished then return .inr t
    if let some bar ← accept? "|" then
      let (u, more) ← simpleType r
      return .inl (wrapped (t.build .construct [bar, u]), more)
    if let some point ← accept? "." then
      return .inl (wrapped (t.build .construct [point, ← name]), true)
    return .inr t) (← simpleType r)

end QualityGate.Python.Grammar
