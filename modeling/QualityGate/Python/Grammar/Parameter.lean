import QualityGate.Python.Grammar.TypeHint

/-! Parameters of functions and of `lambda`s; only the former may have types. -/
namespace QualityGate.Python.Grammar

/-- The type behind a parameter, if there may be one and there is one. -/
def annotation? (r : Rules) (typed : Bool) : Grammar (Option (Piece × Piece)) := do
  if typed then
    match ← accept? ":" with
    | some colon => return some (colon, ← r .typeHint)
    | none => return none
  else return none

def restParameter (r : Rules) (typed : Bool) (kind : Kind) : Grammar Piece := do
  let star ← take
  let rest := star.build kind [← name]
  match ← annotation? r typed with
  | some (colon, type) => return rest.build .typedParameter [colon, type]
  | none => return rest

def default? (r : Rules) : Grammar (Option (Piece × Piece)) := do
  match ← accept? "=" with
  | some equals => return some (equals, ← r (.expression 0))
  | none => return none

/-- A parameter with a name, or with a pattern in parentheses. -/
def plainParameter (r : Rules) (typed : Bool) : Grammar Piece := do
  let pattern := (← next).isSymbol "("
  let p ← if pattern then r .target else name
  match ← annotation? r (typed && !pattern), ← default? r with
  | none, none => return p
  | none, some (equals, value) => return (p.as .name).build .defaultParameter [equals, value]
  | some (colon, type), none => return p.build .typedParameter [colon, type]
  | some (colon, type), some (equals, value) =>
    return (p.as .name).build .typedDefaultParameter [colon, type, equals, value]

/-- A parameter, or one of the marks between parameters. -/
def parameter (r : Rules) (typed : Bool) : Grammar Piece := do
  let t ← next
  if t.isSymbol "*" then
    if ← secondIs Token.isName then restParameter r typed .listSplatPattern else takeAs .construct
  else if t.isSymbol "**" then restParameter r typed .dictionarySplatPattern
  else if t.isSymbol "/" then takeAs .construct
  else plainParameter r typed

/-- Parameters up to a closing mark. -/
def parameterList (r : Rules) (typed : Bool) (closing : String) : Grammar (List Piece) :=
  separated "," (return !(← sees closing)) do return [← parameter r typed]

def parameters (r : Rules) : Grammar Piece := do
  let ps ← bracketed "(" ")" do
    if ← sees ")" then return [] else parameterList r true ")"
  build .construct ps

end QualityGate.Python.Grammar
