import QualityGate.Python.Grammar.Basic

/-! How strong operators bind, and what may start an expression. A conditional binds
least, then `as`, `or`, `and`, `not`, comparisons, the bit operators from `|` over `&` to
`^`, shifts, sums, products, signs and powers. -/
namespace QualityGate.Python.Grammar

/-- The strength of an operator between two operands that are no conditions. -/
def strength? (t : Token) : Option Nat :=
  let one (s : String) : Bool := t.isSymbol s
  if one "|" then some 14
  else if one "&" then some 15
  else if one "^" then some 16
  else if one "<<" || one ">>" then some 17
  else if one "+" || one "-" then some 18
  else if one "*" || one "/" || one "//" || one "%" || one "@" then some 19
  else if one "**" then some 21
  else none

/-- The least strength that an operator's right operand needs. -/
def rightFloor (t : Token) (strength : Nat) : Nat :=
  if t.isSymbol "**" then strength else strength + 1

def isComparison (t : Token) : Bool :=
  ["<", ">", "==", "!=", "<=", ">=", "<>", "in", "is"].any t.isText

def seesComparison : Grammar Bool := do
  if ← aheadIs isComparison then return true
  return (← sees "not") && (← secondIs (·.isWord "in"))

def startsExpression (t : Token) : Bool :=
  match t.kind with
  | .integer | .float | .stringStart => true
  | .word => t.isName || ["None", "True", "False", "not", "lambda"].any t.isWord
  | .symbol => ["(", "[", "\x7b", "-", "+", "~", "*", "..."].any t.isSymbol
  | _ => false

/-- Whether a token may start an operand of `await`. -/
def startsOperand (t : Token) : Bool :=
  startsExpression t && ["not", "lambda", "*"].all fun s => !t.isText s

end QualityGate.Python.Grammar
