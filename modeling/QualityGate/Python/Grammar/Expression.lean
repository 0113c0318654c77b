import QualityGate.Python.Grammar.Parameter
import QualityGate.Python.Grammar.Trailer

/-! Expressions as operands with operators between them. Comparisons make one flat chain;
powers and conditionals group to the right, all else to the left. -/
namespace QualityGate.Python.Grammar

/-- Whether the word ahead awaits an operand behind it. -/
def awaits : Grammar Bool := do
  let mayEnd := (← get).lineEnds
  secondIs fun t => startsOperand t && !(mayEnd && t.indent.isSome)

/-- An operand without operators between other operands. -/
def primary (r : Rules) : Grammar Piece := do
  let t ← next
  if ["-", "+", "~"].any t.isSymbol then
    let sign ← take
    return sign.build .construct [← r (.expression 21)]
  else if t.isSymbol "*" then starred r
  else if t.isWord "await" && (← awaits) then
    let word ← take
    return word.build .await [← r (.expression 21)]
  else suffixed r

def lambda (r : Rules) : Grammar Piece := do
  let word ← expect "lambda"
  let ps ← if ← sees ":" then pure []
    else pure [← build .construct (← parameterList r false ":")]
  let colon ← expect ":"
  return word.build .construct (ps ++ [colon, ← r (.expression 0)])

/-- The first operand of an expression of some strength. A `not`, a `lambda` and a value
that gets a name are operands of conditions only. -/
def operand (r : Rules) (floor : Nat) : Grammar Piece := do
  operandAllowed
  let t ← next
  if 12 < floor then primary r
  else if t.isWord "not" then
    let word ← take
    return word.build .construct [← r (.expression 12)]
  else if t.isWord "lambda" then lambda r
  else if t.isName && (← seesSecond ":=") then
    let key ← name
    let walrus ← take
    return key.build .construct [walrus, ← r (.expression 10)]
  else primary r

def comparisons (r : Rules) : Grammar (List Piece) :=
  loop (fun (read : List Piece) => do
    if !(← seesComparison) then return .inr read
    let first ← next
    let mut ps := [← take]
    if first.isWord "not" || (first.isWord "is" && (← sees "not")) then ps := ps ++ [← take]
    return .inl (read ++ ps ++ [← r (.expression 14)])) []

/-- Goes on behind an operand with the operators of some strength. -/
def climb (r : Rules) (floor : Nat) (first : Piece) : Grammar Piece :=
  loop (fun (left : Piece) => do
    match ← ahead? with
    | none => return .inr left
    | some t =>
      if t.isWord "if" && floor ≤ 1 then
        let word ← take
        let test ← r (.expression 0)
        let other ← expect "else"
        return .inl (left.build .construct [word, test, other, ← r (.expression 1)])
      else if t.isWord "as" && floor ≤ 2 then
        let word ← take
        let target := (wrapped (← r (.expression 3))).node.withKind .asPatternTarget
        return .inl (left.build .asPattern [word, Piece.as ⟨[], target⟩ .alias])
      else if (t.isWord "or" && floor ≤ 10) || (t.isWord "and" && floor ≤ 11) then
        let word ← take
        let right ← r (.expression (if t.isWord "or" then 11 else 12))
        return .inl ((left.as .left).build .booleanOperator
          [word.as .operator, right.as .right])
      else if floor ≤ 13 && (← seesComparison) then
        return .inl (left.build .construct (← comparisons r))
      else match strength? t with
        | some k =>
          if floor ≤ k then
            let sign ← take
            let right ← r (.expression (rightFloor t k))
            return .inl (left.build .construct [sign, right])
          else return .inr left
        | none => return .inr left) first

/-- An expression whose operators have some strength at least. -/
def expression (r : Rules) (floor : Nat) : Grammar Piece := do
  climb r floor (← operand r floor)

end QualityGate.Python.Grammar
