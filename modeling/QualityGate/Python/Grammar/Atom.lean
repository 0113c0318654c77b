import QualityGate.Python.Grammar.Comprehension

/-! Expressions that no operator takes apart: names, literals, formatted strings with
their fields, and whatever stands in brackets. -/
namespace QualityGate.Python.Grammar

/-- Something in parentheses: a tuple, a generator, or one expression. -/
def parenthesized (r : Rules) : Grammar Piece :=
  bracketedAs "(" ")" do
    if ← sees ")" then return (.tuple, [])
    let first ← element r
    comprehensionOr r first
      (do
        let ps ← moreElements r ")" first
        return (if ps.length = 1 then .parenthesizedExpression else .tuple, ps))
      .generatorExpression

def listDisplay (r : Rules) : Grammar Piece :=
  bracketedAs "[" "]" do
    if ← sees "]" then return (.list, [])
    let first ← element r
    comprehensionOr r first (return (.list, ← moreElements r "]" first)) .listComprehension

/-- An entry of a dictionary: a key with its value, or another dictionary. -/
def entry (r : Rules) : Grammar Piece := do
  if ← sees "**" then
    let stars ← take
    return stars.build .construct [← r (.expression 0)]
  let key ← r (.expression 0)
  let colon ← expect ":"
  return (key.as .key).build .pair [colon, (← r (.expression 0)).as .value]

/-- Takes the entries of a dictionary behind the first one. -/
def moreEntries (r : Rules) (first : Piece) : Grammar (List Piece) := do
  match ← accept? "," with
  | none => return [first]
  | some comma =>
    allowClose
    if ← sees "\x7d" then return [first, comma]
    let rest ← separated "," (return !(← sees "\x7d")) do return [← entry r]
    return first :: comma :: rest

/-- A dictionary, a set, or a comprehension of one. -/
def braced (r : Rules) : Grammar Piece :=
  bracketedAs "\x7b" "\x7d" do
    if ← sees "\x7d" then return (.construct, [])
    if let some comma ← accept? "," then return (.construct, [comma])
    if ← sees "**" then return (.construct, ← moreEntries r (← entry r))
    let first ← element r
    match ← accept? ":" with
    | some colon =>
      let pair := (first.as .key).build .pair [colon, (← r (.expression 0)).as .value]
      comprehensionOr r pair (return (.construct, ← moreEntries r pair)) .dictionaryComprehension
    | none =>
      comprehensionOr r first (return (.construct, ← moreElements r "\x7d" first))
        .setComprehension

def oneString (r : Rules) : Grammar Piece := do
  let start ← takeAs .stringStart
  loop (fun (read : List Piece) => do
    match (← next).kind with
    | .stringContent => return .inl (read ++ [← takeAs .stringContent])
    | .stringEnd => return .inr (start.build .string (read ++ [← takeAs .stringEnd]))
    | _ => return .inl (read ++ [← r .field])) []

def strings (r : Rules) : Grammar Piece := do
  let first ← oneString r
  let rest ← loop (fun (read : List Piece) => do
    if ← aheadIs (·.kind = .stringStart) then return .inl (read ++ [← oneString r])
    else return .inr read) []
  if rest.isEmpty then return first else return first.build .concatenatedString rest

/-- The format behind a field's value. -/
def format (r : Rules) : Grammar Piece := do
  let colon ← expect ":"
  loop (fun (read : List Piece) => do
    let t ← next
    if t.kind = .formatText then
      return .inl (read ++ [← takeAs (.token (String.ofList t.text))])
    else if t.isSymbol "\x7b" then return .inl (read ++ [(← r .field)])
    else return .inr (colon.build .construct read)) []

def field (r : Rules) : Grammar Piece := do
  let o ← expect "\x7b"
  withLineEnds false do
    allowClose
    let value ← if ← sees "yield" then yielded r else expressions r
    let equals ← accept? "="
    let conversion ← if (← next).kind = .conversion then pure [← takeAs .construct] else pure []
    let format ← if ← sees ":" then pure [← format r] else pure []
    let c ← expect "\x7d"
    return o.build .interpolation
      (value.as .expression :: equals.toList ++ conversion ++ format ++ [c])

/-- The kind of a word that stands for a value. -/
def constant? (t : Token) : Option Kind :=
  if t.isWord "True" then some .trueLiteral
  else if t.isWord "False" then some .falseLiteral
  else if t.isWord "None" then some .noneLiteral
  else if t.isSymbol "..." then some .ellipsis
  else if t.kind = .integer then some .integer
  else if t.kind = .float then some .float
  else none

/-- An expression that no operator takes apart. -/
def atom (r : Rules) : Grammar Piece := do
  let t ← next
  match constant? t with
  | some kind => takeAs kind
  | none =>
    if t.kind = .stringStart then strings r
    else if t.isSymbol "(" then parenthesized r
    else if t.isSymbol "[" then listDisplay r
    else if t.isSymbol "\x7b" then braced r
    else name

end QualityGate.Python.Grammar
