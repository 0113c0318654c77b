import QualityGate.Python.Grammar.CasePattern

/-! Statements of one line. Some words start a statement only where nothing else fits:
`type` starts an alias if it can, `print` and `exec` a statement only if they cannot be
names. -/
namespace QualityGate.Python.Grammar

/-! ### Expressions and assignments -/

def augmentedOperators : List String :=
  ["+=", "-=", "*=", "/=", "@=", "//=", "%=", "**=", ">>=", "<<=", "&=", "^=", "|="]

/-- Expressions as what is assigned to. -/
def assigned (ps : List Piece) : Grammar Piece := do
  let p ← listOf .construct (← ps.mapM fun p =>
    match p.node.asTarget? with
    | some c => return { p with node := c }
    | none => reject)
  return p.as .left

/-- The assignment that the next operator announces, behind what is assigned to. -/
def assignment? (r : Rules) (ps : List Piece) : Grammar (Option Piece) := do
  if ← sees "=" then
    let left ← assigned ps
    let equals ← take
    return some (left.build .construct [equals, ← r .rightSide])
  if ← sees ":" then
    let left ← assigned ps
    let colon ← take
    let type ← r .typeHint
    match ← accept? "=" with
    | some equals => return some (left.build .construct [colon, type, equals, ← r .rightSide])
    | none => return some (left.build .construct [colon, type])
  if ← aheadIs fun t => augmentedOperators.any t.isSymbol then
    let left ← assigned ps
    let sign ← take
    return some (left.build .construct [sign, ← r .rightSide])
  return none

/-- What an assignment assigns; it may be another assignment. -/
def rightSide (r : Rules) : Grammar Piece := do
  if ← sees "yield" then yielded r
  else
    let ps ← expressionItems r
    match ← assignment? r ps with
    | some p => return p
    | none => listOf .expressionList ps

/-- A statement that starts like an expression. -/
def expressionStatement (r : Rules) : Grammar Piece := do
  if (← next).isWord "yield" then return (← yielded r).build .expressionStatement []
  let ps ← expressionItems r
  match ← assignment? r ps with
  | some p => return p.build .expressionStatement []
  | none => build .expressionStatement ps

/-! ### Imports -/

/-- A module or a member to import, perhaps under another name. -/
def importItem : Grammar Piece := do
  let d ← dotted
  match ← accept? "as" with
  | some word => return (d.as .name).build .aliasedImport [word, ← name]
  | none => return d

def importItems (more : Grammar Bool) : Grammar (List Piece) :=
  separated "," more do return [← importItem]

/-- Takes the members to import from a module: all, a list, or a list in parentheses. -/
def importedMembers : Grammar (List Piece) := do
  if ← sees "*" then return [← takeAs .construct]
  if ← sees "(" then bracketed "(" ")" (importItems (return !(← sees ")")))
  else importItems (aheadIs Token.isName)

/-- The module that something is imported from, perhaps relative to the importing one. -/
def importSource : Grammar Piece := do
  let dots ← loop (fun (read : List Piece) => do
    let t ← next
    if t.isSymbol "." || t.isSymbol "..." then return .inl (read ++ [← take])
    else return .inr read) []
  if dots.isEmpty then dotted
  else
    let rest ← if (← next).isName then pure [← dotted] else pure []
    build .construct (dots ++ rest)

def importFrom : Grammar Piece := do
  let word ← expect "from"
  if (← next).isWord "__future__" then
    let ps := [← take, ← expect "import"]
    let members ← if ← sees "*" then reject else importedMembers
    return word.build .construct (ps ++ members)
  let source ← importSource
  let ps := [source.as .moduleName, ← expect "import"]
  return word.build .importFromStatement (ps ++ (← importedMembers))

def importModules : Grammar Piece := do
  let word ← expect "import"
  return word.build .importStatement (← importItems (aheadIs Token.isName))

/-! ### Other statements -/

def nameStatement (kind : Kind) : Grammar Piece := do
  let word ← take
  return word.build kind (← commaSeparated do return [← name])

/-- A word with values behind it, if there are any. -/
def returnStatement (r : Rules) : Grammar Piece := do
  let word ← take
  if ← aheadIs startsExpression then return word.build .construct [← expressions r]
  return wrapped word

def raiseStatement (r : Rules) : Grammar Piece := do
  let word ← take
  let raised ← if ← aheadIs startsExpression then pure [← expressions r] else pure []
  let cause ← match ← accept? "from" with
    | some origin => pure [origin, (← r (.expression 0)).as .cause]
    | none => pure []
  return word.build .raiseStatement (raised ++ cause)

def valueStatement (values : Grammar (List Piece)) : Grammar Piece := do
  let word ← take
  return word.build .construct (← values)

def printStatement (r : Rules) : Grammar Piece := do
  let word ← expect "print"
  match ← accept? ">>" with
  | some arrows =>
    let file := arrows.build .construct [← r (.expression 0)]
    match ← accept? "," with
    | none => return word.build .construct [file]
    | some comma =>
      let rest ← if ← aheadIs startsExpression then expressionItems r else pure []
      return word.build .construct (file :: comma :: rest)
  | none => return word.build .construct (← expressionItems r)

def execStatement (r : Rules) : Grammar Piece := do
  let word ← expect "exec"
  let code ← if (← next).kind = .stringStart then oneString r else name
  match ← accept? "in" with
  | some within =>
    return word.build .construct
      (code :: within :: (← commaSeparated do return [← r (.expression 0)]))
  | none => return word.build .construct [code]

def typeAlias (r : Rules) : Grammar Piece := do
  let word ← expect "type"
  let left ← typeArgument r
  let equals ← expect "="
  return word.build .construct [left, equals, ← r .typeHint]

/-- Goes on only where a statement of one line may end. -/
def statementEnds : Grammar Unit := do
  require ((← ahead?).isNone || (← sees ";"))

/-- A statement that ends where a statement may end. -/
def complete (statement : Grammar Piece) : Grammar Piece := do
  let p ← statement
  statementEnds
  return p

def simpleStatement (r : Rules) : Grammar Piece := do
  let t ← next
  let one (s : String) : Bool := t.isWord s
  if one "import" then importModules
  else if one "from" then importFrom
  else if one "global" then nameStatement .globalStatement
  else if one "nonlocal" then nameStatement .nonlocalStatement
  else if one "pass" then return (← take).build .passStatement []
  else if one "break" || one "continue" then return wrapped (← take)
  else if one "return" then returnStatement r
  else if one "raise" then raiseStatement r
  else if one "del" then valueStatement do return [← expressions r]
  else if one "assert" then
    valueStatement (commaSeparated do return [← r (.expression 0)])
  else if one "print" && (← seesSecond ">>") then printStatement r
  else if one "print" then complete (expressionStatement r) <|> printStatement r
  else if one "exec" then complete (expressionStatement r) <|> execStatement r
  else if one "type" then complete (typeAlias r) <|> expressionStatement r
  else expressionStatement r

/-- Takes the statements of one line, up to its end. -/
def simpleStatements (r : Rules) : Grammar (List Piece) :=
  withLineEnds true do
    let ps ← separated ";" (return (← ahead?).isSome) do return [← simpleStatement r]
    require (← ahead?).isNone
    return ps

end QualityGate.Python.Grammar
