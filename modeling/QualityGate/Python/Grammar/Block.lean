import QualityGate.Python.Grammar.SimpleStatement

/-! Statements with blocks. A block is a line of statements behind a colon, or the lines
that are indented more than those around; without any such line it is empty. A block
ends where a line starts to the left of it, and a clause goes on with a statement only
if it does not start to the left of the block that the statement is in. -/
namespace QualityGate.Python.Grammar

/-! ### Blocks -/

/-- Whether a token starts a line to the left of the innermost block, or ends the text. -/
def leavesBlock (t : Token) : Grammar Bool := do
  if t.kind = .endOfText then return true
  let m ← margin
  return t.indent.any (· < m)

/-- Whether a comment still belongs to a block with some indentation. -/
def belongs (margin : Nat) (t : Trivia) : Bool :=
  t.kind = .comment && (t.indent.isNone || t.indent.any (margin ≤ ·))

/-- Takes the comments before the next token that belong to the innermost block. -/
def lastComments : Grammar (List Cst) := do
  let m ← margin
  let s ← get
  match s.tokens with
  | [] => return []
  | t :: ts =>
    let (own, others) := t.trivia.span (belongs m)
    set { s with tokens := { t with trivia := others } :: ts }
    return own.map ofTrivia

def blockOf (ps : List Piece) (comments : List Cst) : Grammar Piece := do
  let block ← build .block ps
  match block.node with
  | .node kind field start stop children =>
    let stop := (comments.getLast?.map (·.stop)).getD stop
    return { block with node := .node kind field start stop (children ++ comments) }

/-- Takes lines that are indented to one column, up to one to the left of it. -/
def indented (column : Nat) (line : Grammar (List Piece)) : Grammar Piece := do
  let outer := (← get).indents
  modify ({ · with indents := column :: outer })
  let ps ← loop (fun (read : List Piece) => do
    if ← leavesBlock (← next) then return .inr read
    return .inl (read ++ (← line))) []
  let block ← blockOf ps (← lastComments)
  modify ({ · with indents := outer })
  return block

/-- A block that starts right behind the last token, with what comes before its lines. -/
def startingAt (place : Position) (block : Piece) : Piece :=
  match block.node with
  | .node kind field _ stop children => ⟨[], .node kind field place stop (block.lead ++ children)⟩

/-- Whether the next token starts a line that is indented more than the innermost block. -/
def seesIndent : Grammar (Option Nat) := do
  let m ← margin
  return (← next).indent.filter (m < ·)

/-- What a colon announces: a line of statements, or lines of them, or nothing. -/
def suite (r : Rules) (line : Grammar (List Piece)) : Grammar Piece := do
  if (← next).indent.isNone then build .block (← simpleStatements r)
  else match ← seesIndent with
    | some column => indented column line
    | none => emptyBlock

/-- Takes what stands before a colon, and the colon. -/
def header (ps : Grammar (List Piece)) : Grammar (List Piece) :=
  withLineEnds false do return (← ps) ++ [← expect ":"]

/-- Whether a word continues the statement before it. -/
def seesClause (word : String) : Grammar Bool := do
  let t ← next
  return t.isWord word && !(← leavesBlock t)

/-! ### Branches and loops -/

def plainClause (r : Rules) (kind : Kind) (word : String) : Grammar Piece := do
  let h ← header do return [← expect word]
  build kind (h ++ [(← r .suite).as .body])

def elseClause? (r : Rules) : Grammar (List Piece) := do
  if ← seesClause "else" then return [(← plainClause r .elseClause "else").as .alternative]
  return []

def conditional (r : Rules) (word : String) : Grammar (List Piece) := do
  let h ← header do return [← expect word, (← r (.expression 0)).as .condition]
  return h ++ [(← r .suite).as .consequence]

def ifStatement (r : Rules) : Grammar Piece := do
  let first ← conditional r "if"
  let all ← loop (fun (read : List Piece) => do
    if ← seesClause "elif" then
      let clause ← build .elifClause (← conditional r "elif")
      return .inl (read ++ [clause.as .alternative])
    return .inr read) first
  build .ifStatement (all ++ (← elseClause? r))

def whileStatement (r : Rules) : Grammar Piece := do
  let h ← header do return [← expect "while", (← r (.expression 0)).as .condition]
  let body ← r .suite
  build .whileStatement (h ++ [body.as .body] ++ (← elseClause? r))

def forStatement (r : Rules) (marks : List Piece) : Grammar Piece := do
  let h ← header do
    let word ← expect "for"
    let left ← targets r
    let within ← expect "in"
    return [word, left.as .left, within, (← expressions r).as .right]
  let body ← r .suite
  build .forStatement (marks ++ h ++ [body.as .body] ++ (← elseClause? r))

/-! ### Handlers and contexts -/

/-- Whether the next words handle groups of exceptions: nothing stands before the star. -/
def seesGroup : Grammar Bool := do
  match (← get).tokens with
  | t :: u :: _ => return t.isWord "except" && u.isSymbol "*" && t.stop = u.start
  | _ => return false

def exceptClause (r : Rules) : Grammar Piece := do
  let grouped ← seesGroup
  let h ← header do
    let word ← expect "except"
    let star ← if grouped then pure [← take] else pure []
    let caught ← if ← sees ":" then pure []
      else commaSeparated do return [← r (.expression 0)]
    return word :: star ++ caught
  let kind := if grouped then Kind.exceptGroupClause else .exceptClause
  build kind (h ++ [← r .suite])

/-- Takes the clauses that handle exceptions, all of one form. -/
def exceptClauses (r : Rules) : Grammar (List Piece) := do
  let grouped ← seesGroup
  loop (fun (read : List Piece) => do
    if (← seesClause "except") && (← seesGroup) = grouped then
      return .inl (read ++ [← exceptClause r])
    return .inr read) []

def tryStatement (r : Rules) : Grammar Piece := do
  let h ← header do return [← expect "try"]
  let body ← r .suite
  let handlers ← exceptClauses r
  let other ← if handlers.isEmpty then pure [] else elseClause? r
  let final ← if ← seesClause "finally" then pure [← plainClause r .finallyClause "finally"]
    else pure []
  require (!(handlers ++ final).isEmpty)
  build .tryStatement (h ++ [body.as .body] ++ handlers ++ other ++ final)

def withItem (r : Rules) : Grammar Piece := do
  return ((← r (.expression 0)).as .value).build .withItem []

/-- Several contexts in parentheses; the parentheses are the last thing before the colon. -/
def enclosedItems (r : Rules) : Grammar (List Piece) := do
  let ps ← bracketed "(" ")" (separated "," (return !(← sees ")")) do return [← withItem r])
  require (2 ≤ ps.countP (·.kind = .withItem))
  require (← sees ":")
  return ps

def withStatement (r : Rules) (marks : List Piece) : Grammar Piece := do
  let h ← header do
    let word ← expect "with"
    let items ← enclosedItems r
      <|> separated "," (return !(← sees ":")) do return [← withItem r]
    return [word, ← build .withClause items]
  build .withStatement (marks ++ h ++ [(← r .suite).as .body])

/-! ### Definitions -/

def typeParameters? (r : Rules) : Grammar (List Piece) := do
  if ← sees "[" then return [← typeArguments r] else return []

def resultType? (r : Rules) : Grammar (List Piece) := do
  match ← accept? "->" with
  | some arrow => return [arrow, ← r .typeHint]
  | none => return []

def functionDefinition (r : Rules) (marks : List Piece) : Grammar Piece := do
  let h ← header do
    let word ← expect "def"
    let key ← name
    let types ← typeParameters? r
    let ps ← parameters r
    return [word, key.as .name] ++ types ++ [ps.as .parameters] ++ (← resultType? r)
  build .functionDefinition (marks ++ h ++ [(← r .suite).as .body])

def classDefinition (r : Rules) : Grammar Piece := do
  let h ← header do
    let word ← expect "class"
    let key ← name
    let types ← typeParameters? r
    let bases ← if ← sees "(" then pure [← callArguments r] else pure []
    require (bases.all (·.kind = .argumentList))
    return [word, key.as .name] ++ types ++ bases.map (·.as .superclasses)
  build .classDefinition (h ++ [(← r .suite).as .body])

def definition (r : Rules) : Grammar Piece := do
  let t ← next
  if t.isWord "class" then classDefinition r
  else
    let marks ← if t.isWord "async" then pure [← take] else pure []
    functionDefinition r marks

def decoratedDefinition (r : Rules) : Grammar Piece := do
  let decorators ← loop (fun (read : List Piece) => do
    if !(← next).isSymbol "@" then return .inr read
    let sign ← take
    let value ← withLineEnds true do
      let value ← r (.expression 0)
      require (← ahead?).isNone
      return value
    return .inl (read ++ [sign.build .construct [value]])) []
  build .decoratedDefinition (decorators ++ [(← definition r).as .definition])

/-! ### Matching -/

def caseClause (r : Rules) : Grammar (List Piece) := do
  let h ← header do
    let word ← expect "case"
    let patterns ← separated "," (return !((← sees ":") || (← sees "if"))) do
      return [← r .casePattern]
    let guard ← if ← sees "if" then pure [← ifClause r 0] else pure []
    return word :: patterns ++ guard
  return [← build .construct (h ++ [← r .suite])]

def matchStatement (r : Rules) : Grammar Piece := do
  let h ← header do
    let word ← expect "match"
    return word :: (← separated "," (return !(← sees ":")) do return [← r (.expression 0)])
  require (← next).indent.isSome
  let block ← match ← seesIndent with
    | some column => do
      let place := (← get).last
      pure (startingAt place (← indented column (caseClause r)))
    | none => emptyBlock
  build .construct (h ++ [block])

/-! ### Statements -/

/-- A statement, or the statements of one line. -/
def statement (r : Rules) : Grammar (List Piece) := do
  let t ← next
  let one (s : String) : Bool := t.isWord s
  if one "if" then return [← ifStatement r]
  else if one "for" then return [← forStatement r []]
  else if one "while" then return [← whileStatement r]
  else if one "try" then return [← tryStatement r]
  else if one "with" then return [← withStatement r []]
  else if one "class" || one "def" || (one "async" && (← seesSecond "def")) then
    return [← definition r]
  else if one "async" && (← seesSecond "for") then return [← forStatement r [← take]]
  else if one "async" && (← seesSecond "with") then return [← withStatement r [← take]]
  else if t.isSymbol "@" then return [← decoratedDefinition r]
  else if one "match" then
    simpleStatements r <|> (return [← matchStatement r])
  else simpleStatements r

end QualityGate.Python.Grammar
