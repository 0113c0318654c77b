import QualityGate.Python.Cst

/-! The ground of the grammar: recognisers that take tokens and build pieces of the tree.
A line break ends a statement only where the statement may end, so a recogniser that
could go on asks for the next token `ahead`, and one that needs a token just takes it.
Comments and continuations travel in front of a piece until it has a neighbour to its
left in the same construct. -/
namespace QualityGate.Python

/-- A node with what stands between it and the token before. -/
structure Piece where
  lead : List Cst
  node : Cst
deriving Inhabited

namespace Piece

def as (p : Piece) (f : Field) : Piece := { p with node := p.node.withField f }

def kind (p : Piece) : Kind := p.node.kind

def nodes : List Piece → List Cst
  | [] => []
  | p :: ps => p.node :: ps.flatMap fun q => q.lead ++ [q.node]

/-- The construct made of pieces, at least one; what leads the first one leads the whole. -/
def build (kind : Kind) (first : Piece) (rest : List Piece) : Piece where
  lead := first.lead
  node := .node kind none first.node.start (rest.getLast?.getD first).node.stop
    (nodes (first :: rest))

end Piece

/-- The tokens ahead and what is known about the place: the indentation of the enclosing
blocks, innermost first; whether a line break may end the statement here; whether a
bracket may close here; and where the last token stopped. -/
structure Outlook where
  tokens : List Token
  indents : List Nat := []
  lineEnds : Bool := true
  mayClose : Bool := false
  last : Position := .start

abbrev Grammar := StateT Outlook Option

namespace Grammar

variable {α σ : Type}

def reject : Grammar α := fun _ => none

/-- Goes on only under a condition. -/
def require (b : Bool) : Grammar Unit := if b then pure () else reject

/-- The next token, whatever line it is on. -/
def next : Grammar Token := fun s => s.tokens.head?.map fun t => (t, s)

/-- Whether the token behind the next one passes a test. -/
def secondIs (p : Token → Bool) : Grammar Bool := return ((← get).tokens.drop 1).head?.any p

/-- The indentation of the innermost block. -/
def margin : Grammar Nat := return ((← get).indents.head?).getD 0

/-- The next token, unless the statement may end before it. -/
def ahead? : Grammar (Option Token) := do
  let t ← next
  if t.kind = .endOfText then return none
  if (← get).lineEnds && t.indent.isSome then return none
  return some t

/-- Whether the next token passes a test, and the statement does not end before it. -/
def aheadIs (p : Token → Bool) : Grammar Bool := return (← ahead?).any p

/-- Whether a given operator or word is ahead. -/
def sees (s : String) : Grammar Bool := aheadIs (·.isText s)

def ofTrivia (t : Trivia) : Cst :=
  .node (match t.kind with | .comment => .comment | .continuation => .lineContinuation)
    none t.start t.stop []

/-- Takes the next token as a node of a kind. -/
def takeAs (kind : Kind) : Grammar Piece := fun s =>
  match s.tokens with
  | [] => none
  | t :: ts =>
    if t.kind = .endOfText then none
    else
      some (⟨t.trivia.map ofTrivia, .node kind none t.start t.stop []⟩,
        { s with tokens := ts, last := t.stop, mayClose := false })

def take : Grammar Piece := do
  let t ← next
  takeAs (.token (String.ofList t.text))

/-- Takes a given operator or word. -/
def expect (s : String) : Grammar Piece := do
  require ((← next).isText s)
  take

/-- Takes a given operator or word if it is ahead. -/
def accept? (s : String) : Grammar (Option Piece) := do
  if ← sees s then return some (← take) else return none

def name : Grammar Piece := do
  require (← next).isName
  takeAs .identifier

/-- Runs a recogniser where line breaks end statements or do not. -/
def withLineEnds (b : Bool) (r : Grammar α) : Grammar α := do
  let before := (← get).lineEnds
  modify ({ · with lineEnds := b })
  let a ← r
  modify ({ · with lineEnds := before })
  return a

/-- Notes that a bracket may close before the next token. -/
def allowClose : Grammar Unit := modify ({ · with mayClose := true })

/-- Repeats a step until it answers, at most once more than there are tokens in a list. -/
def iterate (step : σ → Grammar (σ ⊕ α)) : List Token → σ → Grammar α
  | [], s => do
    match ← step s with
    | .inl _ => reject
    | .inr a => return a
  | _ :: ts, s => do
    match ← step s with
    | .inl s => iterate step ts s
    | .inr a => return a

/-- Repeats a step until it answers; each step but the last takes a token. -/
def loop (step : σ → Grammar (σ ⊕ α)) (s : σ) : Grammar α := do
  iterate step (← get).tokens s

/-- Takes items with a separator between them, and behind the last one if it may stand
there. An item follows a separator wherever `more` says so. -/
def separated (separator : String) (more : Grammar Bool) (item : Grammar (List Piece)) :
    Grammar (List Piece) := do
  loop (fun (read : List Piece) => do
    let read := read ++ (← item)
    match ← accept? separator with
    | none => return .inr read
    | some s =>
      allowClose
      if ← more then return .inl (read ++ [s]) else return .inr (read ++ [s])) []

def commaSeparated (item : Grammar (List Piece)) : Grammar (List Piece) :=
  separated "," (pure true) item

/-- Builds a construct from pieces; there must be one. -/
def build (kind : Kind) (ps : List Piece) : Grammar Piece :=
  match ps with
  | [] => reject
  | p :: rest => return p.build kind rest

/-- A construct without any token, right behind the last one. -/
def emptyBlock : Grammar Piece := do
  let last := (← get).last
  return ⟨[], .node .block none last last []⟩

/-- Takes what stands in brackets, from the opening to the closing one. Line breaks are
blanks there. -/
def bracketed (opening closing : String) (inside : Grammar (List Piece)) :
    Grammar (List Piece) := do
  let o ← expect opening
  withLineEnds false do
    allowClose
    let ps ← inside
    let c ← expect closing
    return o :: ps ++ [c]

/-- Goes on only where an operand may start. Nothing closes the enclosing block in the
middle of an expression, so a line to its left may start with an operand only where a
bracket might close instead, or where the operand is a string. -/
def operandAllowed : Grammar Unit := do
  let t ← next
  match t.indent with
  | none => return ()
  | some k => require ((← get).mayClose || t.isBareQuote || (← margin) ≤ k)

end Grammar

/-! ### Rules -/

/-- The constructs that contain one another. An expression comes with the least binding
strength of its operators. -/
inductive Rule where
  | expression (floor : Nat)
  | target
  | rightSide
  | typeHint
  | casePattern
  | field
  | suite
deriving DecidableEq, Repr

/-- How constructs get at one another. -/
abbrev Rules := Rule → Grammar Piece

end QualityGate.Python
