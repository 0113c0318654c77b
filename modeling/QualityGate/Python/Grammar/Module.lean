import QualityGate.Python.Grammar.Block
import QualityGate.Python.Token.Sequence

/-! The grammar as a whole. Its rules call one another through a budget that every text
keeps within: no rule calls more than a few others before it takes a token. -/
namespace QualityGate.Python.Grammar

/-- A construct by the rule for it. -/
def apply (r : Rules) : Rule → Grammar Piece
  | .expression floor => expression r floor
  | .target => target r
  | .rightSide => rightSide r
  | .typeHint => typeHint r
  | .casePattern => casePattern r
  | .field => field r
  | .suite => suite r (statement r)

/-- The rules, nested so deep at most. -/
def within : Nat → Rules
  | 0 => fun _ => reject
  | n + 1 => apply (within n)

def statements (r : Rules) : Grammar (List Piece) :=
  loop (fun (read : List Piece) => do
    if (← next).kind = .endOfText then return .inr read
    return .inl (read ++ (← statement r))) []

/-- The nodes of a whole text: statements, comments and continuations. -/
def moduleNodes (r : Rules) : Grammar (List Cst) := do
  let ps ← statements r
  let last ← next
  return (ps.flatMap fun p => p.lead ++ [p.node]) ++ last.trivia.map ofTrivia

end Grammar

/-- The tree of a text, if the text is well formed. -/
def Cst.ofSource? (source : String) : Option Cst := do
  let cs := source.toList
  let tokens ← tokens? cs
  let (nodes, _) ← Grammar.moduleNodes (Grammar.within (4 * tokens.length + 16)) { tokens }
  return .node .construct none .start (Position.start.advance cs) nodes

end QualityGate.Python
