import QualityGate.Python.Token.Basic
import QualityGate.Text.Reader

/-! What stands before a token: blanks, comments and line continuations. The indentation
is measured from the last line break on; a tab counts for eight blanks, and a carriage
return or a form feed starts the measure anew. A line continuation is no line break. -/
namespace QualityGate.Python

open Text (Reader)
open Text.Reader

/-- Whether a character only separates tokens. -/
def isBlank (c : Char) : Bool :=
  ('\t'.toNat ≤ c.toNat && c.toNat ≤ '\r'.toNat) || c = ' '
    || c.toNat = 0xfeff || c.toNat = 0x200b || c.toNat = 0x2060

/-- What was read before a token: the place reached, the indentation if a line break was
passed, and the comments and continuations, last one first. -/
structure Gap where
  position : Position
  indent : Option Nat := none
  trivia : List Trivia := []

namespace Gap

/-- The indentation behind one more blank. -/
def widen (c : Char) (indent : Option Nat) : Option Nat :=
  if c = '\n' then some 0
  else if c = '\r' || c = '\x0c' then indent.map fun _ => 0
  else if c = ' ' then indent.map (· + 1)
  else if c = '\t' then indent.map (· + 8)
  else indent

/-- The gap behind a blank. -/
def blank (g : Gap) (c : Char) : Gap :=
  { g with position := g.position.step c, indent := widen c g.indent }

/-- The gap behind a comment or a continuation. -/
def mark (g : Gap) (kind : TriviaKind) (text : List Char) : Gap :=
  let stop := g.position.advance text
  { g with position := stop, trivia := ⟨kind, g.position, stop, g.indent⟩ :: g.trivia }

/-- The rest of a line continuation behind its backslash. -/
def continuation? : List Char → Option (List Char)
  | '\r' :: '\n' :: _ => some ['\r', '\n']
  | '\n' :: _ => some ['\n']
  | [] => some []
  | _ => none

/-- Reads up to the next token. -/
def read (position : Position) : Reader Gap :=
  loop (fun (g : Gap) => do
    match ← peek? with
    | some '#' =>
      let text ← takeWhile (· != '\n')
      return .inl (g.mark .comment text)
    | some '\\' =>
      match continuation? ((← get).drop 1) with
      | some rest =>
        expect ('\\' :: rest)
        return .inl (g.mark .continuation ('\\' :: rest))
      | none => return .inr g
    | some c =>
      if isBlank c then
        let _ ← any
        return .inl (g.blank c)
      else return .inr g
    | none => return .inr g) { position }

end Gap

end QualityGate.Python
