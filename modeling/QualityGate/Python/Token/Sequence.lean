import QualityGate.Python.Token.Basic
import QualityGate.Python.Token.Blank
import QualityGate.Python.Token.Identifier
import QualityGate.Python.Token.Number
import QualityGate.Python.Token.Quote

/-! The tokens of a whole text. Of operators and delimiters the longest one that fits is taken.
Strings and the fields of formatted strings nest, so the reader keeps what it is inside of: a
string, a field, or the format behind a field. A colon in a field starts the format unless a
bracket or a `lambda` claims it. -/
namespace QualityGate.Python

open Text (Reader)
open Text.Reader

/-! ### Operators and delimiters -/

namespace Symbol

/-- All operators and delimiters, longer ones first. -/
def all : List String :=
  ["**=", "//=", ">>=", "<<=", "...",
   "**", "//", ">>", "<<", "<=", ">=", "==", "!=", "<>", "->", ":=", "+=", "-=", "*=", "/=",
   "%=", "@=", "&=", "|=", "^=",
   "+", "-", "*", "/", "%", "@", "&", "|", "^", "~", "<", ">", "(", ")", "[", "]", "\x7b", "\x7d",
   ",", ":", ".", ";", "="]

/-- Takes the longest operator or delimiter that comes next. -/
def read : Reader (List Char) := fun cs =>
  match (all.map String.toList).find? (·.isPrefixOf cs) with
  | some s => some (s, cs.drop s.length)
  | none => none

end Symbol

/-! ### Surroundings -/

/-- What a field of a formatted string has shown so far. -/
inductive FieldStart where
  | nothing
  | oneWord
  | more
deriving DecidableEq, Repr

/-- What a token is inside of. A field counts its open brackets and the `lambda`s that
wait for their colons. -/
inductive Surrounding where
  | string (q : Quote)
  | field (depth lambdas : Nat) (seen : FieldStart)
  | format
deriving DecidableEq, Repr

/-- What a token is inside of, innermost first. -/
abbrev Surroundings := List Surrounding

namespace Surroundings

/-- The surroundings behind a token. -/
def after (kind : TokenKind) (text : List Char) : Surroundings → Surroundings
  | .field depth lambdas seen :: outer =>
    let one (s : String) : Bool := text = s.toList
    let seen := if seen = .nothing && kind = .word then .oneWord else .more
    let stay : Surroundings := .field depth lambdas seen :: outer
    match kind with
    | .symbol =>
      if one "(" || one "[" || one "\x7b" then .field (depth + 1) lambdas seen :: outer
      else if one "\x7d" && depth = 0 then outer
      else if one ")" || one "]" || one "\x7d" then .field (depth - 1) lambdas seen :: outer
      else if one ":" && depth = 0 then
        if lambdas = 0 then .format :: outer else .field depth (lambdas - 1) seen :: outer
      else stay
    | .word => if one "lambda" && depth = 0 then .field depth (lambdas + 1) seen :: outer else stay
    | _ => stay
  | outer => outer

/-- Whether a colon is read alone even before an equals sign. -/
def splitsColon : Surroundings → Bool
  | .field 0 _ seen :: _ => seen != .oneWord
  | _ => false

/-- Whether an exclamation mark announces a conversion. -/
def takesConversion : Surroundings → Bool
  | .field 0 _ _ :: _ => true
  | _ => false

end Surroundings

/-! ### Single tokens -/

def conversion : Reader (List Char) := do
  expect ['!']
  return ['!', ← satisfying fun c => 'a'.toNat ≤ c.toNat && c.toNat ≤ 'z'.toNat]

def word : Reader (List Char) := do
  return (← satisfying Identifier.isStart) :: (← takeWhile Identifier.isContinue)

def operator (inside : Surroundings) : Reader (List Char) := do
  if inside.splitsColon && (← looksAt [':', '=']) then
    expect [':']
    return [':']
  Symbol.read

/-- Takes a token outside of strings, with its class. -/
def plainToken (inside : Surroundings) : Reader (TokenKind × List Char) :=
  Number.read <|> ((.word, ·) <$> word)
    <|> (if inside.takesConversion then (.conversion, ·) <$> conversion else reject)
    <|> ((.symbol, ·) <$> operator inside)

/-! ### Sequences -/

/-- The tokens read so far, last one first, with the place reached and what it is inside
of. -/
structure Reading where
  position : Position := .start
  inside : Surroundings := []
  tokens : List Token := []

namespace Reading

/-- One more token at a place. -/
def push (r : Reading) (kind : TokenKind) (text : List Char) (position : Position)
    (indent : Option Nat) (trivia : List Trivia) : Reading :=
  let stop := position.advance text
  { position := stop
    inside := r.inside.after kind text
    tokens := ⟨kind, text, position, stop, indent, trivia⟩ :: r.tokens }

/-- One more token right behind the last one. -/
def pushNext (r : Reading) (kind : TokenKind) (text : List Char) : Reading :=
  r.push kind text r.position none []

/-- Reads on inside a string: its content, then a field's brace or the closing quotes. -/
def stringStep (r : Reading) (q : Quote) (outer : Surroundings) : Reader Reading := do
  let (text, passed, stop) ← content q
  let r := if text.isEmpty then r else r.pushNext .stringContent text
  match stop with
  | .field =>
    expect ['\x7b']
    return { r.pushNext .symbol ['\x7b'] with inside := .field 0 0 .nothing :: r.inside }
  | .close =>
    expect q.closing
    return { r.pushNext .stringEnd (passed ++ q.closing) with inside := outer }

/-- Reads on inside the format of a field. -/
def formatStep (r : Reading) (outer : Surroundings) : Reader Reading := do
  if ← accept ['\x7b'] then
    return { r.pushNext .symbol ['\x7b'] with inside := .field 0 0 .nothing :: r.inside }
  if ← accept ['\x7d'] then return { r.pushNext .symbol ['\x7d'] with inside := outer }
  if ← accept ['\n'] then return { r with position := r.position.step '\n' }
  return r.pushNext .formatText (← takeWhile1 fun c => c != '\x7b' && c != '\x7d' && c != '\n')

/-- Reads on outside of strings. A line continuation before a string leaves no trace. -/
def plainStep (r : Reading) : Reader (Reading ⊕ List Token) := do
  let gap ← Gap.read r.position
  let trivia := gap.trivia.reverse
  if ← atEnd then
    if !r.inside.isEmpty then reject
    return .inr (r.push .endOfText [] gap.position (some 0) trivia).tokens.reverse
  match ← optional Quote.opening with
  | some (q, text) =>
    let r := r.push .stringStart text gap.position gap.indent
      (trivia.filter (·.kind = .comment))
    return .inl { r with inside := .string q :: r.inside }
  | none =>
    let (kind, text) ← plainToken r.inside
    return .inl (r.push kind text gap.position gap.indent trivia)

def step (r : Reading) : Reader (Reading ⊕ List Token) :=
  match r.inside with
  | .string q :: outer => .inl <$> r.stringStep q outer
  | .format :: outer => .inl <$> r.formatStep outer
  | _ => r.plainStep

end Reading

/-- The tokens of a text, with the end of the text as the last one; nothing if the text
has other parts than tokens or ends inside a string. -/
def tokens? (source : List Char) : Option (List Token) := (loop Reading.step {}).readAll source

end QualityGate.Python
