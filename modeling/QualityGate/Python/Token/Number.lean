import QualityGate.Python.Token.Basic
import QualityGate.Text.Basic
import QualityGate.Text.Reader

/-! Numbers of Python text. Digits may be grouped by single underscores; a number is the
longest text that has one of the forms. -/
namespace QualityGate.Python.Number

open Text (Reader)
open Text.Reader

/-- Takes digits, each run of them with at most one underscore behind it. -/
def decimalDigits : Reader (List Char) :=
  loop (fun (read : List Char) => do
    let run ← takeWhile Text.isDigit
    let read := read ++ run
    if run.isEmpty then return .inr read
    if ← accept ['_'] then return .inl (read ++ ['_']) else return .inr read) []

/-- Takes digits of a base, each run of them with at most one underscore before it. -/
def basedDigits (base : Nat) : Reader (List Char) :=
  loop (fun (read : List Char) => do
    let bar ← accept ['_']
    let run ← takeWhile (Text.isDigitBelow base)
    if run.isEmpty then
      if bar then modify ('_' :: ·)
      return .inr read
    return .inl (read ++ (if bar then ['_'] else []) ++ run)) []

/-- Takes one of several letters if it comes next. -/
def letter (cs : List Char) : Reader (List Char) := do
  match ← peek? with
  | some c => if cs.contains c then return [← any] else return []
  | none => return []

/-- Takes an integer in another base than ten. -/
def based (mark : List Char) (base : Nat) : Reader (List Char) := do
  expect ['0']
  let m ← letter mark
  if m.isEmpty then reject
  let digits ← basedDigits base
  if digits.isEmpty then reject
  return '0' :: m ++ digits ++ (← letter ['L', 'l'])

def exponent : Reader (List Char) := do
  let e ← letter ['e', 'E']
  if e.isEmpty then reject
  let sign ← letter ['+', '-']
  let digits ← decimalDigits
  if digits.isEmpty then reject
  return e ++ sign ++ digits

def exponent? : Reader (List Char) := do
  return (← optional exponent).getD []

/-- Takes a point with the fraction behind it; without digits before the point there must
be some behind it. -/
def fraction (whole : List Char) : Reader (List Char) := do
  expect ['.']
  let digits ← decimalDigits
  if whole.isEmpty && digits.isEmpty then reject
  return '.' :: digits ++ (← exponent?)

/-- Takes a number in base ten, with its class. -/
def decimal : Reader (TokenKind × List Char) := do
  let whole ← decimalDigits
  match ← optional (fraction whole) with
  | some rest => return (.float, whole ++ rest ++ (← letter ['j', 'J']))
  | none =>
    if whole.isEmpty then reject
    match ← optional exponent with
    | some rest => return (.float, whole ++ rest ++ (← letter ['j', 'J']))
    | none => return (.integer, whole ++ (← letter ['L', 'l', 'j', 'J']))

/-- Takes a number, with its class. -/
def read : Reader (TokenKind × List Char) :=
  ((.integer, ·) <$> based ['x', 'X'] 16) <|> ((.integer, ·) <$> based ['o', 'O'] 8)
    <|> ((.integer, ·) <$> based ['b', 'B'] 2) <|> decimal

end QualityGate.Python.Number
