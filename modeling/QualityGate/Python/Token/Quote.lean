import QualityGate.Python.Token.Basic
import QualityGate.Text.Basic
import QualityGate.Text.Reader

/-! Strings of Python text. Letters and quotes open a string and say how it ends and what
a backslash and a brace mean in it; between its quotes a string has runs of content and,
if it is formatted, fields in braces. -/
namespace QualityGate.Python

open Text (Reader)
open Text.Reader

/-- How a string is quoted. -/
structure Quote where
  mark : Char
  isTriple : Bool
  isRaw : Bool
  isFormat : Bool
  isBytes : Bool
deriving DecidableEq, Repr

namespace Quote

/-- Whether a character quotes strings; a grave accent does too. -/
def isMark (c : Char) : Bool := c = '"' || c = '\'' || c.toNat = 0x60

/-- Whether a letter may stand before the quote, in either case. -/
def isFlag (c : Char) : Bool := ['f', 'r', 'b', 'u'].contains c.toLower

/-- The quoting that letters and a quote announce. -/
def ofFlags (flags : List Char) (mark : Char) (isTriple : Bool) : Quote :=
  let has (c : Char) : Bool := flags.any (·.toLower = c)
  { mark, isTriple, isRaw := has 'r', isFormat := has 'f', isBytes := has 'b' }

/-- Takes the opening of a string, with the quoting that it announces. -/
def opening : Reader (Quote × List Char) := do
  let flags ← takeWhile isFlag
  let mark ← satisfying isMark
  if mark.toNat ≠ 0x60 && (← accept [mark, mark]) then
    return (ofFlags flags mark true, flags ++ [mark, mark, mark])
  return (ofFlags flags mark false, flags ++ [mark])

/-- The quotes that end the string. -/
def closing (q : Quote) : List Char := List.replicate (if q.isTriple then 3 else 1) q.mark

end Quote

/-! ### Escapes -/

/-- Takes exactly so many hexadecimal digits. -/
def hexDigits (n : Nat) : Reader (List Char) := count (Text.isDigitBelow 16) n

/-- Takes a character's name in braces. -/
def namedEscape : Reader (List Char) := do
  expect ['N', '\x7b']
  let name ← takeWhile1 (· != '\x7d')
  expect ['\x7d']
  return 'N' :: '\x7b' :: name ++ ['\x7d']

/-- Takes what belongs to a backslash in front: the rest of an escape, or nothing. -/
def escapeRest : Reader (List Char) := do
  match ← get with
  | 'u' :: _ => return (← optional do return (← any) :: (← hexDigits 4)).getD []
  | 'U' :: _ => return (← optional do return (← any) :: (← hexDigits 8)).getD []
  | 'x' :: _ => return (← optional do return (← any) :: (← hexDigits 2)).getD []
  | 'N' :: _ => return (← optional namedEscape).getD []
  | '\r' :: '\n' :: _ => expect ['\r', '\n']; return ['\r', '\n']
  | c :: rest =>
    if Text.isDigit c then
      let digits := (c :: rest.take 2).takeWhile Text.isDigit
      expect digits
      return digits
    else if ['\n', '\'', '"', 'a', 'b', 'f', 'n', 'r', 't', 'v', '\\'].contains c then
      return [← any]
    else return []
  | [] => return []

/-- Takes what a backslash in a raw string keeps from being read: a quote or a backslash,
then a line break. -/
def rawRest (q : Quote) : Reader (List Char) := do
  let kept ← do
    match ← peek? with
    | some c => if c = q.mark || c = '\\' then pure [← any] else pure []
    | none => pure []
  if ← accept ['\r', '\n'] then return kept ++ ['\r', '\n']
  if ← accept ['\r'] then return kept ++ ['\r']
  if ← accept ['\n'] then return kept ++ ['\n']
  return kept

/-! ### Content -/

inductive ContentEnd where
  | field
  | close
deriving DecidableEq, Repr

/-- A run of content under way, last character first. `settled` is content for certain;
`pending` holds what a raw string's backslashes passed over since, which is content only if
more follows; a line break is content of a simply quoted string only where nothing
`started`. -/
structure Content where
  settled : List Char := []
  pending : List Char := []
  started : Bool := false

namespace Content

/-- The run with an ordinary character. -/
def plain (c : Content) (x : Char) : Content :=
  { settled := x :: (c.pending ++ c.settled), started := true }

/-- The run with a piece that stands for itself; a new piece may start behind it. -/
def piece (c : Content) (xs : List Char) : Content :=
  { settled := xs.reverse ++ c.pending ++ c.settled }

/-- The run behind a backslash of a raw string and what it passes over. -/
def raw (c : Content) (xs : List Char) : Content :=
  if c.started then { c with settled := xs.reverse ++ c.settled }
  else { c with pending := xs.reverse ++ c.pending }

end Content

/-- Takes a run of content; answers with the content, with the characters passed over
that are none, and with what ended it. The end itself is not taken. -/
def content (q : Quote) : Reader (List Char × List Char × ContentEnd) :=
  loop (fun (run : Content) => do
    if q.isFormat then
      if ← accept ['\x7b', '\x7b'] then return .inl (run.piece ['\x7b', '\x7b'])
      if ← accept ['\x7d', '\x7d'] then return .inl (run.piece ['\x7d', '\x7d'])
      if ← looksAt ['\x7b'] then return .inr ((run.pending ++ run.settled).reverse, [], .field)
      if ← looksAt ['\x7d'] then reject
    if ← accept ['\\'] then
      if q.isRaw then return .inl (run.raw ('\\' :: (← rawRest q)))
      let rest ← escapeRest
      return .inl (run.piece ('\\' :: rest))
    if ← looksAt q.closing then
      return .inr (run.settled.reverse, run.pending.reverse, .close)
    if q.isTriple then
      if ← accept [q.mark, q.mark] then return .inl (run.piece [q.mark, q.mark])
      if ← accept [q.mark] then return .inl (run.piece [q.mark])
    let c ← any
    if c = '\n' && run.started && !q.isTriple then reject
    return .inl (run.plain c)) {}

end QualityGate.Python
