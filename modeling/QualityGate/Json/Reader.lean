import QualityGate.Json.Value
import QualityGate.Text.Basic
import QualityGate.Text.Reader

/-! Reading JSON text. Arrays and objects may nest up to a limit. -/
namespace QualityGate.Json

open Text (Reader)
open Text.Reader

/-- Whether a character may stand between values. -/
def isBlank (c : Char) : Bool := c = ' ' || c = '\t' || c = '\n' || c = '\r'

def blanks : Reader Unit := do
  let _ ← takeWhile isBlank

/-- Four hexadecimal digits as a number. -/
def hexQuad : Reader Nat := do
  return Text.numeral 16 (← count (Text.isDigitBelow 16) 4)

/-- The character of an escape by code units, behind the `u`. A character outside the
basic plane takes two of them. -/
def codeUnits : Reader Char := do
  let n ← hexQuad
  let code ←
    if 0xd800 ≤ n && n < 0xdc00 then do
      expect ['\\', 'u']
      let low ← hexQuad
      if 0xdc00 ≤ low && low < 0xe000 then
        pure (0x10000 + (n - 0xd800) * 0x400 + (low - 0xdc00))
      else reject
    else pure n
  match Text.charOfCode? code with
  | some c => return c
  | none => reject

/-- The character that an escape stands for, behind the backslash. -/
def escaped : Reader Char := do
  match ← any with
  | '"' => return '"'
  | '\\' => return '\\'
  | '/' => return '/'
  | 'b' => return '\x08'
  | 'f' => return '\x0c'
  | 'n' => return '\n'
  | 'r' => return '\r'
  | 't' => return '\t'
  | 'u' => codeUnits
  | _ => reject

/-- The next character of a string, or its end. The characters so far are given last one
first. -/
def stringStep (read : List Char) : Reader (List Char ⊕ String) := do
  match ← any with
  | '"' => return .inr (String.ofList read.reverse)
  | '\\' => return .inl ((← escaped) :: read)
  | c => if c.toNat < 32 then reject else return .inl (c :: read)

/-- The rest of a string behind its opening quote. -/
def stringBody : Reader String := loop stringStep []

/-- The digits of an integer: a zero alone, or digits that start with another one. -/
def wholePart : Reader (List Char) := do
  if ← accept ['0'] then return ['0'] else takeWhile1 Text.isDigit

def fractionPart : Reader Unit := do
  expect ['.']
  let _ ← takeWhile1 Text.isDigit

def powerPart : Reader Unit := do
  let _ ← satisfying fun c => c = 'e' || c = 'E'
  let _ ← optional (satisfying fun c => c = '+' || c = '-')
  let _ ← takeWhile1 Text.isDigit

/-- A number; zero with a sign is no integer. -/
def number : Reader Value := do
  let start ← get
  let negative ← accept ['-']
  let whole ← wholePart
  let fraction ← optional fractionPart
  let power ← optional powerPart
  if fraction.isSome || power.isSome || negative && whole = ['0'] then
    let rest ← get
    return .decimal (String.ofList (start.take (start.length - rest.length)))
  let n : Int := Text.numeral 10 whole
  return .integer (if negative then -n else n)

/-- The next item of a list, and whether it is the last one. The items so far are given last
one first. -/
def itemStep {ι : Type} (item : Reader ι) (close : Char) (whole : List ι → Value)
    (read : List ι) : Reader (List ι ⊕ Value) := do
  let x ← item
  blanks
  if ← accept [','] then
    blanks
    return .inl (x :: read)
  expect [close]
  return .inr (whole (x :: read).reverse)

/-- The rest of a list behind its bracket. -/
def listBody {ι : Type} (item : Reader ι) (close : Char) (whole : List ι → Value) :
    Reader Value := do
  blanks
  if ← accept [close] then return whole []
  loop (itemStep item close whole) []

def member (value : Reader Value) : Reader (String × Value) := do
  expect ['"']
  let k ← stringBody
  blanks
  expect [':']
  blanks
  return (k, ← value)

/-- A value without parts. -/
def scalar : Reader Value := do
  if ← accept ['n', 'u', 'l', 'l'] then return .null
  if ← accept ['t', 'r', 'u', 'e'] then return .bool true
  if ← accept ['f', 'a', 'l', 's', 'e'] then return .bool false
  if ← accept ['"'] then return .string (← stringBody)
  number

/-- A value that nests at most so deep. -/
def valueWithin : Nat → Reader Value
  | 0 => scalar
  | n + 1 => do
    if ← accept ['['] then listBody (valueWithin n) ']' .array
    else if ← accept ['\x7b'] then listBody (member (valueWithin n)) '\x7d' .object
    else scalar

def parse (text : String) : Option Value :=
  (do
    blanks
    let v ← valueWithin 127
    blanks
    return v : Reader Value).readAll text.toList

end QualityGate.Json
