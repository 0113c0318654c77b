import QualityGate.Text.Basic
import QualityGate.Text.Reader

/-! The values of a TOML document and how the scalar ones are written: strings of four kinds,
integers in four bases, floats, dates and times, and truth values. Tables keep their keys in the
order of the text, and no key occurs twice. -/
namespace QualityGate.Toml

open Text (Reader)
open Text.Reader

/-! ### Values -/

/-- A value. Floats and dates keep their text only. -/
inductive Value where
  | string (text : String)
  | integer (n : Int)
  | float (text : String)
  | boolean (b : Bool)
  | datetime (text : String)
  | array (items : List Value)
  | table (entries : List (String × Value))

instance : Inhabited Value := ⟨.table []⟩

abbrev Table := List (String × Value)

/-! ### Characters and blanks -/

/-- Blanks inside a line. -/
def isBlank (c : Char) : Bool := c = ' ' || c = '\t'

/-- Characters that may stand in comments and single-line literals. -/
def isPrintable (c : Char) : Bool := c = '\t' || (32 ≤ c.toNat && c.toNat != 127)

def blanks : Reader Unit := do
  let _ ← takeWhile isBlank

def acceptBreak : Reader Bool := do
  if ← accept ['\n'] then return true
  accept ['\r', '\n']

/-- Takes a comment if one comes next; it ends with its line. -/
def acceptComment : Reader Unit := do
  if ← accept ['#'] then
    let _ ← takeWhile isPrintable

def blankLines : Reader Unit :=
  loop (fun _ => do
    blanks
    acceptComment
    if ← acceptBreak then return .inl () else return .inr ()) ()

def blanksAndBreaks : Reader Unit :=
  loop (fun _ => do
    blanks
    if ← acceptBreak then return .inl () else return .inr ()) ()

/-! ### Strings -/

/-- A character given by its code in so many hexadecimal digits. -/
def codePoint (digits : Nat) : Reader Char := do
  let cs ← count (Text.isDigitBelow 16) digits
  match Text.charOfCode? (Text.numeral 16 cs) with
  | some c => return c
  | none => reject

/-- The character that an escape stands for, behind the backslash. -/
def escaped : Reader Char := do
  match ← any with
  | 'b' => return '\x08'
  | 't' => return '\t'
  | 'n' => return '\n'
  | 'f' => return '\x0c'
  | 'r' => return '\r'
  | '"' => return '"'
  | '\\' => return '\\'
  | 'u' => codePoint 4
  | 'U' => codePoint 8
  | _ => reject

/-- The rest of a string in double quotes. -/
def basicBody : Reader (List Char) :=
  loop (fun (read : List Char) => do
    match ← any with
    | '"' => return .inr read.reverse
    | '\\' => return .inl ((← escaped) :: read)
    | c => if isPrintable c then return .inl (c :: read) else reject) []

/-- The rest of a string in single quotes. -/
def literalBody : Reader (List Char) := do
  let cs ← takeWhile fun c => isPrintable c && c != '\''
  expect ['\'']
  return cs

/-- Takes quotes inside a string that three quotes end. Up to two quotes may stand
before the end; fewer than three quotes belong to the string. -/
def quotes (q : Char) : Reader (List Char × Bool) := do
  let n := (← takeWhile (· = q)).length
  if n < 3 then return (List.replicate n q, false)
  else if n ≤ 5 then return (List.replicate (n - 3) q, true)
  else reject

/-- The rest of a string over several lines. A line break right behind the opening
quotes is dropped, and so is a line end behind a backslash with the blanks after it. -/
def longBody (q : Char) (escapes : Bool) : Reader (List Char) := do
  let _ ← acceptBreak
  loop (fun (read : List Char) => do
    if ← looksAt [q] then
      let (inside, ended) ← quotes q
      let read := inside ++ read
      if ended then return .inr read.reverse else return .inl read
    else if ← acceptBreak then return .inl ('\n' :: read)
    else match ← any with
      | '\\' =>
        if !escapes then return .inl ('\\' :: read)
        else
          let foldedLine ← optional (do
            blanks
            if ← acceptBreak then blanksAndBreaks else reject)
          if foldedLine.isSome then return .inl read
          else return .inl ((← escaped) :: read)
      | c => if isPrintable c then return .inl (c :: read) else reject) []

def shortString : Reader String := do
  if ← accept ['"'] then return String.ofList (← basicBody)
  else
    expect ['\'']
    return String.ofList (← literalBody)

def anyString : Reader String := do
  if ← accept ['"', '"', '"'] then return String.ofList (← longBody '"' true)
  else if ← accept ['\'', '\'', '\''] then return String.ofList (← longBody '\'' false)
  else shortString

/-! ### Numbers -/

/-- Digits in a base, with single underscores between them; the underscores are dropped. -/
def digitGroups (base : Nat) : Reader (List Char) := do
  let first ← takeWhile1 (Text.isDigitBelow base)
  loop (fun (read : List Char) => do
    if ← accept ['_'] then return .inl (read ++ (← takeWhile1 (Text.isDigitBelow base)))
    else return .inr read) first

/-- A sign, as whether it is a minus. -/
def sign : Reader Bool := do
  if ← accept ['-'] then return true
  let _ ← accept ['+']
  return false

/-- The digits of a decimal integer, without a leading zero. -/
def decimalDigits : Reader (List Char) := do
  if ← accept ['0'] then return ['0'] else digitGroups 10

/-- An integer that fits into 64 bits with a sign. -/
def boundedInteger (n : Int) : Reader Value :=
  if Text.fitsSigned n then return .integer n else reject

/-- An integer: decimal with a sign, or in another base without one. -/
def integer : Reader Value := do
  if ← accept ['0', 'x'] then boundedInteger (Text.numeral 16 (← digitGroups 16))
  else if ← accept ['0', 'o'] then boundedInteger (Text.numeral 8 (← digitGroups 8))
  else if ← accept ['0', 'b'] then boundedInteger (Text.numeral 2 (← digitGroups 2))
  else
    let negative ← sign
    let n : Int := Text.numeral 10 (← decimalDigits)
    boundedInteger (if negative then -n else n)

def exponent? : Reader (Option Int) := do
  if (← accept ['e']) || (← accept ['E']) then
    let negative ← sign
    let n : Int := Text.numeral 10 (← digitGroups 10)
    return some (if negative then -n else n)
  else return none

/-- Whether a decimal lies at or above the midpoint behind the largest double, where it
has no finite double next to it. -/
def isOverflow (mantissa : Nat) (exponent : Int) : Bool :=
  let bound := (Nat.pow 2 54 - 1) * Nat.pow 2 970
  if mantissa = 0 then false
  else if 400 < exponent then true
  else match exponent with
    | .ofNat e => bound ≤ mantissa * Nat.pow 10 e
    | .negSucc e =>
      if (toString mantissa).length + 1 ≤ e then false else bound * Nat.pow 10 (e + 1) ≤ mantissa

/-- A float: digits with a fraction, an exponent, or both. -/
def float : Reader Value := do
  let start ← get
  let negative ← sign
  let spelled ← optional (do
    let whole ← decimalDigits
    let fraction ← if ← accept ['.'] then some <$> digitGroups 10 else pure none
    let power ← exponent?
    if fraction.isNone && power.isNone then reject
    let decimals := fraction.getD []
    let mantissa := Text.numeral 10 (whole ++ decimals)
    if !negative && isOverflow mantissa (power.getD 0 - decimals.length) then reject)
  if spelled.isNone then
    unless (← accept ['i', 'n', 'f']) || (← accept ['n', 'a', 'n']) do reject
  let rest ← get
  return .float (String.ofList (start.take (start.length - rest.length)))

/-! ### Dates and times -/

/-- A number of so many digits between two bounds. -/
def bounded (digits low high : Nat) : Reader Nat := do
  let n := Text.numeral 10 (← count Text.isDigit digits)
  if low ≤ n && n ≤ high then return n else reject

def daysIn (year month : Nat) : Nat :=
  if month = 2 then
    if year % 4 = 0 && (year % 100 != 0 || year % 400 = 0) then 29 else 28
  else if month = 4 || month = 6 || month = 9 || month = 11 then 30
  else 31

def date : Reader Unit := do
  let year ← bounded 4 0 9999
  expect ['-']
  let month ← bounded 2 1 12
  expect ['-']
  let _ ← bounded 2 1 (daysIn year month)

/-- A time of day, with a fraction of a second if there is one. -/
def time : Reader Unit := do
  let _ ← bounded 2 0 23
  expect [':']
  let _ ← bounded 2 0 59
  expect [':']
  let _ ← bounded 2 0 60
  let _ ← optional do
    expect ['.']
    let _ ← takeWhile1 Text.isDigit

/-- An offset from universal time. -/
def offset : Reader Unit := do
  if (← accept ['Z']) || (← accept ['z']) then return
  unless (← accept ['+']) || (← accept ['-']) do reject
  let _ ← bounded 2 0 23
  expect [':']
  let _ ← bounded 2 0 59

/-- A date, a time, or both with or without an offset. -/
def datetime : Reader Value := do
  let start ← get
  if (← optional date).isSome then
    let _ ← optional do
      unless (← accept ['T']) || (← accept ['t']) || (← accept [' ']) do reject
      time
      let _ ← optional offset
  else time
  let rest ← get
  return .datetime (String.ofList (start.take (start.length - rest.length)))

/-! ### Scalars -/

/-- The first of several readers that succeeds. -/
def firstOf {α : Type} : List (Reader α) → Reader α
  | [] => reject
  | r :: rs => do
    match ← optional r with
    | some a => return a
    | none => firstOf rs

def boolean : Reader Value := do
  if ← accept ['t', 'r', 'u', 'e'] then return .boolean true
  expect ['f', 'a', 'l', 's', 'e']
  return .boolean false

/-- A value without parts. -/
def scalar : Reader Value := do
  match ← peek? with
  | some '"' | some '\'' => return .string (← anyString)
  | some 't' | some 'f' => boolean
  | _ => firstOf [datetime, float, integer]

end QualityGate.Toml
