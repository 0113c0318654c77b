import QualityGate.Python.Grammar.Expression

/-! Patterns behind `case`. Alternatives, sequences, mappings and classes hold patterns
again; a pattern may get a name. Single values stand for themselves, and an underscore
stands for nothing. -/
namespace QualityGate.Python.Grammar

/-- A name with its attributes. -/
def dotted : Grammar Piece := do
  let first ← name
  let rest ← loop (fun (read : List Piece) => do
    if ← sees "." then return .inl (read ++ [← take, ← name]) else return .inr read) []
  return first.build .dottedName rest

def number : Grammar Piece := do
  match (← next).kind with
  | .integer => takeAs .integer
  | .float => takeAs .float
  | _ => reject

/-- A number with its sign, or a sum of two numbers. -/
def numberPattern : Grammar (List Piece) := do
  let sign ← accept? "-"
  let ps := sign.toList ++ [← number]
  if (← sees "+") || (← sees "-") then return [← build .construct (ps ++ [← take, ← number])]
  return ps

def seesUnderscore : Grammar Bool := return (← next).isWord "_"

/-- What a star takes. -/
def restPattern : Grammar Piece := do
  let star ← take
  let rest ← if ← seesUnderscore then take else name
  return star.build .construct [rest]

/-- Patterns in brackets, with commas between them. -/
def patternsIn (opening closing : String) (item : Grammar (List Piece)) : Grammar (List Piece) :=
  bracketed opening closing do
    if ← sees closing then return [] else separated "," (return !(← sees closing)) item

/-- A pattern that stands for one value, or for nothing. -/
def valuePattern (r : Rules) : Grammar (List Piece) := do
  let t ← next
  if t.kind = .stringStart then return [← strings r]
  else if t.isSymbol "-" || t.kind = .integer || t.kind = .float then numberPattern
  else if t.isSymbol "..." then reject
  else match constant? t with
    | some kind => return [← takeAs kind]
    | none =>
      if t.isWord "_" && !(← seesSecond ".") && !(← seesSecond "(") then return [← take]
      return [← dotted]

def entryPattern (r : Rules) : Grammar (List Piece) := do
  if ← sees "**" then return [← restPattern]
  return (← valuePattern r) ++ [← expect ":", ← r .casePattern]

/-- Patterns for the parts of something in brackets. -/
def partPatterns (r : Rules) (opening closing : String) : Grammar (List Piece) :=
  patternsIn opening closing do return [← r .casePattern]

/-- A pattern without alternatives. -/
def closedPattern (r : Rules) : Grammar (List Piece) := do
  let t ← next
  if t.isSymbol "*" || t.isSymbol "**" then return [← restPattern]
  else if t.isSymbol "[" then return [← build .construct (← partPatterns r "[" "]")]
  else if t.isSymbol "(" then return [← build .construct (← partPatterns r "(" ")")]
  else if t.isSymbol "\x7b" then
    return [← build .construct (← patternsIn "\x7b" "\x7d" (entryPattern r))]
  else
    let ps ← valuePattern r
    if ps.all (·.kind = .dottedName) && (← sees "(") then
      return [← build .construct (ps ++ (← partPatterns r "(" ")"))]
    return ps

/-- A pattern with its alternatives, without a name. -/
def simplePattern (r : Rules) : Grammar (List Piece) := do
  let first ← closedPattern r
  let all ← loop (fun (read : List Piece) => do
    match ← accept? "|" with
    | some bar => return .inl (read ++ bar :: (← closedPattern r))
    | none => return .inr read) first
  if all.length = first.length then return first else return [← build .construct all]

/-- A pattern, under a name or for a named part of a class if it says so. -/
def casePattern (r : Rules) : Grammar Piece := do
  let inside ← if (← next).isName && (← seesSecond "=") then do
      let key ← name
      let equals ← take
      let value ← simplePattern r
      pure [← build .construct (key :: equals :: value)]
    else simplePattern r
  loop (fun (p : Piece) => do
    match ← accept? "as" with
    | some word => return .inl (wrapped (p.build .asPattern [word, ← name]))
    | none => return .inr p) (← build .construct inside)

end QualityGate.Python.Grammar
