import QualityGate.Toml.Scalar

/-! TOML documents. A document is a list of key-value pairs and table headers; both
build up nested tables, and the way a table came about says what may still be added
to it: a table opened by a header takes no more headers of its own name, one made by
dotted keys takes only dotted keys from the same place, and a value takes nothing. -/
namespace QualityGate.Toml

open Text (Reader)
open Text.Reader

/-! ### Tables under construction -/

/-- How a table came about: by its own header, on the way to another header, or by a
dotted key. -/
inductive TableForm where
  | explicit
  | implicit
  | dotted
deriving DecidableEq, Repr

/-- A part of a document under construction. -/
inductive Item where
  | value (v : Value)
  | table (form : TableForm) (entries : List (String × Item))
  | tables (elements : List Item)

abbrev Entries := List (String × Item)

/-- Replaces the entry of a key, or adds it behind the others. -/
def put (key : String) (item : Item) : Entries → Entries
  | [] => [(key, item)]
  | (k, i) :: rest => if k = key then (k, item) :: rest else (k, i) :: put key item rest

/-- Changes the table at the end of a path; tables on the way are made as needed. A
dotted path may not pass through a table with a header of its own. -/
def alter (dotted : Bool) (change : TableForm → Entries → Option (TableForm × Entries)) :
    List String → TableForm → Entries → Option (TableForm × Entries)
  | [], form, entries => change form entries
  | key :: path, form, entries =>
    match entries.lookup key with
    | none => do
      let fresh := if dotted then TableForm.dotted else .implicit
      let (f, es) ← alter dotted change path fresh []
      return (form, put key (.table f es) entries)
    | some (.table f es) =>
      if dotted && f = .explicit then none
      else do
        let (f, es) ← alter dotted change path f es
        return (form, put key (.table f es) entries)
    | some (.tables elements) =>
      match elements.reverse with
      | .table f es :: before => do
        let (f, es) ← alter dotted change path f es
        return (form, put key (.tables (before.reverse ++ [.table f es])) entries)
      | _ => none
    | some (.value _) => none

/-- Adds a value under a key that may be dotted. The key must be new, and a dotted key
adds to tables made by dotted keys only. -/
def insertValue (path : List String) (key : String) (v : Value) :
    TableForm → Entries → Option (TableForm × Entries) :=
  alter true (fun form entries =>
    if (form = .dotted) = path.isEmpty then none
    else if (entries.lookup key).isSome then none
    else some (form, entries ++ [(key, .value v)])) path

def openTable (path : List String) (key : String) :
    TableForm → Entries → Option (TableForm × Entries) :=
  alter false (fun form entries =>
    match entries.lookup key with
    | none => some (form, entries ++ [(key, .table .explicit [])])
    | some (.table .implicit es) => some (form, put key (.table .explicit es) entries)
    | some _ => none) path

/-- Opens one more element of an array of tables. -/
def openElement (path : List String) (key : String) :
    TableForm → Entries → Option (TableForm × Entries) :=
  alter false (fun form entries =>
    match entries.lookup key with
    | none => some (form, entries ++ [(key, .tables [.table .explicit []])])
    | some (.tables es) => some (form, put key (.tables (es ++ [.table .explicit []])) entries)
    | some _ => none) path

mutual

def Item.toValue : Item → Value
  | .value v => v
  | .table _ entries => .table (entriesToValues entries)
  | .tables elements => .array (itemsToValues elements)

def entriesToValues : Entries → Table
  | [] => []
  | (key, item) :: rest => (key, item.toValue) :: entriesToValues rest

def itemsToValues : List Item → List Value
  | [] => []
  | item :: rest => item.toValue :: itemsToValues rest

end

/-! ### Keys and values -/

/-- The nesting of values and the number of parts of a key stay below this. -/
def nestingLimit : Nat := 80

/-- Whether a character may stand in a key without quotes. -/
def isBareKeyChar (c : Char) : Bool :=
  Text.isDigit c || ('a'.toNat ≤ c.toNat && c.toNat ≤ 'z'.toNat)
    || ('A'.toNat ≤ c.toNat && c.toNat ≤ 'Z'.toNat) || c = '_' || c = '-'

def keyPart : Reader String := do
  match ← peek? with
  | some '"' | some '\'' => shortString
  | _ => return String.ofList (← takeWhile1 isBareKeyChar)

/-- A key: its parts before the last one, and the last one. -/
def key : Reader (List String × String) := do
  blanks
  let first ← keyPart
  let parts ← loop (fun (read : List String) => do
    blanks
    if ← accept ['.'] then
      blanks
      return .inl ((← keyPart) :: read)
    else return .inr read) [first]
  if nestingLimit ≤ parts.length then reject
  match parts with
  | last :: before => return (before.reverse, last)
  | [] => reject

/-- A key, an equals sign and a value. -/
def keyValue (value : Reader Value) : Reader ((List String × String) × Value) := do
  let k ← key
  blanks
  expect ['=']
  blanks
  return (k, ← value)

/-- The rest of an array behind its bracket. -/
def arrayBody (value : Reader Value) : Reader Value :=
  loop (fun (read : List Value) => do
    blankLines
    if ← accept [']'] then return .inr (.array read.reverse)
    let v ← value
    blankLines
    if ← accept [','] then return .inl (v :: read)
    expect [']']
    return .inr (.array (v :: read).reverse)) []

/-- The rest of an inline table behind its brace. -/
def inlineBody (value : Reader Value) : Reader Value := do
  blanks
  if ← accept ['}'] then return .table []
  loop (fun (entries : Entries) => do
    let ((path, last), v) ← keyValue value
    match insertValue path last v .explicit entries with
    | none => reject
    | some (_, entries) =>
      blanks
      if ← accept [','] then return .inl entries
      expect ['}']
      return .inr (.table (entriesToValues entries))) []

/-- A value that nests at most so deep. -/
def valueWithin : Nat → Reader Value
  | 0 => do
    match ← peek? with
    | some '[' | some '\x7b' => reject
    | _ => scalar
  | n + 1 => do
    if ← accept ['['] then arrayBody (valueWithin n)
    else if ← accept ['\x7b'] then inlineBody (valueWithin n)
    else scalar

def value : Reader Value := valueWithin (nestingLimit - 1)

/-! ### Documents -/

/-- The document so far, and the table that key-value pairs go to. -/
structure Draft where
  entries : Entries := []
  current : List String := []

def Draft.change (d : Draft)
    (f : TableForm → Entries → Option (TableForm × Entries)) : Option Draft :=
  (f .explicit d.entries).map fun (_, entries) => { d with entries }

/-- Ends a line: blanks, a comment, and a line break or the end of the text. -/
def lineEnd : Reader Unit := do
  blanks
  acceptComment
  unless (← acceptBreak) || (← atEnd) do reject

/-- A draft that a change must not refuse. -/
def accepted (d : Option Draft) : Reader Draft := fun cs => d.map (·, cs)

/-- A header behind its bracket. -/
def header (d : Draft) : Reader Draft := do
  if ← accept ['['] then
    let (path, last) ← key
    blanks
    expect [']', ']']
    lineEnd
    let d ← accepted (d.change (openElement path last))
    return { d with current := path ++ [last] }
  else
    let (path, last) ← key
    blanks
    expect [']']
    lineEnd
    let d ← accepted (d.change (openTable path last))
    return { d with current := path ++ [last] }

/-- A key-value pair on its line. -/
def entry (d : Draft) : Reader Draft := do
  let ((path, last), v) ← keyValue value
  lineEnd
  accepted (d.change (alter false (insertValue path last v) d.current))

def document : Reader Draft :=
  loop (fun (d : Draft) => do
    blanks
    if ← atEnd then return .inr d
    if (← looksAt ['#']) || (← looksAt ['\n']) || (← looksAt ['\r', '\n']) then
      lineEnd
      return .inl d
    else if ← accept ['['] then return .inl (← header d)
    else return .inl (← entry d)) {}

/-- Reads a document; a byte order mark may stand in front. -/
def parse (text : String) : Option Table :=
  let cs := match text.toList with
    | '\ufeff' :: cs => cs
    | cs => cs
  (document.readAll cs).map fun d => entriesToValues d.entries

end QualityGate.Toml
