/-! Tokens of Python text. A token knows where it stands, how far its line is indented
when it is the first one on it, and which comments and line continuations come right
before it. -/
namespace QualityGate.Python

/-- A place in a text: the characters before it, the line breaks before it, and the
characters between the last of these and it. -/
structure Position where
  offset : Nat
  row : Nat
  column : Nat
deriving DecidableEq, Repr, Inhabited

namespace Position

def start : Position := ⟨0, 0, 0⟩

/-- The place behind one more character. -/
def step (p : Position) (c : Char) : Position :=
  if c = '\n' then ⟨p.offset + 1, p.row + 1, 0⟩ else ⟨p.offset + 1, p.row, p.column + 1⟩

def advance (p : Position) (cs : List Char) : Position := cs.foldl step p

end Position

/-- What may stand between tokens besides blanks. -/
inductive TriviaKind where
  | comment
  | continuation
deriving DecidableEq, Repr

/-- A comment or a line continuation; the indentation is given when it is the first
thing on its line. -/
structure Trivia where
  kind : TriviaKind
  start : Position
  stop : Position
  indent : Option Nat
deriving DecidableEq, Repr

/-- The classes of tokens. Words and operators are told apart by their text. -/
inductive TokenKind where
  | word
  | integer
  | float
  | stringStart
  | stringContent
  | stringEnd
  | conversion
  | formatText
  | symbol
  | endOfText
deriving DecidableEq, Repr, Inhabited

/-- A token. The indentation is given when it is the first one on its line. -/
structure Token where
  kind : TokenKind
  text : List Char
  start : Position
  stop : Position
  indent : Option Nat
  trivia : List Trivia
deriving DecidableEq, Repr, Inhabited

namespace Token

def isSymbol (t : Token) (s : String) : Bool := t.kind = .symbol && t.text = s.toList

def isWord (t : Token) (s : String) : Bool := t.kind = .word && t.text = s.toList

/-- Whether the token is a given operator or a given word. -/
def isText (t : Token) (s : String) : Bool :=
  (t.kind = .symbol || t.kind = .word) && t.text = s.toList

def keywords : List String :=
  ["and", "as", "assert", "break", "class", "continue", "def", "del", "elif", "else", "except",
   "False", "finally", "for", "from", "global", "if", "import", "in", "is", "lambda", "None",
   "nonlocal", "not", "or", "pass", "raise", "return", "True", "try", "while", "with", "yield"]

def isName (t : Token) : Bool :=
  t.kind = .word && !keywords.any fun k => t.text = k.toList

/-- Whether the token opens a string without any letter before the quote. -/
def isBareQuote (t : Token) : Bool :=
  t.kind = .stringStart && !t.text.any Char.isAlpha

end Token

end QualityGate.Python
