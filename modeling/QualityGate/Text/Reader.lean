/-! Reading a text from the left. A reader takes what it understands off the front
and hands on the rest, or fails. Repetition is bounded by the length of the text, so
that every reader ends. -/
namespace QualityGate.Text

abbrev Reader := StateT (List Char) Option

namespace Reader

variable {α σ : Type}

def reject : Reader α := fun _ => none

/-- The next character, which stays where it is. -/
def peek? : Reader (Option Char) := fun cs => some (cs.head?, cs)

/-- Whether the rest starts with a text, which stays where it is. -/
def looksAt (p : List Char) : Reader Bool := fun cs => some (p.isPrefixOf cs, cs)

def atEnd : Reader Bool := fun cs => some (cs.isEmpty, cs)

def any : Reader Char
  | [] => none
  | c :: cs => some (c, cs)

/-- Takes one character that passes a test. -/
def satisfying (p : Char → Bool) : Reader Char := do
  let c ← any
  if p c then return c else reject

def expect (p : List Char) : Reader Unit := fun cs =>
  if p.isPrefixOf cs then some ((), cs.drop p.length) else none

def accept (p : List Char) : Reader Bool := fun cs =>
  if p.isPrefixOf cs then some (true, cs.drop p.length) else some (false, cs)

/-- Takes the characters that pass a test, up to the first one that does not. -/
def takeWhile (p : Char → Bool) : Reader (List Char) := fun cs =>
  some (cs.takeWhile p, cs.dropWhile p)

/-- Takes the characters that pass a test; there must be one. -/
def takeWhile1 (p : Char → Bool) : Reader (List Char) := do
  let cs ← takeWhile p
  if cs.isEmpty then reject else return cs

/-- Takes exactly so many characters that pass a test. -/
def count (p : Char → Bool) : Nat → Reader (List Char)
  | 0 => return []
  | n + 1 => do
    let c ← satisfying p
    return c :: (← count p n)

/-- Repeats a step until it answers, at most once more than there are characters in a
list. -/
def iterate (step : σ → Reader (σ ⊕ α)) : List Char → σ → Reader α
  | [], s => do
    match ← step s with
    | .inl _ => reject
    | .inr a => return a
  | _ :: cs, s => do
    match ← step s with
    | .inl s => iterate step cs s
    | .inr a => return a

/-- Repeats a step until it answers; each step but the last takes a character. -/
def loop (step : σ → Reader (σ ⊕ α)) (s : σ) : Reader α := fun cs => iterate step cs s cs

def readAll (r : Reader α) (cs : List Char) : Option α :=
  match r cs with
  | some (a, []) => some a
  | _ => none

end Reader

end QualityGate.Text
