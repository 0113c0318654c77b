import QualityGate.Text.Basic

/-! Shell-style patterns over whole texts. `?` is any character, `*` any sequence,
slashes included, `[abc]` and `[!a-z]` sets of characters, and `**` a sequence of
whole path components: it stands alone between slashes, and matches nothing or a
text that ends in a slash, or any text where the pattern ends with it. -/
namespace QualityGate

/-- A member of a character set: one character or a range with both ends. -/
inductive CharRange where
  | single (c : Char)
  | range (low high : Char)
deriving DecidableEq, Repr

namespace CharRange

def covers (c : Char) : CharRange → Bool
  | .single d => c = d
  | .range low high => decide (low.toNat ≤ c.toNat) && decide (c.toNat ≤ high.toNat)

/-- Reads the inside of brackets from the left; a range takes three characters. -/
def ofChars : List Char → List CharRange
  | a :: '-' :: b :: rest => .range a b :: ofChars rest
  | a :: rest => .single a :: ofChars rest
  | [] => []

end CharRange

/-- A pattern, element by element. -/
inductive Glob.Element where
  | char (c : Char)
  | anyChar
  | anySequence
  | anyComponents
  | within (set : List CharRange)
  | outside (set : List CharRange)
deriving DecidableEq, Repr

structure Glob where
  elements : List Glob.Element
deriving DecidableEq, Repr

namespace Glob

inductive Problem where
  | wildcards
  | recursiveWildcards
  | invalidRange
deriving DecidableEq, Repr

def Problem.text : Problem → String
  | .wildcards => "wildcards are either regular `*` or recursive `**`"
  | .recursiveWildcards => "recursive wildcards must form a single path component"
  | .invalidRange => "invalid range pattern"

/-- A problem and the index of the character it was found at. -/
structure Error where
  position : Nat
  problem : Problem
deriving DecidableEq, Repr

def Error.message (e : Error) : String :=
  "Pattern syntax error near position " ++ toString e.position ++ ": " ++ e.problem.text

/-! ### Compilation -/

/-- Where the compiler stands: between elements, or inside brackets that opened
at an index, with the characters read so far in reverse. -/
inductive Stage where
  | between
  | bracket (start : Nat) (negated : Bool) (read : List Char)

/-- Whether a recursive wildcard may start behind this character. -/
def startsComponent (prev : Option Char) : Bool :=
  match prev with
  | none => true
  | some c => c = '/'

/-- Compiles the rest of a pattern, knowing the index and the character before it. -/
def compileFrom : Stage → Nat → Option Char → List Char → Except Error (List Element)
  | .between, _, _, [] => .ok []
  | .bracket start _ _, _, _, [] => .error ⟨start, .invalidRange⟩
  | .bracket start negated read, i, _, c :: cs =>
    if c = ']' && !read.isEmpty then do
      let rest ← compileFrom .between (i + 1) (some ']') cs
      let set := CharRange.ofChars read.reverse
      return (if negated then .outside set else .within set) :: rest
    else compileFrom (.bracket start negated (c :: read)) (i + 1) (some c) cs
  | .between, i, _, '*' :: '*' :: '*' :: _ => .error ⟨i + 2, .wildcards⟩
  | .between, i, prev, '*' :: '*' :: '/' :: cs =>
    if startsComponent prev then
      (.anyComponents :: ·) <$> compileFrom .between (i + 3) (some '/') cs
    else .error ⟨i - 1, .recursiveWildcards⟩
  | .between, i, prev, '*' :: '*' :: cs =>
    if !startsComponent prev then .error ⟨i - 1, .recursiveWildcards⟩
    else if cs.isEmpty then .ok [.anyComponents]
    else .error ⟨i + 2, .recursiveWildcards⟩
  | .between, i, _, '*' :: cs => (.anySequence :: ·) <$> compileFrom .between (i + 1) (some '*') cs
  | .between, i, _, '?' :: cs => (.anyChar :: ·) <$> compileFrom .between (i + 1) (some '?') cs
  | .between, i, _, '[' :: '!' :: cs => compileFrom (.bracket i true []) (i + 2) (some '!') cs
  | .between, i, _, '[' :: cs => compileFrom (.bracket i false []) (i + 1) (some '[') cs
  | .between, i, _, c :: cs => (.char c :: ·) <$> compileFrom .between (i + 1) (some c) cs

def compile (pattern : String) : Except Error Glob :=
  Glob.mk <$> compileFrom .between 0 none pattern.toList

/-! ### Matching -/

/-- Whether a predicate holds of the text or of what is left of it behind some character. -/
def anySuffix (p : List Char → Bool) : List Char → Bool
  | [] => p []
  | c :: cs => p (c :: cs) || anySuffix p cs

/-- Whether a predicate holds of what is left of the text behind some slash. -/
def anyBelow (p : List Char → Bool) : List Char → Bool
  | [] => false
  | c :: cs => (c = '/' && p cs) || anyBelow p cs

/-- Whether one character fits an element that takes exactly one. -/
def Element.fits (c : Char) : Element → Bool
  | .char d => c = d
  | .anyChar => true
  | .within set => set.any (·.covers c)
  | .outside set => !set.any (·.covers c)
  | .anySequence | .anyComponents => false

def matchElements : List Element → List Char → Bool
  | [], s => s.isEmpty
  | [.anyComponents], _ => true
  | .anyComponents :: es, s => matchElements es s || anyBelow (matchElements es) s
  | .anySequence :: es, s => anySuffix (matchElements es) s
  | _ :: _, [] => false
  | e :: es, c :: cs => e.fits c && matchElements es cs

def isMatch (g : Glob) (text : List Char) : Bool := matchElements g.elements text

end Glob

end QualityGate
