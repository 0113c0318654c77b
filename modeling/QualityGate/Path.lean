import QualityGate.Text.Segments

/-! File paths. A path is its text; its components are what stands between the
slashes, without empty ones and without `.` except in front. Two paths compare
by their components, and taking a base off a path compares components too, but
what remains keeps the spelling of the path. -/
namespace QualityGate

structure Path where
  text : String
deriving DecidableEq, Repr, Inhabited

namespace Path

inductive Component where
  | root
  | current
  | parent
  | normal (name : List Char)
deriving DecidableEq, Repr

/-- The pieces of the text between slashes. -/
def segments (p : Path) : List (List Char) := Text.split '/' p.text.toList

/-- A segment that names nothing: an empty one or a single dot. -/
def isVoid (s : List Char) : Bool := s = [] || s = ['.']

/-- The component that a segment inside a path stands for, if any. -/
def Component.ofSegment? (s : List Char) : Option Component :=
  if isVoid s then none
  else if s = ['.', '.'] then some .parent
  else some (.normal s)

/-- A leading slash or a leading dot, with the segments behind it. -/
def anchor : List (List Char) → Option Component × List (List Char)
  | [] :: s :: ss => (some .root, s :: ss)
  | ['.'] :: ss => (some .current, ss)
  | ss => (none, ss)

def components (p : Path) : List Component :=
  let (head, rest) := anchor p.segments
  head.toList ++ rest.filterMap Component.ofSegment?

/-- Void segments taken off the right end. -/
def dropVoidRight (ss : List (List Char)) : List (List Char) :=
  (ss.reverse.dropWhile isVoid).reverse

/-- Segments without void ones at either end. -/
def trimVoid (ss : List (List Char)) : List (List Char) :=
  dropVoidRight (ss.dropWhile isVoid)

def ofSegments (ss : List (List Char)) : Path := ⟨String.ofList (Text.join ['/'] ss)⟩

/-- The path without slashes and dots that end it for nothing. -/
def trimRight (p : Path) : Path :=
  match anchor p.segments with
  | (some .root, rest) => ⟨String.ofList ('/' :: Text.join ['/'] (dropVoidRight rest))⟩
  | (some _, rest) => ofSegments (['.'] :: dropVoidRight rest)
  | (none, rest) => ofSegments (dropVoidRight rest)

/-- Drops as many component-bearing segments as asked for. -/
def dropSegments : Nat → List (List Char) → List (List Char)
  | 0, ss => ss
  | _ + 1, [] => []
  | n + 1, s :: ss => if isVoid s then dropSegments (n + 1) ss else dropSegments n ss

/-- What is left of a path behind its first components, in its own spelling. -/
def dropComponents (n : Nat) (p : Path) : Path :=
  match n with
  | 0 => p.trimRight
  | n + 1 =>
    match anchor p.segments with
    | (some _, rest) => ofSegments (trimVoid (dropSegments n rest))
    | (none, rest) => ofSegments (trimVoid (dropSegments (n + 1) rest))

/-- The path below a base, or nothing when the base's components do not begin the path's. -/
def below? (base p : Path) : Option Path :=
  if base.components.isPrefixOf p.components then some (p.dropComponents base.components.length)
  else none

/-- The path relative to a root: the root is taken off where it begins the path,
then a leading dot is. -/
def relativeTo (p root : Path) : Path :=
  let inner := (below? root p).getD p
  (below? ⟨"."⟩ inner).getD inner

def isAbsolute (p : Path) : Bool := p.text.toList.head? = some '/'

/-- A path continued by another one; an absolute continuation stands alone. -/
def append (p q : Path) : Path :=
  if q.isAbsolute then q
  else if p.text.isEmpty || p.text.toList.getLast? = some '/' then ⟨p.text ++ q.text⟩
  else ⟨p.text ++ "/" ++ q.text⟩

instance : HDiv Path Path Path := ⟨append⟩

/-! ### Order -/

/-- Where a component stands among the others: the root first, names last. -/
def Component.rank : Component → Nat
  | .root => 0
  | .current => 1
  | .parent => 2
  | .normal _ => 3

/-- Lexicographic comparison of texts by their characters' codes. -/
def compareChars : List Char → List Char → Ordering
  | [], [] => .eq
  | [], _ :: _ => .lt
  | _ :: _, [] => .gt
  | a :: as, b :: bs => (compare a.toNat b.toNat).then (compareChars as bs)

def Component.compare : Component → Component → Ordering
  | .normal s, .normal t => compareChars s t
  | a, b => Ord.compare a.rank b.rank

def compareComponents : List Component → List Component → Ordering
  | [], [] => .eq
  | [], _ :: _ => .lt
  | _ :: _, [] => .gt
  | a :: as, b :: bs => (a.compare b).then (compareComponents as bs)

/-- The order of paths, by components. -/
def compare (p q : Path) : Ordering := compareComponents p.components q.components

end Path

end QualityGate
