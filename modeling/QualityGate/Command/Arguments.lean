import QualityGate.Command.Options
import QualityGate.Text.Basic
import QualityGate.Text.Segments

/-! Reading a command line, argument by argument. A switch is known by its long form or
by one letter; letters may share a dash, and a value follows after an equals sign, right
behind the letter, or as the next argument. Two dashes end the switches. Only patterns
to exclude may be given several times. -/
namespace QualityGate.Command

/-- What a command line comes to: a request, with the configuration that it names, or
information about the program, or nothing that can be understood. -/
inductive Invocation where
  | run (config : Option String) (request : Request)
  | help
  | version
  | invalid
deriving DecidableEq, Repr

/-- A switch that was given to a verb, with its value. -/
structure Given where
  verb : Verb
  switch : Switch
  value : String := ""
deriving DecidableEq, Repr

/-- What was read of a command line: the verb, an option that waits for its value, whether
the switches have ended, the switches given, and the other arguments. -/
structure Reading where
  verb : Verb := .top
  pending : Option Switch := none
  switchesEnded : Bool := false
  given : List Given := []
  words : List String := []

/-- A number of at most 64 bits with a sign in front of it or without one. -/
def readInteger? (s : String) : Option Int :=
  let numeral? (cs : List Char) : Option Nat :=
    if cs.isEmpty || !cs.all Text.isDigit then none else some (Text.numeral 10 cs)
  let inRange (n : Int) : Option Int := if Text.fitsSigned n then some n else none
  match s.toList with
  | '-' :: cs => (numeral? cs).bind fun n => inRange (-n)
  | '+' :: cs => (numeral? cs).bind fun n => inRange n
  | cs => (numeral? cs).bind fun n => inRange n

/-- Whether a text may be the value of an option. -/
def Switch.accepts (s : Switch) (value : String) : Bool :=
  match s with
  | .config | .scopeRoot => !value.isEmpty
  | .format => (OutputFormat.ofName? value).isSome
  | .limit _ => (readInteger? value).isSome
  | _ => true

/-- Whether an argument stands for a value rather than for a switch, behind an option. Only
limits may be numbers with a dash. -/
def Switch.takesNext (s : Switch) (argument : List Char) : Bool :=
  match argument, s with
  | '-' :: c :: _, .limit _ => Text.isDigit c
  | '-' :: _ :: _, _ => false
  | _, _ => true

namespace Reading

/-- What a step comes to: more to read, or an end. -/
abbrev Step := Except Invocation Reading

/-- The reading with one more switch. -/
def give (r : Reading) (s : Switch) (value : String) : Step :=
  match s with
  | .help => .error .help
  | .version => .error .version
  | s =>
    let again := r.given.any fun g => g.verb = r.verb && g.switch = s
    if (again && s != .exclude) || !s.accepts value then .error .invalid
    else .ok { r with pending := none, given := r.given ++ [⟨r.verb, s, value⟩] }

/-- Reads a long form, perhaps with a value behind an equals sign. -/
def long (r : Reading) (body : List Char) : Step :=
  let name := body.takeWhile (· != '=')
  let value := (body.dropWhile (· != '=')).drop 1
  match (Switch.knownTo r.verb).find? fun s => s.long.toList = name with
  | none => .error .invalid
  | some s =>
    let hasValue := body.contains '='
    if s.takesValue then
      if hasValue then r.give s (String.ofList value) else .ok { r with pending := some s }
    else if hasValue then .error .invalid
    else r.give s ""

/-- Reads letters behind one dash. -/
def letters (r : Reading) : List Char → Step
  | [] => .ok r
  | c :: cs =>
    match (Switch.knownTo r.verb).find? (·.short? = some c) with
    | none => .error .invalid
    | some s =>
      if s.takesValue then
        if cs.isEmpty then .ok { r with pending := some s }
        else r.give s (String.ofList (if cs.head? = some '=' then cs.drop 1 else cs))
      else do (← r.give s "").letters cs

/-- Reads an argument that is no switch: a verb, or what the verb is about. -/
def word (r : Reading) (argument : String) : Step :=
  match r.verb with
  | .top =>
    match Verb.ofName? argument with
    | some v => if r.switchesEnded then .error .invalid else .ok { r with verb := v }
    | none => .error .invalid
  | .help =>
    if (Verb.ofName? argument).isSome && r.words.isEmpty then
      .ok { r with words := [argument] }
    else .error .invalid
  | .check =>
    if r.words.isEmpty && !argument.isEmpty then .ok { r with words := [argument] }
    else .error .invalid
  | .listRules | .init => .error .invalid

def step (r : Reading) (argument : String) : Step :=
  let cs := argument.toList
  match r.pending with
  | some s => if s.takesNext cs then r.give s argument else .error .invalid
  | none =>
    if r.switchesEnded then r.word argument
    else match cs with
      | ['-', '-'] => .ok { r with switchesEnded := true }
      | '-' :: '-' :: body => r.long body
      | '-' :: c :: rest => r.letters (c :: rest)
      | _ => r.word argument

/-- The last value of a switch. -/
def value? (r : Reading) (s : Switch) : Option String :=
  (r.given.reverse.find? (·.switch = s)).map (·.value)

def has (r : Reading) (s : Switch) : Bool := r.given.any (·.switch = s)

def checkOptions (r : Reading) : CheckOptions where
  path := r.words.head?
  scopeRoot := r.value? .scopeRoot
  all := r.has .all
  strict := r.has .strict
  json := r.has .json
  format := ((r.value? .format).bind OutputFormat.ofName?).getD .text
  rules := r.value? .rules
  exclude := (r.given.filter (·.switch = .exclude)).map (·.value)
  sequential := r.has .sequential
  coreOnly := r.has .coreOnly
  thresholds := .ofFn fun l => (r.value? (.limit l)).bind readInteger?

/-- What the command line comes to at its end. -/
def finish (r : Reading) : Invocation :=
  if r.pending.isSome then .invalid
  else
    let run := Invocation.run (r.value? .config)
    match r.verb with
    | .top => .invalid
    | .help => .help
    | .listRules => run .listRules
    | .init => run (.writeTemplate (r.has .force))
    | .check =>
      let o := r.checkOptions
      if o.path.isSome && o.scopeRoot.isSome then .invalid else run (.check o)

end Reading

def Invocation.ofArguments (arguments : List String) : Invocation :=
  match arguments.foldlM Reading.step {} with
  | .ok r => r.finish
  | .error e => e

end QualityGate.Command
