import QualityGate.Engine
import QualityGate.Python.Grammar.Module
import QualityGate.Python.Lowering

/-! Python as a language of the engine. -/
namespace QualityGate.Python

inductive ParseError where
  | syntaxError
  | tooDeep
deriving DecidableEq, Repr

def ParseError.message : ParseError → String
  | .syntaxError => "syntax error"
  | .tooDeep => "syntax tree nests deeper than " ++ toString Lowering.maxLevels ++ " levels"

/-- The statements of a module. -/
def parseModule (source : String) : Except ParseError (List Node) :=
  match Cst.ofSource? source with
  | none => .error .syntaxError
  | some c =>
    match Lowering.statements source.toList.toArray c with
    | none => .error .tooDeep
    | some body => .ok body

def frontEnd : FrontEnd ParseError where
  language := "python"
  extensions := ["py"]
  parse path source := (parseModule source).map (.ofSource path source)

end QualityGate.Python
