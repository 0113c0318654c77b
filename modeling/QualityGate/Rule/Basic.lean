import QualityGate.Context.Classifier
import QualityGate.Node.Walk
import QualityGate.Path
import QualityGate.Thresholds
import QualityGate.Violation.Basic

/-! What a rule is given of a file, and what a rule is to the engine. A rule reads the statements of
a file beside its path, the limits in force and the file's tags. -/
namespace QualityGate

/-! ### Files -/

/-- A file as the rules see it. -/
structure SourceUnit where
  path : Path
  lineCount : Nat
  body : List Node

/-- The number of lines of a text: one more than its line feeds. -/
def countLines (source : String) : Nat := source.toList.count '\n' + 1

namespace SourceUnit

def ofSource (path : Path) (source : String) (body : List Node) : SourceUnit :=
  { path, lineCount := countLines source, body }

/-- All nodes of the file in source order. -/
def walk (u : SourceUnit) : List Node := Node.walkAll u.body

end SourceUnit

structure FileContext where
  path : Path
  relativePath : Path
  thresholds : Thresholds
  tags : Tags

namespace FileContext

def withTags (path root : Path) (thresholds : Thresholds) (tags : Tags) : FileContext :=
  { path, relativePath := path.relativeTo root, thresholds, tags }

/-- The context of a file, classified by its path below the root. -/
def classified (path root : Path) (thresholds : Thresholds) (classifiers : ClassifierSet) :
    FileContext :=
  withTags path root thresholds (classifiers.classify (path.relativeTo root))

def tag (c : FileContext) (f : Family) : Tag := c.tags.get f

end FileContext

/-! ### Rules -/

structure Rule where
  name : String
  code : String
  description : String
  family : Family
  check : FileContext → SourceUnit → List Violation

end QualityGate
