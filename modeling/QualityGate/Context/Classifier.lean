import QualityGate.Context.PathPattern
import QualityGate.Family

/-! Classification of files as core or shell. Every family has its own pattern
lists, so one file may be shell for one family and core for another. Shell patterns
are asked first, then core patterns, and a file that none matches is core. -/
namespace QualityGate

/-- Pattern lists of one family. -/
structure Classifier where
  shell : List PathPattern := []
  core : List PathPattern := []
deriving DecidableEq, Repr, Inhabited

namespace Classifier

/-- Reads pattern lists; the first bad pattern is the error. -/
def parse (shell core : List String) : Except Glob.Error Classifier := do
  let shell ← shell.mapM PathPattern.parse
  let core ← core.mapM PathPattern.parse
  return { shell, core }

/-- The role of a file under one family's patterns. -/
def classify (c : Classifier) (p : Path) : Tag :=
  if c.shell.any (·.isMatch p) then .shell
  else if c.core.any (·.isMatch p) then .core
  else .core

end Classifier

/-! ### Built-in tables -/

/-- Shell directories of the design and the error-handling family. -/
def layerShell : List String := ["handlers", "adapters", "api", "cli", "scripts", "tests"]

def designCore : List String := ["domain", "logic", "services", "utils", "core"]

def purityShell : List String :=
  ["*/handlers/*", "*/views/*", "*/routes/*", "*/api/*", "*/cli/*", "*/adapters/*",
   "*/controllers/*", "*/endpoints/*", "*/scripts/*", "*/tests/*", "*/examples/*",
   "*/benchmarks/*", "*/archive/*", "*_handler.py", "*_view.py", "*_controller.py",
   "*_adapter.py", "*_endpoint.py", "*_api.py", "*_cli.py", "*__main__.py",
   "conftest.py", "setup.py"]

def purityCore : List String :=
  ["*/domain/*", "*/models/*", "*/services/*", "*/logic/*", "*/core/*", "*/business/*",
   "*/utils/*", "*/helpers/*", "*_service.py", "*_logic.py", "*_utils.py",
   "*_helpers.py", "*_domain.py"]

structure PerFamily (α : Type) where
  complexity : α
  design : α
  purity : α
  errorHandling : α
deriving DecidableEq, Repr

namespace PerFamily

variable {α β : Type}

def uniform (a : α) : PerFamily α := ⟨a, a, a, a⟩

def get (t : PerFamily α) : Family → α
  | .complexity => t.complexity
  | .design => t.design
  | .purity => t.purity
  | .errorHandling => t.errorHandling

def set (t : PerFamily α) (f : Family) (a : α) : PerFamily α :=
  match f with
  | .complexity => { t with complexity := a }
  | .design => { t with design := a }
  | .purity => { t with purity := a }
  | .errorHandling => { t with errorHandling := a }

def map (g : α → β) (t : PerFamily α) : PerFamily β :=
  ⟨g t.complexity, g t.design, g t.purity, g t.errorHandling⟩

@[simp] theorem get_uniform (a : α) (f : Family) : (uniform a).get f = a := by cases f <;> rfl

@[simp] theorem get_map (g : α → β) (t : PerFamily α) (f : Family) :
    (t.map g).get f = g (t.get f) := by cases f <;> rfl

theorem get_set (t : PerFamily α) (f h : Family) (a : α) :
    (t.set f a).get h = if h = f then a else t.get h := by
  cases f <;> cases h <;> rfl

end PerFamily

/-- One classifier for every family. -/
abbrev ClassifierSet := PerFamily Classifier

/-- The tag of one file for every family. -/
abbrev Tags := PerFamily Tag

namespace ClassifierSet

/-- The built-in tables; their patterns are well formed, so reading them succeeds. -/
def builtin : Except Glob.Error ClassifierSet := do
  let design ← Classifier.parse layerShell designCore
  let purity ← Classifier.parse purityShell purityCore
  let errorHandling ← Classifier.parse layerShell []
  return { complexity := {}, design, purity, errorHandling }

/-- Replaces a family's shell list, its core list, or both; the shell list is read first. -/
def override (t : ClassifierSet) (f : Family) (shell core : Option (List String)) :
    Except Glob.Error ClassifierSet := do
  let old := t.get f
  let shell ← match shell with
    | some raw => raw.mapM PathPattern.parse
    | none => pure old.shell
  let core ← match core with
    | some raw => raw.mapM PathPattern.parse
    | none => pure old.core
  return t.set f { shell, core }

def classify (t : ClassifierSet) (p : Path) : Tags := t.map (·.classify p)

end ClassifierSet

end QualityGate
