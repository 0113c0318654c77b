import QualityGate.Config.Basic
import QualityGate.Path
import QualityGate.Toml.Document

/-! Configurations written in TOML. A section is a table with known keys; keys that
are not known are passed over. A section with a fixed list of keys may also be an array
of their values in order, and a date stands for a table without known keys. A value of
the wrong type makes the whole document malformed. -/
namespace QualityGate.Config

open Toml (Value Table)

/-- The values of a section's keys, given the keys in order. -/
def fields (keys : List String) : Value → Option (List (Option Value))
  | .table entries => some (keys.map fun k => entries.lookup k)
  | .array items => some ((List.range keys.length).map fun i => items[i]?)
  | .datetime _ => some (keys.map fun _ => none)
  | _ => none

/-- The entries of a section whose keys are free. -/
def freeEntries : Value → Option Table
  | .table entries => some entries
  | .datetime text => some [("", .string text)]
  | _ => none

def readOptional {α : Type} (read : Value → Option α) : Option Value → Option (Option α)
  | none => some none
  | some v => (read v).map some

/-- Reads a value that has a default. -/
def readOr {α : Type} (default : α) (read : Value → Option α) : Option Value → Option α
  | none => some default
  | some v => read v

def integer : Value → Option Int
  | .integer n => some n
  | _ => none

def boolean : Value → Option Bool
  | .boolean b => some b
  | _ => none

def strings : Value → Option (List String)
  | .array items => items.mapM fun v =>
    match v with
    | .string s => some s
    | _ => none
  | _ => none

def limits (v : Value) : Option Overrides := do
  let values ← fields (Limit.all.map Limit.name) v
  let read ← values.mapM (readOptional integer)
  return .ofFn fun l => (read[Limit.all.idxOf l]?).bind id

/-- Reads the switches of the analyser. Once the section is there, no pattern is left out
but those it names. -/
def analyzerSettings (v : Value) : Option AnalyzerSettings := do
  match ← fields ["exclude", "strict", "parallel", "core_only"] v with
  | [exclude, strict, parallel, coreOnly] =>
    return { exclude := ← readOr [] strings exclude
             strict := ← readOr false boolean strict
             parallel := ← readOr true boolean parallel
             coreOnly := ← readOr false boolean coreOnly }
  | _ => none

def ruleSwitch (v : Value) : Option (Option Bool) := do
  match ← fields ["enabled"] v with
  | [enabled] => readOptional boolean enabled
  | _ => none

def patternLists (v : Value) : Option PatternLists := do
  match ← fields ["shell", "core"] v with
  | [shell, core] =>
    return { shell := ← readOptional strings shell, core := ← readOptional strings core }
  | _ => none

/-- Reads a section whose keys are free, in the order of the keys. -/
def namedSections {α : Type} (read : Value → Option α) (v : Value) : Option (List (String × α)) := do
  let entries ← freeEntries v
  let values ← entries.mapM fun (k, v) => (read v).map (k, ·)
  return values.mergeSort fun a b => Path.compareChars a.1.toList b.1.toList != .gt

def ofTable (t : Table) : Option Config := do
  return { thresholds := ← readOr .empty limits (t.lookup "thresholds")
           analyzer := ← readOr .standard analyzerSettings (t.lookup "analyzer")
           rules := ← readOr [] (namedSections ruleSwitch) (t.lookup "rules")
           classifier := ← readOr [] (namedSections patternLists) (t.lookup "classifier") }

def parse (text : String) : Except ConfigError Config :=
  match (Toml.parse text).bind ofTable with
  | some c => .ok c
  | none => .error .malformed

end QualityGate.Config
