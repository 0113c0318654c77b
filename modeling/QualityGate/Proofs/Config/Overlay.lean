import QualityGate.Config.Reader
import QualityGate.Proofs.Sequence.Traversal

/-! A configuration lies over the standard one. Every setting of the limits and of the analyser has
the value that the document writes for it, or else the value that it has when nothing is
configured, with one exception: a document with a section for the analyser that does not say what
is left out leaves out nothing, whereas without the section the standard patterns are left out. -/
namespace QualityGate

open Toml (Value Table)

/-- What a section writes for a key, given the place of the key among the section's keys: an array
writes values in their order, and a date or a value without parts writes nothing. -/
def Toml.Value.entry? (v : Value) (key : String) (place : Nat) : Option Value :=
  match v with
  | .table entries => entries.lookup key
  | .array items => items[place]?
  | _ => none

inductive Setting where
  | limit (l : Limit)
  | exclude
  | strict
  | parallel
  | coreOnly
deriving DecidableEq, Repr

namespace Setting

def home : Setting → String
  | limit _ => "thresholds"
  | exclude | strict | parallel | coreOnly => "analyzer"

def key : Setting → String
  | limit l => l.name
  | exclude => "exclude"
  | strict => "strict"
  | parallel => "parallel"
  | coreOnly => "core_only"

def place : Setting → Nat
  | limit l => Limit.all.idxOf l
  | exclude => 0
  | strict => 1
  | parallel => 2
  | coreOnly => 3

def writtenIn (t : Table) (s : Setting) : Option Value :=
  (t.lookup s.home).bind fun v => v.entry? s.key s.place

/-- The value of a setting in a configuration, as it is written; a limit may have none. -/
def valueIn (c : Config) : Setting → Option Value
  | limit l => (c.thresholds.get l).map .integer
  | exclude => some (.array (c.analyzer.exclude.map .string))
  | strict => some (.boolean c.analyzer.strict)
  | parallel => some (.boolean c.analyzer.parallel)
  | coreOnly => some (.boolean c.analyzer.coreOnly)

end Setting

namespace Config

/-! ### Readings of values -/

theorem eq_of_integer {v : Value} {n : Int} (h : integer v = some n) : v = .integer n := by
  unfold integer at h
  split at h
  · rw [Option.some.inj h]
  · cases h

theorem eq_of_boolean {v : Value} {b : Bool} (h : boolean v = some b) : v = .boolean b := by
  unfold boolean at h
  split at h
  · rw [Option.some.inj h]
  · cases h

theorem eq_of_strings {v : Value} {ss : List String} (h : strings v = some ss) :
    v = .array (ss.map .string) := by
  unfold strings at h
  split at h
  · rw [← eq_map_of_mapM (fun v s hv => ?_) h]
    split at hv
    · rw [Option.some.inj hv]
    · cases hv
  · cases h

section Readings

variable {α : Type} {read : Value → Option α} {write : α → Value}

/-- A value that may be missing is read as it is written. -/
theorem map_of_readOptional (hread : ∀ v a, read v = some a → v = write a) {written : Option Value}
    {a : Option α} (h : readOptional read written = some a) : a.map write = written := by
  cases written with
  | none =>
    obtain rfl := Option.some.inj h
    rfl
  | some v =>
    obtain ⟨b, hb, rfl⟩ := Option.map_eq_some_iff.mp h
    rw [hread v b hb]
    rfl

/-- A value with a default is read as it is written, or else is the default. -/
theorem eq_or_of_readOr (hread : ∀ v a, read v = some a → v = write a) {default : α}
    {written : Option Value} {a : α} (h : readOr default read written = some a) :
    some (write a) = written.or (some (write default)) := by
  cases written with
  | none =>
    obtain rfl := Option.some.inj h
    rfl
  | some v =>
    rw [hread v a h]
    rfl

end Readings

/-! ### Sections -/

theorem fields_limits {v : Value} {values : List (Option Value)}
    (h : fields (Limit.all.map Limit.name) v = some values) :
    values = Limit.all.map fun l => v.entry? l.name (Limit.all.idxOf l) := by
  cases v with
  | table _ | array _ | datetime _ =>
    obtain rfl := Option.some.inj h
    rfl
  | _ => cases h

theorem fields_analyzer {v : Value} {values : List (Option Value)}
    (h : fields ["exclude", "strict", "parallel", "core_only"] v = some values) :
    values = [Setting.exclude, .strict, .parallel, .coreOnly].map fun s =>
      v.entry? s.key s.place := by
  cases v with
  | table _ | array _ | datetime _ =>
    obtain rfl := Option.some.inj h
    rfl
  | _ => cases h

/-- A section of limits holds the limits that it writes. -/
theorem value_of_limits {v : Value} {o : Overrides} (h : limits v = some o) (l : Limit) :
    (o.get l).map .integer = v.entry? l.name (Limit.all.idxOf l) := by
  unfold limits at h
  obtain ⟨values, hvalues, h⟩ := Option.bind_eq_some_iff.mp h
  obtain ⟨read, hread, h⟩ := Option.bind_eq_some_iff.mp h
  obtain rfl := Option.some.inj h
  rw [fields_limits hvalues, List.mapM_map] at hread
  obtain ⟨hplace, hsome⟩ := getElem?_idxOf_of_mapM hread (Limit.mem_all l)
  obtain ⟨a, ha⟩ := Option.isSome_iff_exists.mp hsome
  rw [PerLimit.get_ofFn, hplace, ha]
  exact map_of_readOptional (fun _ _ => eq_of_integer) ha

/-- The standard settings, with nothing left out. -/
def unfiltered : Config := { Config.standard with analyzer.exclude := [] }

/-- A section for the analyser holds the settings that it writes. For the others it has those
that are standard, except that nothing is left out. -/
theorem value_of_analyzerSettings {v : Value} {c : Config}
    (h : analyzerSettings v = some c.analyzer) {s : Setting} (hs : s.home = "analyzer") :
    s.valueIn c = (v.entry? s.key s.place).or (s.valueIn unfiltered) := by
  unfold analyzerSettings at h
  obtain ⟨values, hvalues, h⟩ := Option.bind_eq_some_iff.mp h
  rw [fields_analyzer hvalues] at h
  obtain ⟨exclude, hexclude, h⟩ := Option.bind_eq_some_iff.mp h
  obtain ⟨strict, hstrict, h⟩ := Option.bind_eq_some_iff.mp h
  obtain ⟨parallel, hparallel, h⟩ := Option.bind_eq_some_iff.mp h
  obtain ⟨coreOnly, hcoreOnly, h⟩ := Option.bind_eq_some_iff.mp h
  have hanalyzer := Option.some.inj h
  cases s with
  | limit l => exact absurd hs (by simp [Setting.home])
  | exclude =>
    rw [Setting.valueIn, ← hanalyzer]
    exact eq_or_of_readOr (fun _ _ => eq_of_strings) hexclude
  | strict =>
    rw [Setting.valueIn, ← hanalyzer]
    exact eq_or_of_readOr (fun _ _ => eq_of_boolean) hstrict
  | parallel =>
    rw [Setting.valueIn, ← hanalyzer]
    exact eq_or_of_readOr (fun _ _ => eq_of_boolean) hparallel
  | coreOnly =>
    rw [Setting.valueIn, ← hanalyzer]
    exact eq_or_of_readOr (fun _ _ => eq_of_boolean) hcoreOnly

/-! ### Documents -/

/-- A configuration is read section by section. -/
theorem sections_of_ofTable {t : Table} {c : Config} (h : ofTable t = some c) :
    readOr .empty limits (t.lookup "thresholds") = some c.thresholds ∧
      readOr .standard analyzerSettings (t.lookup "analyzer") = some c.analyzer := by
  obtain ⟨thresholds, hthresholds, h⟩ := Option.bind_eq_some_iff.mp h
  obtain ⟨analyzer, hanalyzer, h⟩ := Option.bind_eq_some_iff.mp h
  obtain ⟨rules, -, h⟩ := Option.bind_eq_some_iff.mp h
  obtain ⟨classifier, -, h⟩ := Option.bind_eq_some_iff.mp h
  obtain rfl := Option.some.inj h
  exact ⟨hthresholds, hanalyzer⟩

/-- The limits of a configuration that is read from a document are those that it writes. -/
theorem valueIn_ofTable_limit {t : Table} {c : Config} (h : ofTable t = some c) (l : Limit) :
    (Setting.limit l).valueIn c = (Setting.limit l).writtenIn t := by
  have hlimits := (sections_of_ofTable h).1
  rw [Setting.writtenIn, Setting.home]
  cases hsection : t.lookup "thresholds" with
  | none =>
    rw [hsection] at hlimits
    rw [Setting.valueIn, ← Option.some.inj hlimits]
    cases l <;> rfl
  | some v =>
    rw [hsection] at hlimits
    exact value_of_limits hlimits l

/-- The settings of the analyser, too, are those that the document writes; for the others it
matters whether there is a section at all. -/
theorem valueIn_ofTable_analyzer {t : Table} {c : Config} (h : ofTable t = some c) {s : Setting}
    (hs : s.home = "analyzer") :
    s.valueIn c = (s.writtenIn t).or
      (s.valueIn (if (t.lookup "analyzer").isSome then unfiltered else .standard)) := by
  have hanalyzer := (sections_of_ofTable h).2
  rw [Setting.writtenIn, hs]
  cases hsection : t.lookup "analyzer" with
  | none =>
    rw [hsection] at hanalyzer
    cases s with
    | limit l => exact absurd hs (by simp [Setting.home])
    | _ =>
      rw [Setting.valueIn, ← Option.some.inj hanalyzer]
      rfl
  | some v =>
    rw [hsection] at hanalyzer
    exact value_of_analyzerSettings hanalyzer hs

/-- A configuration that is read from a text lies over the standard one: each setting has the value
that the document writes, or else the standard one. This holds of what is left out too, where the
document writes it or has no section for the analyser. -/
theorem parse_overlays {text : String} {c : Config} (h : parse text = .ok c) :
    ∃ t, Toml.parse text = some t ∧ ∀ s : Setting,
      (s = .exclude → (t.lookup "analyzer").isSome → (s.writtenIn t).isSome) →
        s.valueIn c = (s.writtenIn t).or (s.valueIn .standard) := by
  unfold parse at h
  split at h
  · next c' hread =>
    obtain rfl := Except.ok.inj h
    obtain ⟨t, ht, hc⟩ := Option.bind_eq_some_iff.mp hread
    refine ⟨t, ht, fun s hs => ?_⟩
    cases s with
    | limit l =>
      rw [valueIn_ofTable_limit hc]
      cases l <;> exact (Option.or_none ..).symm
    | exclude =>
      rw [valueIn_ofTable_analyzer hc rfl]
      split
      · next hsection =>
        obtain ⟨v, hv⟩ := Option.isSome_iff_exists.mp (hs rfl hsection)
        rw [hv]
        rfl
      · rfl
    | strict | parallel | coreOnly =>
      rw [valueIn_ofTable_analyzer hc rfl]
      split <;> rfl
  · cases h

/-- A document with one limit and one setting of the analyser. -/
theorem parse_overlays_partial :
    let text := "[thresholds]\nmax_complexity = 12\n[analyzer]\nexclude = [\"gen\"]\n"
    ∃ c t, parse text = .ok c ∧ Toml.parse text = some t ∧
      (Setting.exclude.writtenIn t).isSome ∧ (Setting.strict.writtenIn t).isNone ∧
      (∀ s : Setting, s.valueIn c = (s.writtenIn t).or (s.valueIn .standard)) ∧
      c.thresholds.maxComplexity = some 12 ∧ c.thresholds.maxParameters = none ∧
      c.analyzer = ⟨["gen"], false, true, false⟩ := by
  intro text
  have hparse : parse text = .ok { Config.standard with
      thresholds := { Overrides.empty with maxComplexity := some 12 }
      analyzer := ⟨["gen"], false, true, false⟩ } := eq_ok_of_toOption (by decide +kernel)
  have hwritten : (Toml.parse text).all fun t =>
      (Setting.exclude.writtenIn t).isSome && (Setting.strict.writtenIn t).isNone := by
    decide +kernel
  obtain ⟨t, ht, hvalue⟩ := parse_overlays hparse
  rw [ht, Option.all_some, Bool.and_eq_true] at hwritten
  exact ⟨_, t, hparse, ht, hwritten.1, hwritten.2, fun s => hvalue s fun hs _ => hs ▸ hwritten.1,
    rfl, rfl, rfl⟩

/-- A section for the analyser that does not say what is left out leaves out nothing, not what is
left out when nothing is configured. -/
theorem exclude_lost_beside_strict :
    let text := "[analyzer]\nstrict = true\n"
    ∃ c t, parse text = .ok c ∧ Toml.parse text = some t ∧ Setting.exclude.writtenIn t = none ∧
      Setting.exclude.valueIn c ≠ Setting.exclude.valueIn .standard := by
  intro text
  have hparse : parse text = .ok { Config.standard with analyzer := ⟨[], true, true, false⟩ } :=
    eq_ok_of_toOption (by decide +kernel)
  have hwritten : (Toml.parse text).any fun t => (Setting.exclude.writtenIn t).isNone := by
    decide +kernel
  obtain ⟨t, ht, hnone⟩ := (Option.any_eq_true ..).mp hwritten
  refine ⟨_, t, hparse, ht, Option.isNone_iff_eq_none.mp hnone, ?_⟩
  simp [Setting.valueIn, Config.standard, AnalyzerSettings.standard]

end Config

end QualityGate
