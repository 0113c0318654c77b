import QualityGate.Command.Check

/-! How a check is prepared. The limits, the classifiers and the patterns of the configuration are
resolved first, then the limits under the options and the patterns of both. Nothing else can fail:
the engine takes its classifiers from the configuration, where they have just been resolved. -/
namespace QualityGate.Command

/-- The parts of a check that may be given wrongly. -/
structure Parts where
  thresholds : Thresholds
  classifiers : ClassifierSet
  exclusion : Exclusion

/-- Resolves what may be given wrongly. The limits of the configuration must be valid by
themselves. -/
def resolveParts (c : Config) (o : CheckOptions) : Except CommandError Parts := do
  let _ ← c.resolveThresholds.mapError .config
  let classifiers ← c.resolveClassifiers.mapError .config
  let _ ← c.resolveExclude.mapError .config
  let thresholds ← ((c.thresholds.mergedWith o.thresholds).apply .standard).mapError
    fun e => .config (.negativeLimit e)
  let exclusion ← (Exclusion.compile (c.analyzer.exclude ++ o.exclude)).mapError .exclude
  return { thresholds, classifiers, exclusion }

def Prepared.ofParts (c : Config) (o : CheckOptions) (p : Parts) : Prepared where
  engine :=
    { root := ⟨o.root⟩
      rules := o.selectedRules.filter fun r => c.isRuleEnabled r.name
      frontEnd := Python.frontEnd
      thresholds := p.thresholds
      classifiers := p.classifiers
      strict := o.strict || c.analyzer.strict
      coreOnly := o.coreOnly || c.analyzer.coreOnly }
  exclusion := p.exclusion

/-- Resolving the parts is all that can fail. -/
theorem prepare_eq (c : Config) (o : CheckOptions) :
    prepare c o = (resolveParts c o).map (.ofParts c o) := by
  unfold prepare resolveParts Config.validate Engine.build
  cases c.resolveThresholds with
  | error err => rfl
  | ok =>
    cases hclassifiers : c.resolveClassifiers with
    | error err => rfl
    | ok classifiers =>
      cases c.resolveExclude with
      | error err => rfl
      | ok =>
        cases (c.thresholds.mergedWith o.thresholds).apply .standard with
        | error err => rfl
        | ok thresholds =>
          cases Exclusion.compile (c.analyzer.exclude ++ o.exclude) with
          | error err => rfl
          | ok exclusion =>
            -- the engine resolves the classifiers once more
            simp only [hclassifiers]
            rfl

end QualityGate.Command
