import QualityGate.Engine
import QualityGate.Proofs.Rule.Measure

/-! What the findings of an engine attest. The engine stamps a finding with the tag by which
the rule judged it, so kind, tag, limits and value fix the severity of every finding in every
tree, and two findings that agree in these are equally bad. -/
namespace QualityGate

/-- What a finding of an engine about a file can be relied on to say. -/
structure Violation.AttestedBy {ε : Type} (v : Violation) (e : Engine ε) (u : SourceUnit) :
    Prop where
  file : v.file = u.path
  rule : ∃ r ∈ e.rules, v.rule = r.name ∧ r.family = v.kind.family
  scope : v.scope = (e.classifiers.classify (u.path.relativeTo e.root)).get v.kind.family
  core : v.kind.isCoreOnly → v.scope = .core
  measured : v.kind.isMeasured → ∃ value threshold,
    v.value = some value ∧ v.threshold = some threshold ∧ v.Exceeds e.thresholds value threshold
  unmeasured : ¬ v.kind.isMeasured → v.value = none ∧ v.threshold = none
  severity : v.severity = v.kind.severity v.scope e.thresholds v.value

namespace Engine

variable {ε ε' : Type} {e : Engine ε} {e' : Engine ε'} {u : SourceUnit}

/-- What the engine lists is a finding of one of its rules with the tag of the rule's family. -/
theorem exists_rule_of_mem_analyzeUnit {v : Violation} (hv : v ∈ e.analyzeUnit u) :
    ∃ r ∈ e.rules, ∃ w ∈ r.check (e.context u.path) u,
      v = { w with scope := (e.context u.path).tag r.family } := by
  obtain ⟨r, hr, hv⟩ := List.mem_flatMap.mp hv
  simp only [applyRule] at hv
  split at hv
  · simp at hv
  · obtain ⟨w, hw, rfl⟩ := List.mem_map.mp hv
    exact ⟨r, hr, w, hw, rfl⟩

theorem attested_of_mem_analyzeUnit (hrules : ∀ r ∈ e.rules, r ∈ Rule.all) {v : Violation}
    (hv : v ∈ e.analyzeUnit u) : v.AttestedBy e u := by
  obtain ⟨r, hr, w, hw, rfl⟩ := exists_rule_of_mem_analyzeUnit hv
  have hsigned := Rule.signed_of_mem_check (hrules r hr) hw
  have hregular := Rule.regular_of_mem_check (hrules r hr) hw
  have htag : (e.context u.path).tag r.family = (e.context u.path).tag w.kind.family := by
    rw [hsigned.family]
  exact {
    file := hsigned.file
    rule := ⟨r, hr, hsigned.rule, hsigned.family.symm⟩
    scope := htag
    core := fun h => htag.trans (hregular.core h)
    measured := hregular.measured
    unmeasured := hregular.unmeasured
    severity := by
      show w.severity = w.kind.severity ((e.context u.path).tag r.family) e.thresholds w.value
      rw [htag]
      exact hregular.severity }

/-- Every finding of the built-in rules names its file and its rule, bears the tag that the
file has for the kind's family, and carries a value above its limit just if its kind is
measured. Under the same limits, findings of one kind with the same tag and value are equally
bad, in whatever trees two engines make them. -/
theorem analyzeUnit_attests (hrules : ∀ r ∈ e.rules, r ∈ Rule.all)
    (hrules' : ∀ r ∈ e'.rules, r ∈ Rule.all) (hlimits : e'.thresholds = e.thresholds)
    (u u' : SourceUnit) :
    (∀ v ∈ e.analyzeUnit u, v.AttestedBy e u) ∧
      ∀ v ∈ e.analyzeUnit u, ∀ w ∈ e'.analyzeUnit u',
        w.kind = v.kind → w.scope = v.scope → w.value = v.value → w.severity = v.severity := by
  refine ⟨fun v hv => attested_of_mem_analyzeUnit hrules hv, ?_⟩
  intro v hv w hw hkind hscope hvalue
  rw [(attested_of_mem_analyzeUnit hrules hv).severity,
    (attested_of_mem_analyzeUnit hrules' hw).severity, hkind, hscope, hvalue, hlimits]

/-- A branching function in the shell, just above the limit for warnings: a warning that is
shown with the maximum, and another one for the output that the core would not forgive. -/
theorem analyzeUnit_attests_branching :
    let e : Engine Unit := ⟨⟨"."⟩, Rule.all, ⟨"", [], fun _ _ => .error ()⟩, .standard,
      { PerFamily.uniform default with purity := { shell := [.component "cli".toList] } }, false, false⟩
    let u : SourceUnit := ⟨⟨"./cli/a.py"⟩, 3, [.functionDef ⟨1, 3⟩ ⟨"f", [], false⟩
      [.boolOp ⟨2, 2⟩ .conjunction (List.replicate 8 (.name ⟨2, 2⟩ "x")),
       .call ⟨3, 3⟩ "print" (.name ⟨3, 3⟩ "print") []]]⟩
    (∀ r ∈ e.rules, r ∈ Rule.all) ∧
      (∃ v ∈ e.analyzeUnit u, v.kind = .complexity ∧ v.value = some 8 ∧ v.threshold = some 10 ∧
        v.severity = .warning) ∧
      ∃ v ∈ e.analyzeUnit u, v.kind = .sideEffects ∧ v.scope = .shell ∧ v.severity = .warning := by
  intro e u
  have hrules : ∀ r ∈ e.rules, r ∈ Rule.all := fun r hr => hr
  obtain ⟨hattested, -⟩ := analyzeUnit_attests hrules hrules rfl u u
  have hkinds : (e.analyzeUnit u).map (fun v => (v.kind, v.value)) =
      [(.complexity, some 8), (.sideEffects, none)] := by decide +kernel
  refine ⟨hrules, ?_, ?_⟩
  · obtain ⟨v, hv, heq⟩ : ∃ v ∈ e.analyzeUnit u, (v.kind, v.value) = (Kind.complexity, some 8) :=
      List.mem_map.mp (hkinds ▸ by simp)
    obtain ⟨hkind, hvalue⟩ := Prod.mk.inj heq
    have hwarning : v.severity = .warning := by
      rw [(hattested v hv).severity, hkind, hvalue]
      rfl
    obtain ⟨value, threshold, -, hthreshold, hexceeds⟩ :=
      (hattested v hv).measured (by rw [hkind]; rfl)
    rw [Violation.Exceeds, if_pos ⟨hkind, hwarning⟩] at hexceeds
    exact ⟨v, hv, hkind, hvalue, by rw [hthreshold, hexceeds.2.2]; rfl, hwarning⟩
  · obtain ⟨v, hv, heq⟩ : ∃ v ∈ e.analyzeUnit u, (v.kind, v.value) = (Kind.sideEffects, none) :=
      List.mem_map.mp (hkinds ▸ by simp)
    obtain ⟨hkind, hvalue⟩ := Prod.mk.inj heq
    have hscope : v.scope = .shell := by
      rw [(hattested v hv).scope, hkind]
      decide +kernel
    refine ⟨v, hv, hkind, hscope, ?_⟩
    rw [(hattested v hv).severity, hkind, hscope]
    rfl

end Engine

end QualityGate
