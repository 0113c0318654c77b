import QualityGate.Proofs.Rule.Retagging

/-! What a finding says about itself. The kind of a finding tells whether it carries a value
with a limit, and together with the file's tag, the limits and the value it tells how bad the
finding is. All findings of the built-in rules keep to this, wherever they are made. -/
namespace QualityGate

/-- Whether findings of a kind carry a measured value and its limit. -/
def Kind.isMeasured : Kind → Bool
  | .complexity | .length | .parameters | .nesting | .cognitiveComplexity | .fileLength
  | .srpFileLength | .srpClassMethods | .ocpIsinstanceCascade | .ispFatInterface
  | .nestedTryExcept => true
  | _ => false

/-- Whether a kind is reported in core files only. -/
def Kind.isCoreOnly : Kind → Bool
  | .dipDirectInstantiation | .exceptionSwallowed => true
  | _ => false

theorem Kind.isCoreOnly_of_isMeasured {k : Kind} (h : k.isMeasured) : k.isCoreOnly = false := by
  cases k <;> first | rfl | exact absurd h (by decide)

/-- How bad a finding of some kind is, in a file with some tag, under some limits and with
some value. -/
def Kind.severity (k : Kind) (tag : Tag) (limits : Thresholds) (value : Option Nat) : Severity :=
  match k with
  | .complexity => if value.any (limits.maxComplexity < ·) then .error else .warning
  | .length | .nesting | .cognitiveComplexity | .lspNotImplemented | .bareExcept
  | .exceptPass => .error
  | .parameters | .fileLength | .srpFileLength | .srpClassMethods | .ocpIsinstanceCascade
  | .ispFatInterface | .dipDirectInstantiation | .exceptionSwallowed
  | .nestedTryExcept => .warning
  | .fileAccess | .network | .database | .subprocess | .globalState | .nonlocalState
  | .sideEffects | .asynchrony => match tag with
    | .core => .error
    | .shell => .warning

namespace Violation

/-- The value exceeds the limit that it is shown with. A warning about complexity is shown
with the maximum, which it keeps; it exceeds the lower limit for warnings. -/
def Exceeds (v : Violation) (limits : Thresholds) (value threshold : Nat) : Prop :=
  if v.kind = .complexity ∧ v.severity = .warning then
    limits.warningComplexity < value ∧ value ≤ threshold ∧ threshold = limits.maxComplexity
  else threshold < value

/-- A finding about a file says what its kind calls for. -/
structure Regular (v : Violation) (c : FileContext) : Prop where
  measured : v.kind.isMeasured → ∃ value threshold,
    v.value = some value ∧ v.threshold = some threshold ∧ v.Exceeds c.thresholds value threshold
  unmeasured : ¬ v.kind.isMeasured → v.value = none ∧ v.threshold = none
  core : v.kind.isCoreOnly → c.tag v.kind.family = .core
  severity : v.severity = v.kind.severity (c.tag v.kind.family) c.thresholds v.value

/-- A finding of a metric, made when the value is above its limit. -/
theorem Regular.of_mem_exceeded {v w : Violation} {c : FileContext} {limit value : Nat}
    (hv : v ∈ if limit < value then [w] else []) (hvalue : w.value = some value)
    (hthreshold : w.threshold = some limit) (hkind : w.kind.isMeasured)
    (hother : w.kind ≠ .complexity)
    (hseverity : w.severity = w.kind.severity (c.tag w.kind.family) c.thresholds (some value)) :
    v.Regular c := by
  rw [List.mem_ite_nil_right, List.mem_singleton] at hv
  obtain ⟨hexceeds, rfl⟩ := hv
  refine ⟨fun _ => ⟨value, limit, hvalue, hthreshold, ?_⟩, fun h => absurd hkind h, fun h => ?_, ?_⟩
  · rw [Exceeds, if_neg fun h => hother h.1]
    exact hexceeds
  · simp [Kind.isCoreOnly_of_isMeasured hkind] at h
  · rw [hvalue, hseverity]

/-- A finding that only has a message. -/
theorem Regular.of_message {v : Violation} {c : FileContext} (hvalue : v.value = none)
    (hthreshold : v.threshold = none) (hkind : v.kind.isMeasured = false)
    (hcore : v.kind.isCoreOnly → c.tag v.kind.family = .core)
    (hseverity : v.severity = v.kind.severity (c.tag v.kind.family) c.thresholds none) :
    v.Regular c where
  measured h := by simp [hkind] at h
  unmeasured _ := ⟨hvalue, hthreshold⟩
  core := hcore
  severity := by rw [hvalue, hseverity]

end Violation

namespace Rule

open Violation (Regular)

variable {c : FileContext} {v : Violation}

namespace Complexity

theorem regular_of_mem_exceeding {line : Nat} {scope : List String} {name : String} {kind : Kind}
    {severity : Severity} {value limit : Nat}
    (hv : v ∈ exceeding c line scope name kind severity value limit) (hkind : kind.isMeasured)
    (hother : kind ≠ .complexity)
    (hseverity : ∀ tag limits value, kind.severity tag limits value = severity) : v.Regular c :=
  .of_mem_exceeded hv rfl rfl hkind hother (hseverity _ _ _).symm

/-- The one metric with two limits. -/
theorem regular_of_mem_branching {line : Nat} {scope : List String} {name : String} {value : Nat}
    (hv : v ∈ branching c line scope name value) : v.Regular c := by
  simp only [branching, List.mem_ite_nil_right, List.mem_singleton] at hv
  obtain ⟨hwarning, rfl⟩ := hv
  refine ⟨fun _ => ⟨value, c.thresholds.maxComplexity, rfl, rfl, ?_⟩, fun h => absurd rfl h,
    (by rintro ⟨⟩), ?_⟩
  · unfold Violation.Exceeds
    by_cases hmax : c.thresholds.maxComplexity < value
    · simp [hmax]
    · have hle : value ≤ c.thresholds.maxComplexity := by omega
      simpa [hmax] using ⟨hwarning, hle⟩
  · simp [Kind.severity]

theorem regular_of_mem_ofLength {lines : Nat} (hv : v ∈ ofLength c lines) : v.Regular c :=
  .of_mem_exceeded hv rfl rfl rfl (by rintro ⟨⟩) rfl

theorem regular_of_mem_ownReport {scope : List String} {n : Node} (hv : v ∈ ownReport c scope n) :
    v.Regular c := by
  cases n with
  | functionDef span head body =>
    simp only [ownReport, ofFunction, List.mem_append] at hv
    rcases hv with (((hv | hv) | hv) | hv) | hv
    · exact regular_of_mem_branching hv
    all_goals exact regular_of_mem_exceeding hv rfl (by decide) fun _ _ _ => rfl
  | _ => simp [ownReport] at hv

theorem regular_of_mem_check {u : SourceUnit} (hv : v ∈ check c u) : v.Regular c := by
  rcases mem_check hv with hv | ⟨scope, n, -, hv⟩
  · exact regular_of_mem_ofLength hv
  · exact regular_of_mem_ownReport hv

end Complexity

namespace Design

theorem regular_of_mem_ofLength {lines : Nat} (hv : v ∈ ofLength c lines) : v.Regular c :=
  .of_mem_exceeded hv rfl rfl rfl (by rintro ⟨⟩) rfl

theorem regular_of_mem_ofClass {line : Nat} {head : ClassHead} {body : List Node}
    (hv : v ∈ ofClass c line head body) : v.Regular c := by
  rcases mem_ofClass hv with hv | hv
  · exact .of_mem_exceeded hv rfl rfl rfl (by rintro ⟨⟩) rfl
  · exact .of_mem_exceeded hv rfl rfl rfl (by rintro ⟨⟩) rfl

theorem regular_of_mem_ofFunction {around : Enclosing} {line : Nat} {name : String}
    {body : List Node} (hv : v ∈ ofFunction c around line name body) : v.Regular c := by
  rcases mem_ofFunction hv with hv | ⟨n, -, className, rfl⟩ | ⟨htag, n, -, service, rfl⟩
  · exact .of_mem_exceeded hv rfl rfl rfl (by rintro ⟨⟩) rfl
  · exact .of_message rfl rfl rfl (by rintro ⟨⟩) rfl
  · exact .of_message rfl rfl rfl (fun _ => htag) rfl

theorem regular_of_mem_ownReport {around : Enclosing} {n : Node} (hv : v ∈ ownReport c around n) :
    v.Regular c := by
  cases n with
  | functionDef => exact regular_of_mem_ofFunction hv
  | classDef => exact regular_of_mem_ofClass hv
  | _ => simp [ownReport] at hv

theorem regular_of_mem_check {u : SourceUnit} (hv : v ∈ check c u) : v.Regular c := by
  rcases mem_check hv with hv | ⟨around, n, -, hv⟩
  · exact regular_of_mem_ofLength hv
  · exact regular_of_mem_ownReport hv

end Design

namespace Purity

theorem unmeasured_of_mem_ownReport {severity : Severity} {function : Option String} {n : Node}
    (hv : v ∈ ownReport c severity function n) : v.value = none ∧ v.threshold = none := by
  rcases mem_ownReport hv with ⟨name, message, rfl⟩ | ⟨name, kind, message, -, rfl⟩
  · exact ⟨rfl, rfl⟩
  · exact ⟨rfl, rfl⟩

/-- All kinds of the family are judged alike. -/
theorem regular_of_mem_check {u : SourceUnit} (hv : v ∈ check c u) : v.Regular c := by
  have hfamily : v.kind.family = .purity := (signed_of_mem_check hv).family
  have hseverity : v.severity = severityFor (c.tag .purity) := severity_of_mem_check hv
  obtain ⟨function, n, -, hv⟩ := mem_check hv
  obtain ⟨hvalue, hthreshold⟩ := unmeasured_of_mem_ownReport hv
  have hkind : ∀ k : Kind, k.family = .purity → k.isMeasured = false ∧ k.isCoreOnly = false ∧
      ∀ tag limits, k.severity tag limits none = severityFor tag := by
    intro k hk
    cases k <;> first | exact absurd hk (by decide) | exact ⟨rfl, rfl, fun tag _ => by cases tag <;> rfl⟩
  obtain ⟨hmeasured, hcore, hjudged⟩ := hkind v.kind hfamily
  refine .of_message hvalue hthreshold hmeasured (fun h => by simp [hcore] at h) ?_
  rw [hfamily, hjudged, hseverity]

end Purity

namespace ErrorHandling

theorem regular_of_mem_ofHandler {function : Option String} {n : Node}
    (hv : v ∈ ofHandler c function n) : v.Regular c := by
  rcases mem_ofHandler hv with ⟨kind, message, rfl | rfl, rfl⟩ | ⟨htag, message, rfl⟩
  · exact .of_message rfl rfl rfl (by rintro ⟨⟩) rfl
  · exact .of_message rfl rfl rfl (by rintro ⟨⟩) rfl
  · exact .of_message rfl rfl rfl (fun _ => htag) rfl

theorem regular_of_mem_ownReport {position : Nat × Option String} {n : Node}
    (hv : v ∈ ownReport c position n) : v.Regular c := by
  rcases mem_ownReport hv with hv | ⟨h, -, hv⟩
  · exact .of_mem_exceeded hv rfl rfl rfl (by rintro ⟨⟩) rfl
  · exact regular_of_mem_ofHandler hv

theorem regular_of_mem_check {u : SourceUnit} (hv : v ∈ check c u) : v.Regular c := by
  obtain ⟨position, n, -, hv⟩ := mem_check hv
  exact regular_of_mem_ownReport hv

end ErrorHandling

/-- Whatever a built-in rule reports is regular. -/
theorem regular_of_mem_check {r : Rule} (hr : r ∈ all) {u : SourceUnit} (hv : v ∈ r.check c u) :
    v.Regular c := by
  simp only [all, List.mem_cons, List.not_mem_nil, or_false] at hr
  rcases hr with rfl | rfl | rfl | rfl
  · exact Complexity.regular_of_mem_check hv
  · exact Design.regular_of_mem_check hv
  · exact Purity.regular_of_mem_check hv
  · exact ErrorHandling.regular_of_mem_check hv

end Rule

end QualityGate
