import QualityGate.Proofs.Engine.Run
import QualityGate.Proofs.Report.Blocking
import QualityGate.Python.FrontEnd
import QualityGate.Rule.Catalogue

/-! Core-only mode. The engine leaves a rule out by the very tag that it would stamp on the
rule's findings, so in one file, and then in a whole run, the mode drops just the findings
in the shell. -/
namespace QualityGate.Engine

variable {ε : Type} {contents : Path → Except String ByteArray} {files : List Path}

def withMode (e : Engine ε) (coreOnly : Bool) : Engine ε := { e with coreOnly }

theorem applyRule_withMode (e : Engine ε) (c : FileContext) (u : SourceUnit) (r : Rule) :
    (e.withMode true).applyRule c u r =
      ((e.withMode false).applyRule c u r).filter (·.scope ≠ .shell) := by
  have hordinary : (e.withMode false).applyRule c u r =
      (r.check c u).map fun v => { v with scope := c.tag r.family } := rfl
  rw [hordinary, List.filter_map]
  -- all findings of the rule bear one tag
  cases htag : c.tag r.family with
  | core => simp [applyRule, htag, withMode, Function.comp_def]
  | shell => simp [applyRule, htag, withMode, Function.comp_def]

theorem analyzeUnit_withMode (e : Engine ε) (u : SourceUnit) :
    (e.withMode true).analyzeUnit u =
      ((e.withMode false).analyzeUnit u).filter (·.scope ≠ .shell) := by
  unfold analyzeUnit
  rw [List.filter_flatMap]
  refine List.flatMap_congr fun r _ => ?_
  exact applyRule_withMode e _ u r

/-- The findings of a run in core-only mode are those of the ordinary run in the core. -/
theorem findings_withMode (e : Engine ε) (units : List SourceUnit) :
    (units.flatMap (e.withMode true).analyzeUnit).mergeSort (Violation.Precedes · ·) =
      ((units.flatMap (e.withMode false).analyzeUnit).mergeSort (Violation.Precedes · ·)).filter
        (·.scope ≠ .shell) := by
  rw [← mergeSort_filter, List.filter_flatMap]
  congr 1
  refine List.flatMap_congr fun u _ => ?_
  exact analyzeUnit_withMode e u

theorem reportOn_withMode (e : Engine ε) :
    (e.withMode true).reportOn contents files =
      .ofViolations (((e.withMode false).reportOn contents files).violations.filter (·.scope ≠ .shell))
        ((e.withMode false).reportOn contents files).summary.filesAnalyzed
        ((e.withMode false).reportOn contents files).summary.filesSkipped e.strict := by
  have hunits : (e.withMode true).unitsOf contents files = (e.withMode false).unitsOf contents files := rfl
  rw [reportOn, findings_withMode e, hunits]
  rfl

/-! ### Reports on a part of the violations -/

section Filtered

variable {vs : List Violation} {analyzed skipped : Nat} {strict : Bool}

theorem shellWarnings_filter :
    (Report.ofViolations (vs.filter (·.scope ≠ .shell)) analyzed skipped strict).summary.shellWarnings =
      0 := by
  show (vs.filter _).countP _ = 0
  rw [List.countP_filter, List.countP_eq_zero]
  intro v _
  simp

theorem coreViolations_filter :
    (Report.ofViolations (vs.filter (·.scope ≠ .shell)) analyzed skipped strict).summary.coreViolations =
      vs.countP (·.scope = .core) := by
  show (vs.filter _).countP _ = _
  rw [List.countP_filter]
  refine List.countP_congr fun v _ => ?_
  cases v.scope <;> simp

theorem isBlocked_of_filter {p : Violation → Bool}
    (h : (Report.ofViolations (vs.filter p) analyzed skipped strict).isBlocked) :
    (Report.ofViolations vs analyzed skipped strict).isBlocked := by
  refine Report.isBlocked_of_worse (fun v hv => ?_) h
  exact ⟨v, List.mem_of_mem_filter hv, id⟩

end Filtered

/-- Core-only mode is a filter. Where the ordinary run succeeds, the run in core-only mode does
so too, counts the same files, and lists the same violations without those in the shell. Hence
it has no shell warning, as many core violations, and blocks only where the ordinary run does. -/
theorem run_coreOnly (e : Engine ε) {r : Report}
    (h : { e with coreOnly := false }.run contents files = .ok r) :
    ∃ r', { e with coreOnly := true }.run contents files = .ok r' ∧
      r'.summary.filesAnalyzed = r.summary.filesAnalyzed ∧
      r'.summary.filesSkipped = r.summary.filesSkipped ∧
      r'.violations = r.violations.filter (·.scope ≠ .shell) ∧
      r'.summary.shellWarnings = 0 ∧
      r'.summary.coreViolations = r.summary.coreViolations ∧
      (¬ r.isBlocked → ¬ r'.isBlocked) := by
  have hread := readable_of_run_eq_ok h
  have hr : r = (e.withMode false).reportOn contents files := eq_reportOn_of_run_eq_ok h
  have hcore : { e with coreOnly := true }.run contents files =
      .ok ((e.withMode true).reportOn contents files) := run_of_readable hread
  rw [reportOn_withMode, ← hr] at hcore
  refine ⟨_, hcore, rfl, rfl, rfl, shellWarnings_filter, ?_, ?_⟩
  · rw [coreViolations_filter, hr]
    rfl
  · intro hfree hblocked
    apply hfree
    have hall := isBlocked_of_filter hblocked
    rw [hr] at hall ⊢
    exact hall

/-- In a file that is shell for purity alone, only the finding of the purity rule goes. -/
theorem run_coreOnly_cli :
    let e : Engine Python.ParseError := ⟨⟨"."⟩, Rule.all, Python.frontEnd,
      { Thresholds.standard with maxFileLines := 1 },
      { PerFamily.uniform default with purity := { shell := [.component "cli".toList] } }, true, false⟩
    let contents : Path → Except String ByteArray := fun _ => .ok "def f():\n    print(1)\n".toUTF8
    ∃ r r', { e with coreOnly := false }.run contents [⟨"cli/a.py"⟩] = .ok r ∧
      r.violations.map (·.kind) = [.fileLength, .srpFileLength, .sideEffects] ∧
      { e with coreOnly := true }.run contents [⟨"cli/a.py"⟩] = .ok r' ∧
      r'.violations.map (·.kind) = [.fileLength, .srpFileLength] := by
  intro e contents
  have hrun : { e with coreOnly := false }.run contents [⟨"cli/a.py"⟩] =
      .ok ((e.withMode false).reportOn contents [⟨"cli/a.py"⟩]) :=
    run_of_readable fun p _ => ⟨_, rfl⟩
  have hordered : (((e.withMode false).unitsOf contents [⟨"cli/a.py"⟩]).flatMap
      (e.withMode false).analyzeUnit).Pairwise Violation.Precedes := by decide +kernel
  obtain ⟨r', hcore, -, -, hviolations, -⟩ := run_coreOnly e hrun
  rw [violations_reportOn_of_pairwise hordered] at hviolations
  refine ⟨_, r', hrun, ?_, hcore, ?_⟩
  · rw [violations_reportOn_of_pairwise hordered]
    decide +kernel
  · rw [hviolations]
    decide +kernel

end QualityGate.Engine
