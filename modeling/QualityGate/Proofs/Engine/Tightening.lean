import QualityGate.Proofs.Engine.Run
import QualityGate.Proofs.Report.Blocking
import QualityGate.Proofs.Rule.Tightening
import QualityGate.Python.FrontEnd

/-! Lower limits in a run. The engine stamps findings and sorts them by what does not depend
on the limits, so what a rule reported under higher limits stands, in the same order, among
what the run reports under lower ones. -/
namespace QualityGate

namespace Violation

theorem TightensTo.withScope {v w : Violation} (h : v.TightensTo w) (t : Tag) :
    TightensTo { v with scope := t } { w with scope := t } :=
  { h with scope := rfl }

/-- Counterparts stand at the same places. -/
theorem precedes_iff_of_tightens {v v' w w' : Violation} (h : v.TightensTo w)
    (h' : v'.TightensTo w') : v.Precedes v' ↔ w.Precedes w' := by
  unfold Precedes
  rw [h.file, h.line, h'.file, h'.line]

end Violation

namespace Engine

variable {ε : Type} {e : Engine ε} {stricter : Thresholds}
  {contents : Path → Except String ByteArray} {files : List Path}

theorem context_of_limits (e : Engine ε) (stricter : Thresholds) (p : Path) :
    { e with thresholds := stricter }.context p = { e.context p with thresholds := stricter } := by
  simp only [context, FileContext.classified, FileContext.withTags]

theorem applyRule_tightens {r : Rule} (hr : r ∈ Rule.all) {c : FileContext}
    (hle : ∀ l, stricter.get l ≤ c.thresholds.get l) (u : SourceUnit) :
    List.SublistForall₂ Violation.TightensTo (e.applyRule c u r)
      ({ e with thresholds := stricter }.applyRule { c with thresholds := stricter } u r) := by
  show List.SublistForall₂ _ (if e.coreOnly && c.tag r.family = .shell then [] else _)
    (if e.coreOnly && c.tag r.family = .shell then [] else _)
  split_ifs
  · exact .nil
  · exact embeds_map (fun v w h => h.withScope _) (Rule.check_tightens hr hle u)

theorem analyzeUnit_tightens (hrules : ∀ r ∈ e.rules, r ∈ Rule.all)
    (hle : ∀ l, stricter.get l ≤ e.thresholds.get l) (u : SourceUnit) :
    List.SublistForall₂ Violation.TightensTo (e.analyzeUnit u)
      ({ e with thresholds := stricter }.analyzeUnit u) := by
  have hcontext : ∀ l, stricter.get l ≤ (e.context u.path).thresholds.get l := hle
  unfold analyzeUnit
  rw [context_of_limits e stricter]
  exact embeds_flatMap fun r hr => applyRule_tightens (hrules r hr) hcontext u

theorem findings_tighten (hrules : ∀ r ∈ e.rules, r ∈ Rule.all)
    (hle : ∀ l, stricter.get l ≤ e.thresholds.get l)
    (contents : Path → Except String ByteArray) (files : List Path) :
    List.SublistForall₂ Violation.TightensTo (e.reportOn contents files).violations
      ({ e with thresholds := stricter }.reportOn contents files).violations := by
  refine embeds_mergeSort Violation.Precedes
    (fun _ _ _ _ h h' => Violation.precedes_iff_of_tightens h h') ?_
  exact embeds_flatMap fun u _ => analyzeUnit_tightens hrules hle u

theorem isBlocked_of_tightens
    (h : List.SublistForall₂ Violation.TightensTo (e.reportOn contents files).violations
      ({ e with thresholds := stricter }.reportOn contents files).violations)
    (hblocked : (e.reportOn contents files).isBlocked) :
    ({ e with thresholds := stricter }.reportOn contents files).isBlocked := by
  refine Report.isBlocked_of_worse (fun v hv => ?_) hblocked
  obtain ⟨w, hw, hvw⟩ := exists_of_embeds h hv
  exact ⟨w, hw, hvw.severity⟩

/-- Limits are monotone. Two engines that differ in their limits, and of which the second has
no higher one, both succeed on readable files. The violations of the first then stand among
those of the second, in the same order, each at its place with its kind and value, and the
second blocks if the first does. -/
theorem run_tightens (hrules : ∀ r ∈ e.rules, r ∈ Rule.all)
    (hle : ∀ l, stricter.get l ≤ e.thresholds.get l) (hread : ∀ p ∈ files, Readable contents p) :
    ∃ r r', e.run contents files = .ok r ∧
      { e with thresholds := stricter }.run contents files = .ok r' ∧
      List.SublistForall₂ Violation.TightensTo r.violations r'.violations ∧
      (r.isBlocked → r'.isBlocked) := by
  have hviolations := findings_tighten hrules hle contents files
  exact ⟨_, _, run_of_readable hread, run_of_readable hread, hviolations,
    isBlocked_of_tightens hviolations⟩

/-- An impure function blocks under the standard limits, and so it does when files may have
no more than one line. -/
theorem run_tightens_print :
    let e : Engine Python.ParseError :=
      ⟨⟨"."⟩, Rule.all, Python.frontEnd, .standard, .uniform default, false, false⟩
    let stricter := { Thresholds.standard with maxFileLines := 1 }
    let contents : Path → Except String ByteArray := fun _ => .ok "def f():\n    print(1)\n".toUTF8
    (∀ r ∈ e.rules, r ∈ Rule.all) ∧ (∀ l, stricter.get l ≤ e.thresholds.get l) ∧
      (∀ p ∈ [⟨"a.py"⟩], Readable contents p) ∧
      ∃ r', { e with thresholds := stricter }.run contents [⟨"a.py"⟩] = .ok r' ∧ r'.isBlocked := by
  intro e stricter contents
  have hrules : ∀ r ∈ e.rules, r ∈ Rule.all := fun r hr => hr
  have hle : ∀ l, stricter.get l ≤ e.thresholds.get l := by
    intro l
    cases l <;> decide
  have hread : ∀ p ∈ [⟨"a.py"⟩], Readable contents p := fun p _ => ⟨_, rfl⟩
  obtain ⟨r, r', hr, hr', -, hblocks⟩ := run_tightens hrules hle hread
  have hblocked : r.isBlocked := by
    rw [eq_reportOn_of_run_eq_ok hr, reportOn, Report.isBlocked_ofViolations_iff]
    simp only [List.mem_mergeSort]
    decide +kernel
  exact ⟨hrules, hle, hread, r', hr', hblocks hblocked⟩

end Engine

end QualityGate
