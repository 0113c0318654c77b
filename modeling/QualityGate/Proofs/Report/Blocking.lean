import Mathlib.Data.List.Forall2
import QualityGate.Report.Basic

/-! When a report blocks. One error is enough, and in strict mode one violation of any
severity is. So a report keeps blocking as violations are added or get worse. -/
namespace QualityGate.Report

variable {vs ws : List Violation} {strict : Bool} {analyzed skipped analyzed' skipped' : Nat}

theorem isBlocked_ofViolations_iff :
    (ofViolations vs analyzed skipped strict).isBlocked ↔
      ∃ v ∈ vs, v.severity = .error ∨ strict = true := by
  show isBlocking (vs.countP _) (vs.countP _) strict = true ↔ _
  simp only [isBlocking, Bool.or_eq_true, Bool.and_eq_true, decide_eq_true_eq, List.countP_pos_iff]
  constructor
  · rintro (⟨v, hv, herror⟩ | ⟨hstrict, v, hv, -⟩)
    · exact ⟨v, hv, .inl herror⟩
    · exact ⟨v, hv, .inr hstrict⟩
  · rintro ⟨v, hv, hblocks⟩
    cases hseverity : v.severity with
    | error => exact .inl ⟨v, hv, hseverity⟩
    | warning =>
      have hstrict : strict = true := by simpa [hseverity] using hblocks
      exact .inr ⟨hstrict, v, hv, hseverity⟩

/-- A report blocks when it has, for each violation of one that blocks, one that is as bad. -/
theorem isBlocked_of_worse (hworse : ∀ v ∈ vs, ∃ w ∈ ws, v.severity = .error → w.severity = .error)
    (h : (ofViolations vs analyzed skipped strict).isBlocked) :
    (ofViolations ws analyzed' skipped' strict).isBlocked := by
  rw [isBlocked_ofViolations_iff] at h ⊢
  obtain ⟨v, hv, hblocks⟩ := h
  obtain ⟨w, hw, hvw⟩ := hworse v hv
  exact ⟨w, hw, hblocks.imp_left hvw⟩

end QualityGate.Report
