import QualityGate.Proofs.Engine.Run
import QualityGate.Proofs.Rule.Naming
import QualityGate.Proofs.Rule.Provenance
import QualityGate.Proofs.Sequence.Keyed

/-! Engines with some of the built-in rules. A rule signs its findings with its name and does not
look at the others, so an engine with some of the rules finds, under the name of each of them, just
what the engine with all rules finds under it, and nothing under any other name. Sorting keeps
this. -/
namespace QualityGate.Engine

variable {ε : Type} {e : Engine ε} {rs : List Rule} {contents : Path → Except String ByteArray}
  {files : List Path}

def withRules (e : Engine ε) (rs : List Rule) : Engine ε := { e with rules := rs }

/-- Of the findings of a built-in rule, all bear its name. -/
theorem filter_applyRule {r : Rule} (hr : r ∈ Rule.all) (name : String) (c : FileContext)
    (u : SourceUnit) :
    (e.applyRule c u r).filter (·.rule = name) =
      if r.name = name then e.applyRule c u r else [] := by
  have hsigned : ∀ v ∈ e.applyRule c u r, v.rule = r.name := by
    intro v hv
    rw [applyRule] at hv
    split at hv
    · simp at hv
    · obtain ⟨w, hw, rfl⟩ := List.mem_map.mp hv
      exact (Rule.signed_of_mem_check hr hw).rule
  split
  · next h => exact List.filter_eq_self.mpr fun v hv => decide_eq_true ((hsigned v hv).trans h)
  · next h =>
    rw [List.filter_eq_nil_iff]
    intro v hv
    simpa [hsigned v hv] using h

theorem filter_analyzeUnit_eq_flatMap (hrs : ∀ r ∈ rs, r ∈ Rule.all) (name : String)
    (u : SourceUnit) :
    ((e.withRules rs).analyzeUnit u).filter (·.rule = name) =
      rs.flatMap fun r => if r.name = name then e.applyRule (e.context u.path) u r else [] := by
  rw [analyzeUnit, List.filter_flatMap]
  exact List.flatMap_congr fun r hr => filter_applyRule (hrs r hr) name _ u

/-- Under the name of one of its rules, the engine finds what that rule finds. -/
theorem filter_analyzeUnit_of_mem (hrs : ∀ r ∈ rs, r ∈ Rule.all) (hnodup : (rs.map (·.name)).Nodup)
    {r : Rule} (hr : r ∈ rs) (u : SourceUnit) :
    ((e.withRules rs).analyzeUnit u).filter (·.rule = r.name) =
      e.applyRule (e.context u.path) u r := by
  rw [filter_analyzeUnit_eq_flatMap hrs]
  exact flatMap_ite_key hnodup hr

/-- Under any other name it finds nothing. -/
theorem filter_analyzeUnit_of_not_mem (hrs : ∀ r ∈ rs, r ∈ Rule.all) {name : String}
    (hname : ∀ r ∈ rs, r.name ≠ name) (u : SourceUnit) :
    ((e.withRules rs).analyzeUnit u).filter (·.rule = name) = [] := by
  rw [filter_analyzeUnit_eq_flatMap hrs, List.flatMap_eq_nil_iff]
  exact fun r hr => if_neg (hname r hr)

/-- The violations of one rule in a report are those of the units, sorted. -/
theorem filter_violations (name : String) :
    (((e.withRules rs).reportOn contents files).violations.filter (·.rule = name)) =
      ((e.unitsOf contents files).flatMap fun u =>
        ((e.withRules rs).analyzeUnit u).filter (·.rule = name)).mergeSort
          (Violation.Precedes · ·) := by
  rw [← List.filter_flatMap, mergeSort_filter]
  rfl

/-- An engine with some of the rules reports, under each name, what the engine with all rules
does if one of its rules has that name, and nothing otherwise. -/
theorem filter_violations_withRules (hrs : ∀ r ∈ rs, r ∈ Rule.all)
    (hnodup : (rs.map (·.name)).Nodup) (name : String) :
    ((e.withRules rs).reportOn contents files).violations.filter (·.rule = name) =
      if ∃ r ∈ rs, r.name = name then
        ((e.withRules Rule.all).reportOn contents files).violations.filter (·.rule = name)
      else [] := by
  rw [filter_violations]
  split
  · next h =>
    obtain ⟨r, hr, rfl⟩ := h
    rw [filter_violations]
    congr 1
    refine List.flatMap_congr fun u _ => ?_
    rw [filter_analyzeUnit_of_mem hrs hnodup hr,
      filter_analyzeUnit_of_mem (fun _ => id) Rule.nodup_names (hrs r hr)]
  · next h =>
    have hnone : ((e.unitsOf contents files).flatMap fun u =>
        ((e.withRules rs).analyzeUnit u).filter (·.rule = name)) = [] := by
      rw [List.flatMap_eq_nil_iff]
      exact fun u _ => filter_analyzeUnit_of_not_mem hrs (fun r hr hname => h ⟨r, hr, hname⟩) u
    rw [hnone, List.mergeSort_nil]

/-- So it reports the violations of the engine with all rules that bear the name of one of its
rules. -/
theorem violations_withRules_perm (hrs : ∀ r ∈ rs, r ∈ Rule.all)
    (hnodup : (rs.map (·.name)).Nodup) :
    ((e.withRules rs).reportOn contents files).violations.Perm
      (((e.withRules Rule.all).reportOn contents files).violations.filter
        fun v => ∃ r ∈ rs, r.name = v.rule) := by
  refine perm_of_filter_eq Violation.rule fun name => ?_
  rw [filter_violations_withRules hrs hnodup, List.filter_filter]
  split
  · next h =>
    refine List.filter_congr fun v _ => ?_
    rw [Bool.eq_iff_iff, Bool.and_eq_true, decide_eq_true_eq, decide_eq_true_eq]
    exact ⟨fun hv => ⟨hv, hv ▸ h⟩, And.left⟩
  · next h =>
    refine (List.filter_eq_nil_iff.mpr fun v _ => ?_).symm
    rw [Bool.and_eq_true, decide_eq_true_eq, decide_eq_true_eq]
    exact fun hv => h (hv.1 ▸ hv.2)

end QualityGate.Engine
