import Mathlib.Data.List.Forall2
import QualityGate.Proofs.Rule.Provenance
import QualityGate.Python.FrontEnd

/-! Findings about the complexity of functions. Among all that the built-in rules find in a file,
they match the functions above the limit for warnings one to one, in source order, and a finding
is an error if its function is above the maximum too. A function above the maximum but not above
the limit for warnings is not reported at all: the second limit is only looked at behind the
first. -/
namespace QualityGate

def SourceUnit.functions (u : SourceUnit) : List Node := u.walk.filter (·.functionHead?.isSome)

/-- What a violation says when it reports the complexity of a function. -/
structure Violation.ReportsBranching (limits : Thresholds) (f : Node) (v : Violation) : Prop where
  function : v.function = f.functionHead?.map (·.name)
  line : v.line = f.line
  value : v.value = some f.cyclomatic
  severity : v.severity = if limits.maxComplexity < f.cyclomatic then .error else .warning

/-! ### One finding for each element that calls for it -/

/-- Where each element that passes a test gives one related result, and every other element
gives none, the results match the elements that pass it. -/
theorem forall₂_filter_flatMap {α β : Type} {R : α → β → Prop} {p : α → Bool} {f : α → List β}
    {xs : List α} (hone : ∀ a, p a → ∃ b, f a = [b] ∧ R a b) (hnone : ∀ a, ¬ p a → f a = []) :
    List.Forall₂ R (xs.filter p) (xs.flatMap f) := by
  induction xs with
  | nil => exact .nil
  | cons a xs ih =>
    rw [List.filter_cons, List.flatMap_cons]
    by_cases hp : p a
    · obtain ⟨b, hb, hab⟩ := hone a hp
      rw [if_pos hp, hb]
      exact .cons hab ih
    · rw [if_neg hp, hnone a hp]
      exact ih

/-! ### The complexity rule -/

namespace Rule.Complexity

variable {c : FileContext} {u : SourceUnit}

theorem filter_exceeding {line : Nat} {scope : List String} {name : String} {kind : Kind}
    {severity : Severity} {value limit : Nat} (hkind : kind ≠ .complexity) :
    (exceeding c line scope name kind severity value limit).filter (·.kind = .complexity) = [] := by
  rw [List.filter_eq_nil_iff]
  intro v hv
  rw [exceeding, List.mem_ite_nil_right, List.mem_singleton] at hv
  simpa [hv.2] using hkind

/-- Of all that a function is reported for, its branching alone is of this kind. -/
theorem filter_ofFunction {line : Nat} {scope : List String} {name : String} {m : FunctionMetrics} :
    (ofFunction c line scope name m).filter (·.kind = .complexity) =
      branching c line scope name m.complexity := by
  have hbranching : (branching c line scope name m.complexity).filter (·.kind = .complexity) =
      branching c line scope name m.complexity := by
    rw [List.filter_eq_self]
    intro v hv
    rw [branching, List.mem_ite_nil_right, List.mem_singleton] at hv
    simp [hv.2]
  simp only [ofFunction, List.filter_append]
  rw [hbranching, filter_exceeding (by decide), filter_exceeding (by decide),
    filter_exceeding (by decide), filter_exceeding (by decide)]
  simp

/-- A function above the limit for warnings is reported once. -/
theorem exists_of_exceeds {scope : List String} {f : Node} (hf : f.functionHead?.isSome)
    (h : c.thresholds.warningComplexity < f.cyclomatic) :
    ∃ v, (ownReport c scope f).filter (·.kind = .complexity) = [v] ∧
      v.ReportsBranching c.thresholds f := by
  cases f with
  | functionDef span head body =>
    rw [ownReport, filter_ofFunction]
    exact ⟨_, if_pos h, rfl, rfl, rfl, rfl⟩
  | _ => simp [Node.functionHead?] at hf

/-- Any other node is not reported for its branching. -/
theorem filter_ownReport_of_not {scope : List String} {n : Node}
    (h : ¬ (n.functionHead?.isSome ∧ c.thresholds.warningComplexity < n.cyclomatic)) :
    (ownReport c scope n).filter (·.kind = .complexity) = [] := by
  cases n with
  | functionDef span head body =>
    rw [ownReport, filter_ofFunction]
    exact if_neg fun hlt => h ⟨rfl, hlt⟩
  | _ => rfl

theorem filter_ofLength {lines : Nat} : (ofLength c lines).filter (·.kind = .complexity) = [] := by
  rw [List.filter_eq_nil_iff]
  intro v hv
  rw [ofLength, List.mem_ite_nil_right, List.mem_singleton] at hv
  simp [hv.2]

/-- The rule reports the functions above the limit for warnings, each of them once. -/
theorem check_branching (c : FileContext) (u : SourceUnit) :
    List.Forall₂ (Violation.ReportsBranching c.thresholds)
      (u.functions.filter fun f => c.thresholds.warningComplexity < f.cyclomatic)
      ((check c u).filter (·.kind = .complexity)) := by
  rw [check_eq, List.filter_append, filter_ofLength, List.nil_append, List.filter_flatMap,
    SourceUnit.functions, SourceUnit.walk, ← Node.map_snd_walkAllWith namesBelow [],
    List.filter_filter, List.filter_map, List.forall₂_map_left_iff]
  refine forall₂_filter_flatMap (fun p hp => ?_) fun p hp => ?_
  · simp only [Function.comp_apply, Bool.and_eq_true, decide_eq_true_eq] at hp
    exact exists_of_exceeds hp.2 hp.1
  · simp only [Function.comp_apply, Bool.and_eq_true, decide_eq_true_eq] at hp
    exact filter_ownReport_of_not fun hf => hp hf.symm

end Rule.Complexity

/-! ### All rules -/

namespace Engine

variable {ε : Type}

def withBuiltinRules (e : Engine ε) : Engine ε := { e with rules := Rule.all, coreOnly := false }

/-- A rule of another family finds nothing of this kind. -/
theorem filter_applyRule_of_ne {e : Engine ε} {c : FileContext} {u : SourceUnit} {r : Rule}
    (hr : r ∈ Rule.all) (hfamily : r.family ≠ .complexity) :
    (e.applyRule c u r).filter (·.kind = .complexity) = [] := by
  rw [List.filter_eq_nil_iff]
  intro v hv
  rw [applyRule] at hv
  split at hv
  · simp at hv
  · obtain ⟨w, hw, rfl⟩ := List.mem_map.mp hv
    simpa using (Rule.signed_of_mem_check hr hw).kind_ne (k := .complexity) hfamily.symm

/-- Of the built-in rules only one looks at branching. -/
theorem filter_analyzeUnit (e : Engine ε) (u : SourceUnit) :
    (e.withBuiltinRules.analyzeUnit u).filter (·.kind = .complexity) =
      ((Rule.Complexity.check (e.context u.path) u).filter (·.kind = .complexity)).map
        fun v => { v with scope := (e.context u.path).tag .complexity } := by
  have hother : ∀ r ∈ [Rule.design, Rule.purity, Rule.errorHandling],
      (e.withBuiltinRules.applyRule (e.context u.path) u r).filter (·.kind = .complexity) = [] := by
    have hfamily : ∀ r ∈ [Rule.design, Rule.purity, Rule.errorHandling],
        r.family ≠ .complexity := by decide
    exact fun r hr => filter_applyRule_of_ne (List.mem_cons_of_mem _ hr) (hfamily r hr)
  have hall : e.withBuiltinRules.analyzeUnit u =
      e.withBuiltinRules.applyRule (e.context u.path) u Rule.complexity ++
        [Rule.design, Rule.purity, Rule.errorHandling].flatMap
          (e.withBuiltinRules.applyRule (e.context u.path) u) := rfl
  have hfirst : e.withBuiltinRules.applyRule (e.context u.path) u Rule.complexity =
      (Rule.Complexity.check (e.context u.path) u).map
        fun v => { v with scope := (e.context u.path).tag .complexity } := rfl
  rw [hall, List.filter_append, List.filter_flatMap, List.flatMap_eq_nil_iff.mpr hother,
    List.append_nil, hfirst, List.filter_map]
  rfl

/-- In a file where no function lies above the maximum but not above the limit for warnings, as
when the latter is no higher than the former, the functions above one of the two limits are each
reported once, in source order, as an error if they are above the maximum and as a warning
otherwise; and no other function is reported for its complexity. -/
theorem analyzeUnit_branching (e : Engine ε) (u : SourceUnit)
    (hgap : ∀ f ∈ u.functions, e.thresholds.maxComplexity < f.cyclomatic →
      e.thresholds.warningComplexity < f.cyclomatic) :
    List.Forall₂ (Violation.ReportsBranching e.thresholds)
      (u.functions.filter fun f => e.thresholds.maxComplexity < f.cyclomatic ∨
        e.thresholds.warningComplexity < f.cyclomatic)
      ((e.withBuiltinRules.analyzeUnit u).filter (·.kind = .complexity)) := by
  have hlimit : (u.functions.filter fun f => e.thresholds.maxComplexity < f.cyclomatic ∨
        e.thresholds.warningComplexity < f.cyclomatic) =
      u.functions.filter fun f => e.thresholds.warningComplexity < f.cyclomatic := by
    refine List.filter_congr fun f hf => ?_
    rw [decide_eq_decide]
    exact ⟨fun h => h.elim (hgap f hf) id, .inr⟩
  rw [hlimit, filter_analyzeUnit, List.forall₂_map_right_iff]
  exact (Rule.Complexity.check_branching (e.context u.path) u).imp
    fun _ _ h => ⟨h.function, h.line, h.value, h.severity⟩

/-- Of three functions, one above both limits that holds one above the lower limit, and one above
neither, the first two are reported. -/
theorem analyzeUnit_branching_nested :
    let e : Engine Python.ParseError := ⟨⟨"."⟩, Rule.all, Python.frontEnd,
      { Thresholds.standard with maxComplexity := 2, warningComplexity := 1 },
      .uniform default, false, false⟩
    let branch : Node := .branch ⟨3, 3⟩ false (.name ⟨3, 3⟩ "x") [.pass ⟨3, 3⟩] []
    let u : SourceUnit := ⟨⟨"a.py"⟩, 6, [.functionDef ⟨1, 4⟩ ⟨"f", [], false⟩
      [.functionDef ⟨2, 3⟩ ⟨"g", [], false⟩ [branch], .boolOp ⟨4, 4⟩ .disjunction
        [.name ⟨4, 4⟩ "x", .name ⟨4, 4⟩ "y"]], .functionDef ⟨5, 6⟩ ⟨"h", [], false⟩ [.pass ⟨6, 6⟩]]⟩
    (∀ f ∈ u.functions, e.thresholds.maxComplexity < f.cyclomatic →
      e.thresholds.warningComplexity < f.cyclomatic) ∧
      ∃ v w, (e.withBuiltinRules.analyzeUnit u).filter (·.kind = .complexity) = [v, w] ∧
        v.function = some "f" ∧ v.severity = .error ∧ w.function = some "g" ∧
        w.severity = .warning := by
  intro e branch u
  have hgap : ∀ f ∈ u.functions, e.thresholds.maxComplexity < f.cyclomatic →
      e.thresholds.warningComplexity < f.cyclomatic := fun f _ h => Nat.lt_of_succ_lt h
  have hmatch := analyzeUnit_branching e u hgap
  have hnames : (u.functions.filter fun f => e.thresholds.maxComplexity < f.cyclomatic ∨
      e.thresholds.warningComplexity < f.cyclomatic).map
        (fun f => (f.functionHead?.map (·.name), f.cyclomatic)) =
      [(some "f", 3), (some "g", 2)] := by
    decide +kernel
  obtain ⟨f, fs, hfs, hf, hrest⟩ := List.map_eq_cons_iff.mp hnames
  obtain ⟨g, gs, rfl, hg, hnil⟩ := List.map_eq_cons_iff.mp hrest
  obtain rfl := List.map_eq_nil_iff.mp hnil
  rw [hfs] at hmatch
  obtain ⟨v, vs, hv, htail, hvs⟩ := List.forall₂_cons_left_iff.mp hmatch
  obtain ⟨w, ws, hw, hend, rfl⟩ := List.forall₂_cons_left_iff.mp htail
  obtain rfl := List.forall₂_nil_left_iff.mp hend
  obtain ⟨hfname, hfvalue⟩ := Prod.mk.inj hf
  obtain ⟨hgname, hgvalue⟩ := Prod.mk.inj hg
  refine ⟨hgap, v, w, hvs, hv.function.trans hfname, ?_, hw.function.trans hgname, ?_⟩
  · rw [hv.severity, hfvalue]
    rfl
  · rw [hw.severity, hgvalue]
    rfl

/-- A function above the maximum is not reported while it is not above the limit for warnings. -/
theorem branching_missed_below_warnings :
    let e : Engine Python.ParseError := ⟨⟨"."⟩, Rule.all, Python.frontEnd,
      { Thresholds.standard with maxComplexity := 3 }, .uniform default, false, false⟩
    let branch (line : Nat) (name : String) : Node :=
      .branch ⟨line, line + 1⟩ false (.name ⟨line, line⟩ name) [.other ⟨line + 1, line + 1⟩ []] []
    let f : Node := .functionDef ⟨1, 6⟩
      ⟨"f", [⟨"a", .positional⟩, ⟨"b", .positional⟩], false⟩
      [branch 2 "a", branch 4 "b",
       .other ⟨6, 6⟩ [.boolOp ⟨6, 6⟩ .conjunction [.name ⟨6, 6⟩ "a", .name ⟨6, 6⟩ "b"]]]
    let u : SourceUnit := ⟨⟨"m.py"⟩, 7, [f]⟩
    f ∈ u.functions ∧ e.thresholds.maxComplexity < f.cyclomatic ∧
      (e.withBuiltinRules.analyzeUnit u).filter (·.kind = .complexity) = [] := by
  intro e branch f u
  have hfunction : f ∈ u.functions := List.mem_filter.mpr ⟨by
    rw [SourceUnit.walk, Node.walkAll_cons, Node.walk_eq]
    simp, rfl⟩
  have hreported : (u.functions.filter fun f =>
      e.thresholds.warningComplexity < f.cyclomatic).length = 0 := by decide +kernel
  have hmatch := Rule.Complexity.check_branching (e.context u.path) u
  have hchecked : (Rule.Complexity.check (e.context u.path) u).filter (·.kind = .complexity) = [] :=
    List.eq_nil_of_length_eq_zero (hmatch.length_eq.symm.trans hreported)
  refine ⟨hfunction, by decide +kernel, ?_⟩
  rw [filter_analyzeUnit, hchecked, List.map_nil]

end Engine

end QualityGate
