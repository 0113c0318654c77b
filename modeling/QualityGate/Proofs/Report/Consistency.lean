import Mathlib.Data.List.Perm.Basic
import QualityGate.Proofs.Report.RoundTrip

/-! The numbers of a report. A report is summed up by counters and by breakdowns per kind, per
family and per principle. All of them count the same list, so they add up in every way in which
families and principles group the kinds, they do not see the order of the list, and the counts
of two lists are those of both together. -/
namespace QualityGate

/-! ### Tallies -/

section Tally

variable {κ : Type} [DecidableEq κ] {keys xs : List κ}

def countOf (counts : List (κ × Nat)) (k : κ) : Nat := (counts.lookup k).getD 0

/-- What passes a test is counted key by key. -/
theorem countP_eq_total (hkeys : keys.Nodup) (h : ∀ x ∈ xs, x ∈ keys) (p : κ → Bool) :
    xs.countP p = total ((keys.filter p).map (xs.count ·)) := by
  induction xs with
  | nil => exact (total_map_eq_zero fun _ _ => rfl).symm
  | cons x xs ih =>
    have hsplit : ∀ k, (x :: xs).count k = xs.count k + if x = k then 1 else 0 := fun k => by
      rw [List.count_cons]
      simp
    have hone : total ((keys.filter p).map fun k => if x = k then 1 else 0) =
        if p x then 1 else 0 := by
      split
      · rename_i hx
        refine (total_map_single (hkeys.filter p) (List.mem_filter.mpr ⟨h x (by simp), hx⟩)
          fun k _ hk => ?_).trans (if_pos rfl)
        rw [if_neg (Ne.symm hk)]
      · rename_i hx
        refine total_map_eq_zero fun k hk => ?_
        have hne : x ≠ k := fun heq => hx (heq ▸ (List.mem_filter.mp hk).2)
        rw [if_neg hne]
    simp only [hsplit]
    rw [total_map_add, hone, ← ih fun y hy => h y (by simp [hy]), List.countP_cons]

theorem mem_tally {k : κ} {n : Nat} :
    (k, n) ∈ tally keys xs ↔ k ∈ keys ∧ n = xs.count k ∧ 0 < n := by
  rw [tally, List.mem_filter, List.mem_map, decide_eq_true_eq]
  constructor
  · rintro ⟨⟨k', hk', heq⟩, hn⟩
    obtain ⟨rfl, rfl⟩ := Prod.mk.inj heq
    exact ⟨hk', rfl, hn⟩
  · rintro ⟨hk, rfl, hn⟩
    exact ⟨⟨k, hk, rfl⟩, hn⟩

theorem fst_tally_sublist (keys xs : List κ) : ((tally keys xs).map Prod.fst).Sublist keys := by
  have hsub : (tally keys xs).Sublist (keys.map fun k => (k, xs.count k)) := List.filter_sublist
  simpa [List.map_map, Function.comp_def] using hsub.map Prod.fst

theorem countOf_tally (hkeys : keys.Nodup) {k : κ} (hk : k ∈ keys) :
    countOf (tally keys xs) k = xs.count k := by
  have hlookup := lookup_eq_some_iff_mem (hkeys.sublist (fst_tally_sublist keys xs)) k
  rw [countOf]
  cases hcount : (tally keys xs).lookup k with
  | none =>
    have hzero : ¬0 < xs.count k := fun hpos => by
      have hsome := (hlookup (xs.count k)).mpr (mem_tally.mpr ⟨hk, rfl, hpos⟩)
      rw [hcount] at hsome
      cases hsome
    rw [Option.getD_none]
    omega
  | some n =>
    obtain ⟨-, hn, -⟩ := mem_tally.mp ((hlookup n).mp hcount)
    exact hn

/-- The counts of two lists are those of both together. -/
theorem countOf_tally_append (hkeys : keys.Nodup) {k : κ} (hk : k ∈ keys) (xs ys : List κ) :
    countOf (tally keys (xs ++ ys)) k = countOf (tally keys xs) k + countOf (tally keys ys) k := by
  rw [countOf_tally hkeys hk, countOf_tally hkeys hk, countOf_tally hkeys hk, List.count_append]

/-- The counts of a tally add up to the length of the list. -/
theorem total_tally (hkeys : keys.Nodup) (h : ∀ x ∈ xs, x ∈ keys) :
    total ((tally keys xs).map Prod.snd) = xs.length := by
  have hall := countP_eq_total hkeys h fun _ => true
  rw [List.countP_true, List.filter_true] at hall
  rw [hall, tally, total_map_filter fun c _ hc => by simpa using hc, List.map_map]
  rfl

end Tally

/-- Whether all counts of a summary are the sums of those of two others. -/
structure Summary.AddsUp (s a b : Summary) : Prop where
  filesAnalyzed : s.filesAnalyzed = a.filesAnalyzed + b.filesAnalyzed
  filesSkipped : s.filesSkipped = a.filesSkipped + b.filesSkipped
  errors : s.errors = a.errors + b.errors
  warnings : s.warnings = a.warnings + b.warnings
  coreViolations : s.coreViolations = a.coreViolations + b.coreViolations
  shellWarnings : s.shellWarnings = a.shellWarnings + b.shellWarnings
  byKind : ∀ k, countOf s.byKind k = countOf a.byKind k + countOf b.byKind k
  byFamily : ∀ f, countOf s.byFamily f = countOf a.byFamily f + countOf b.byFamily f
  byPrinciple : ∀ p, countOf s.byPrinciple p = countOf a.byPrinciple p + countOf b.byPrinciple p

namespace Summary

variable {vs ws : List Violation}

/-- The order of the violations has no part in a summary. -/
theorem ofViolations_perm (h : vs.Perm ws) (analyzed skipped : Nat) (strict : Bool) :
    ofViolations vs analyzed skipped strict = ofViolations ws analyzed skipped strict := by
  have htally : ∀ {κ : Type} [DecidableEq κ] (keys : List κ) {xs ys : List κ}, xs.Perm ys →
      tally keys xs = tally keys ys := by
    intro κ _ keys xs ys hperm
    rw [tally, tally, List.map_congr_left fun k _ => by rw [hperm.count_eq k]]
  unfold ofViolations
  dsimp only
  rw [h.countP_eq, h.countP_eq (·.severity = .warning), h.countP_eq (·.scope = .core),
    h.countP_eq (·.scope = .shell), htally Kind.all (h.map _), htally Family.all (h.map _),
    htally Principle.all (h.filterMap _)]

/-- The counts of two lists of violations add up to those of both together. -/
theorem ofViolations_append (vs ws : List Violation) (analyzed skipped analyzed' skipped' : Nat)
    (strict : Bool) :
    (ofViolations (vs ++ ws) (analyzed + analyzed') (skipped + skipped') strict).AddsUp
      (ofViolations vs analyzed skipped strict) (ofViolations ws analyzed' skipped' strict) where
  filesAnalyzed := rfl
  filesSkipped := rfl
  errors := List.countP_append
  warnings := List.countP_append
  coreViolations := List.countP_append
  shellWarnings := List.countP_append
  byKind k := by
    show countOf (tally _ _) k = countOf (tally _ _) k + countOf (tally _ _) k
    rw [List.map_append, countOf_tally_append (by decide) k.mem_all]
  byFamily f := by
    show countOf (tally _ _) f = countOf (tally _ _) f + countOf (tally _ _) f
    rw [List.map_append, countOf_tally_append (by decide) f.mem_all]
  byPrinciple p := by
    show countOf (tally _ _) p = countOf (tally _ _) p + countOf (tally _ _) p
    rw [List.filterMap_append, countOf_tally_append (by decide) p.mem_all]

end Summary

namespace Report

/-- What the numbers of a report say of its violations and of one another. -/
structure IsConsistent (r : Report) (strict : Bool) : Prop where
  errors_add_warnings : r.summary.errors + r.summary.warnings = r.violations.length
  core_add_shell : r.summary.coreViolations + r.summary.shellWarnings = r.violations.length
  total_byKind : total (r.summary.byKind.map Prod.snd) = r.violations.length
  total_byFamily : total (r.summary.byFamily.map Prod.snd) = r.violations.length
  total_byPrinciple :
    total (r.summary.byPrinciple.map Prod.snd) = countOf r.summary.byFamily .design
  byFamily_of_byKind : ∀ f, countOf r.summary.byFamily f =
    total ((Kind.all.filter (·.family = f)).map (countOf r.summary.byKind))
  byPrinciple_of_byKind : ∀ p, countOf r.summary.byPrinciple p =
    total ((Kind.all.filter (·.principle? = some p)).map (countOf r.summary.byKind))
  mem_byKind : ∀ k n, (k, n) ∈ r.summary.byKind ↔ n = (r.ofKind k).length ∧ 0 < n
  mem_byFamily : ∀ f n, (f, n) ∈ r.summary.byFamily ↔
    n = r.violations.countP (·.kind.family = f) ∧ 0 < n
  mem_byPrinciple : ∀ p n, (p, n) ∈ r.summary.byPrinciple ↔
    n = r.violations.countP (·.kind.principle? = some p) ∧ 0 < n
  keys_nodup : (r.summary.byKind.map Prod.fst).Nodup ∧ (r.summary.byFamily.map Prod.fst).Nodup ∧
    (r.summary.byPrinciple.map Prod.fst).Nodup
  length_errors : (r.bySeverity .error).length = r.summary.errors
  length_warnings : (r.bySeverity .warning).length = r.summary.warnings
  severities : (r.bySeverity .error ++ r.bySeverity .warning).Perm r.violations
  allowed_eq : r.allowed = !r.summary.blocked
  blocked_iff : r.summary.blocked ↔ 0 < r.summary.errors ∨ strict ∧ 0 < r.summary.warnings

section Counts

variable (vs : List Violation)

theorem countP_add_countP {p q : Violation → Bool} (h : ∀ v, q v = !p v) :
    vs.countP p + vs.countP q = vs.length := by
  rw [List.length_eq_countP_add_countP p]
  congr 1
  refine List.countP_congr fun v _ => ?_
  simp [h]

theorem count_map {κ : Type} [DecidableEq κ] (g : Violation → κ) (k : κ) :
    (vs.map g).count k = vs.countP (g · = k) := by
  rw [List.count_eq_countP, List.countP_map]
  refine List.countP_congr fun v _ => ?_
  simp

theorem count_principle (p : Principle) :
    (vs.filterMap (·.kind.principle?)).count p = vs.countP (·.kind.principle? = some p) := by
  rw [List.count_eq_countP, List.countP_filterMap]
  refine List.countP_congr fun v _ => ?_
  cases v.kind.principle? <;> simp

/-- The violations whose kinds pass a test are counted kind by kind. -/
theorem countP_kind (p : Kind → Bool) : vs.countP (fun v => p v.kind) =
    total ((Kind.all.filter p).map (countOf (tally Kind.all (vs.map (·.kind))))) := by
  have hcounts : ∀ k ∈ Kind.all.filter p,
      countOf (tally Kind.all (vs.map (·.kind))) k = (vs.map (·.kind)).count k := fun k hk =>
    countOf_tally (by decide) (List.mem_filter.mp hk).1
  rw [List.map_congr_left hcounts, ← countP_eq_total (by decide) fun k _ => Kind.mem_all k,
    List.countP_map]
  rfl

end Counts

/-- What the numbers of a report say holds of the violations that they are counted from. -/
theorem isConsistent_ofViolations (vs : List Violation) (analyzed skipped : Nat) (strict : Bool) :
    (ofViolations vs analyzed skipped strict).IsConsistent strict where
  errors_add_warnings := countP_add_countP vs fun v => by cases v.severity <;> simp
  core_add_shell := countP_add_countP vs fun v => by cases v.scope <;> simp
  total_byKind := by
    show total ((tally Kind.all (vs.map (·.kind))).map Prod.snd) = vs.length
    rw [total_tally (by decide) fun k _ => Kind.mem_all k, List.length_map]
  total_byFamily := by
    show total ((tally Family.all (vs.map (·.kind.family))).map Prod.snd) = vs.length
    rw [total_tally (by decide) fun f _ => Family.mem_all f, List.length_map]
  total_byPrinciple := by
    show total ((tally Principle.all (vs.filterMap (·.kind.principle?))).map Prod.snd) =
      countOf (tally Family.all (vs.map (·.kind.family))) .design
    rw [total_tally (by decide) fun p _ => Principle.mem_all p,
      countOf_tally (by decide) (Family.mem_all _), count_map, List.length_filterMap_eq_countP]
    refine List.countP_congr fun v _ => ?_
    rw [Kind.isSome_principle?_iff, decide_eq_true_eq]
  byFamily_of_byKind f := by
    show countOf (tally Family.all (vs.map (·.kind.family))) f = _
    rw [countOf_tally (by decide) (Family.mem_all f), count_map]
    exact countP_kind vs (·.family = f)
  byPrinciple_of_byKind p := by
    show countOf (tally Principle.all (vs.filterMap (·.kind.principle?))) p = _
    rw [countOf_tally (by decide) (Principle.mem_all p), count_principle]
    exact countP_kind vs (·.principle? = some p)
  mem_byKind k n := by
    show (k, n) ∈ tally Kind.all (vs.map (·.kind)) ↔ n = (vs.filter (·.kind = k)).length ∧ 0 < n
    rw [mem_tally, count_map, and_iff_right (Kind.mem_all k), List.countP_eq_length_filter]
  mem_byFamily f n := by
    show (f, n) ∈ tally Family.all (vs.map (·.kind.family)) ↔ _
    rw [mem_tally, count_map, and_iff_right (Family.mem_all f)]
    rfl
  mem_byPrinciple p n := by
    show (p, n) ∈ tally Principle.all (vs.filterMap (·.kind.principle?)) ↔ _
    rw [mem_tally, count_principle, and_iff_right (Principle.mem_all p)]
    rfl
  keys_nodup :=
    ⟨(fst_tally_sublist ..).nodup (by decide), (fst_tally_sublist ..).nodup (by decide),
      (fst_tally_sublist ..).nodup (by decide)⟩
  length_errors := List.countP_eq_length_filter.symm
  length_warnings := List.countP_eq_length_filter.symm
  severities := by
    have hwarning : (vs.filter fun v => v.severity = .warning) =
        vs.filter fun v => !decide (v.severity = .error) :=
      List.filter_congr fun v _ => by cases v.severity <;> simp
    show (vs.filter (·.severity = .error) ++ vs.filter (·.severity = .warning)).Perm vs
    rw [hwarning]
    exact List.filter_append_perm (·.severity = .error) vs
  allowed_eq := rfl
  blocked_iff := by
    show isBlocking _ _ strict = true ↔ _
    rw [isBlocking, Bool.or_eq_true, Bool.and_eq_true, decide_eq_true_eq, decide_eq_true_eq]
    rfl

/-- The numbers of a report are those of its violations and agree with one another, in whatever
order the violations come, and the counts of two reports are those of both together. -/
theorem ofViolations_consistent (vs : List Violation) (analyzed skipped : Nat) (strict : Bool) :
    let r := ofViolations vs analyzed skipped strict
    r.violations = vs ∧ r.IsConsistent strict ∧
      (∀ ws, vs.Perm ws → (ofViolations ws analyzed skipped strict).summary = r.summary) ∧
      ∀ ws analyzed' skipped',
        (ofViolations (vs ++ ws) (analyzed + analyzed') (skipped + skipped') strict).summary.AddsUp
          r.summary (ofViolations ws analyzed' skipped' strict).summary :=
  ⟨rfl, isConsistent_ofViolations vs analyzed skipped strict,
    fun _ h => (Summary.ofViolations_perm h analyzed skipped strict).symm,
    fun ws analyzed' skipped' =>
      Summary.ofViolations_append vs ws analyzed skipped analyzed' skipped' strict⟩

/-- A design error and a purity warning of the shell, the other way round. -/
theorem ofViolations_consistent_swapped :
    let v : Violation := { file := ⟨"a.py"⟩, line := 1, kind := .lspNotImplemented,
                           severity := .error, rule := "design-principles" }
    let w : Violation := { file := ⟨"b.py"⟩, line := 2, kind := .network, severity := .warning,
                           rule := "purity", scope := .shell }
    let r := ofViolations [v, w] 2 0 true
    [v, w].Perm [w, v] ∧ (ofViolations [w, v] 2 0 true).summary = r.summary ∧
      r.summary.byFamily = [(.design, 1), (.purity, 1)] ∧
      r.summary.byPrinciple = [(.substitution, 1)] ∧ r.summary.blocked := by
  intro v w r
  have hperm : [v, w].Perm [w, v] := List.Perm.swap w v []
  exact ⟨hperm, (ofViolations_consistent [v, w] 2 0 true).2.2.1 [w, v] hperm, by decide, by decide,
    by decide⟩

end Report

end QualityGate
