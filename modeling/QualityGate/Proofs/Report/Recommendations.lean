import Mathlib.Data.List.Induction
import Mathlib.Data.List.Sort
import QualityGate.Advice

/-! Advice as a function of what was found. Kinds that share a line of advice stand side by side in
reporting order, so every line has a place among the others, whatever kinds were found. The advice
on a list of violations is then determined by which lines are called for: it lists them by their
places, it does not depend on the order or on the number of the violations, and more violations
only insert lines. -/
namespace QualityGate

/-! ### First occurrences -/

section FirstOccurrences

variable {α : Type} [DecidableEq α]

theorem firstOccurrences_concat (xs : List α) (x : α) : firstOccurrences (xs ++ [x]) =
    if x ∈ firstOccurrences xs then firstOccurrences xs else firstOccurrences xs ++ [x] := by
  rw [firstOccurrences, List.foldl_concat]
  rfl

theorem firstOccurrences_sublist (xs : List α) : (firstOccurrences xs).Sublist xs := by
  induction xs using List.reverseRecOn with
  | nil => exact List.Sublist.refl _
  | append_singleton xs x ih =>
    rw [firstOccurrences_concat]
    split_ifs
    · exact ih.trans (List.sublist_append_left _ _)
    · exact ih.append (List.Sublist.refl _)

theorem mem_firstOccurrences {xs : List α} {y : α} : y ∈ firstOccurrences xs ↔ y ∈ xs := by
  refine ⟨fun hy => (firstOccurrences_sublist xs).subset hy, fun hy => ?_⟩
  induction xs using List.reverseRecOn with
  | nil => exact absurd hy List.not_mem_nil
  | append_singleton xs x ih =>
    rw [firstOccurrences_concat]
    rcases List.mem_append.mp hy with hy | hy
    · split_ifs
      · exact ih hy
      · exact List.mem_append_left _ (ih hy)
    · obtain rfl := List.mem_singleton.mp hy
      split_ifs with hkept
      · exact hkept
      · exact List.mem_append_right _ hy

theorem nodup_firstOccurrences (xs : List α) : (firstOccurrences xs).Nodup := by
  induction xs using List.reverseRecOn with
  | nil => exact List.nodup_nil
  | append_singleton xs x ih =>
    rw [firstOccurrences_concat]
    split_ifs with hkept
    · exact ih
    · exact ih.append (List.nodup_singleton x) (by simpa using hkept)

end FirstOccurrences

/-! ### The places of the lines -/

/-- The first of the kinds in reporting order that share a line of advice. -/
def Kind.lead : Kind → Kind
  | .srpClassMethods => .srpFileLength
  | .nonlocalState => .globalState
  | k => k

theorem Kind.advice_eq_iff {j k : Kind} : j.advice = k.advice ↔ j.lead = k.lead := by
  cases j <;> cases k <;> simp [advice, lead]

/-- Where a line of advice stands: the number of the first kind that calls for it. -/
def adviceRank (line : String) : Nat := Kind.all.findIdx (·.advice = line)

/-- The advice on kinds in reporting order stands in its own order, for a kind that shares a line
with another one follows it immediately. -/
theorem pairwise_rank_advice :
    (Kind.all.map Kind.advice).Pairwise fun a b => adviceRank a ≤ adviceRank b := by
  have hlead : ∀ k : Kind, adviceRank k.advice = Kind.all.findIdx (·.lead = k.lead) := fun k => by
    simp only [adviceRank, Kind.advice_eq_iff]
  rw [List.pairwise_map]
  simp only [hlead]
  decide

/-- At the place of a line stands a kind that calls for it. -/
theorem exists_kind_at_adviceRank (k : Kind) :
    ∃ first, Kind.all[adviceRank k.advice]? = some first ∧ first.advice = k.advice := by
  have hlt : adviceRank k.advice < Kind.all.length :=
    List.findIdx_lt_length_of_exists ⟨k, k.mem_all, decide_eq_true rfl⟩
  exact ⟨Kind.all.get ⟨_, hlt⟩, List.getElem?_eq_getElem hlt,
    of_decide_eq_true (p := _ = k.advice) (List.findIdx_getElem (w := hlt))⟩

theorem eq_of_adviceRank_eq {j k : Kind} (h : adviceRank j.advice = adviceRank k.advice) :
    j.advice = k.advice := by
  obtain ⟨first, hfirst, hj⟩ := exists_kind_at_adviceRank j
  obtain ⟨second, hsecond, hk⟩ := exists_kind_at_adviceRank k
  rw [h, hsecond] at hfirst
  obtain rfl := Option.some.inj hfirst
  exact hj.symm.trans hk

theorem adviceRank_le_of_idxOf_le {j k : Kind} (h : Kind.all.idxOf j ≤ Kind.all.idxOf k) :
    adviceRank j.advice ≤ adviceRank k.advice := by
  rcases h.eq_or_lt with heq | hlt
  · exact (congrArg (adviceRank ·.advice) ((List.idxOf_inj j.mem_all).mp heq)).le
  · have hj := List.idxOf_lt_length_of_mem j.mem_all
    have hk := List.idxOf_lt_length_of_mem k.mem_all
    have hrank := List.pairwise_map.mp pairwise_rank_advice
    simpa using List.pairwise_iff_getElem.mp hrank _ _ hj hk hlt

/-! ### Advice on violations -/

variable {vs ws : List Violation} {line : String}

theorem mem_recommendations : line ∈ recommendations vs ↔
    ∃ v ∈ vs, v.kind.advice = line ∧ ¬ (v.kind.family = .purity ∧ v.scope = .shell) := by
  have hadvised : ∀ v : Violation,
      v.isAdvised ↔ ¬ (v.kind.family = .purity ∧ v.scope = .shell) := by
    intro v
    cases hscope : v.scope <;> simp [Violation.isAdvised, hscope]
  simp only [recommendations, mem_firstOccurrences, List.mem_map, List.mem_filter, List.any_eq_true,
    Bool.and_eq_true, decide_eq_true_eq, hadvised]
  constructor
  · rintro ⟨k, ⟨-, v, hv, hcalls, rfl⟩, rfl⟩
    exact ⟨v, hv, rfl, hcalls⟩
  · rintro ⟨v, hv, rfl, hcalls⟩
    exact ⟨v.kind, ⟨v.kind.mem_all, v, hv, hcalls, rfl⟩, rfl⟩

/-- Lines of advice are listed by their places. -/
theorem pairwise_recommendations (vs : List Violation) :
    (recommendations vs).Pairwise fun a b => adviceRank a < adviceRank b := by
  have hle : (recommendations vs).Pairwise fun a b => adviceRank a ≤ adviceRank b :=
    pairwise_rank_advice.sublist
      ((firstOccurrences_sublist _).trans (List.filter_sublist.map Kind.advice))
  have hne : (recommendations vs).Pairwise (· ≠ ·) := nodup_firstOccurrences _
  refine (hle.and hne).imp_of_mem fun {a b} ha hb h => h.1.lt_of_ne fun heq => h.2 ?_
  obtain ⟨v, -, rfl, -⟩ := mem_recommendations.mp ha
  obtain ⟨w, -, rfl, -⟩ := mem_recommendations.mp hb
  exact eq_of_adviceRank_eq heq

/-- Advice that stands in order and is found elsewhere in order is found there as a subsequence. -/
theorem sublist_of_subset_of_rank {xs ys : List String}
    (hxs : xs.Pairwise fun a b => adviceRank a < adviceRank b)
    (hys : ys.Pairwise fun a b => adviceRank a < adviceRank b) (h : xs ⊆ ys) : xs.Sublist ys := by
  have : Std.Antisymm fun a b : String => adviceRank a < adviceRank b :=
    ⟨fun _ _ hab hba => absurd hba hab.asymm⟩
  have hnodup : xs.Nodup := hxs.imp fun hlt heq => hlt.ne (congrArg adviceRank heq)
  exact List.sublist_of_subperm_of_pairwise (List.subperm_of_subset hnodup h) hxs hys

/-- Where all violations of one list are among those of another, no advice is lost and none
changes its place among the rest. -/
theorem recommendations_sublist (h : vs ⊆ ws) :
    (recommendations vs).Sublist (recommendations ws) := by
  refine sublist_of_subset_of_rank (pairwise_recommendations vs) (pairwise_recommendations ws) ?_
  intro line hline
  obtain ⟨v, hv, hadvice⟩ := mem_recommendations.mp hline
  exact mem_recommendations.mpr ⟨v, h hv, hadvice⟩

/-- The advice on a list of violations is the lines that some violation calls for, each once and by
their places in reporting order. So neither the order of the violations nor repetitions matter, and
with further violations no line is lost and none changes its place among the others. -/
theorem recommendations_canonical (vs : List Violation) :
    (recommendations vs).Nodup ∧
    (∀ line, line ∈ recommendations vs ↔
      ∃ v ∈ vs, v.kind.advice = line ∧ ¬ (v.kind.family = .purity ∧ v.scope = .shell)) ∧
    ((recommendations vs).Pairwise fun a b => ∀ j k : Kind, j.advice = a → k.advice = b →
      Kind.all.idxOf j < Kind.all.idxOf k) ∧
    (∀ ws, (∀ v, v ∈ ws ↔ v ∈ vs) → recommendations ws = recommendations vs) ∧
    ∀ ws, (recommendations vs).Sublist (recommendations (vs ++ ws)) := by
  refine ⟨nodup_firstOccurrences _, fun line => mem_recommendations, ?_, fun ws hws => ?_,
    fun ws => recommendations_sublist (List.subset_append_left vs ws)⟩
  · refine (pairwise_recommendations vs).imp fun {a b} hlt j k hj hk => ?_
    subst hj hk
    by_contra hle
    exact hlt.not_ge (adviceRank_le_of_idxOf_le (not_lt.mp hle))
  · have hfewer : (recommendations ws).Sublist (recommendations vs) :=
      recommendations_sublist fun v hv => (hws v).mp hv
    exact hfewer.antisymm (recommendations_sublist fun v hv => (hws v).mpr hv)

/-- Two kinds that share a line, an exception that is swallowed twice, and an access to the network
in the shell: two lines, whatever the order. -/
theorem recommendations_canonical_repeated :
    let found (kind : Kind) (scope : Tag) : Violation :=
      { file := ⟨"a.py"⟩, line := 1, kind, severity := .error, rule := "rule", scope }
    let vs := [found .exceptPass .core, found .network .shell, found .nonlocalState .core,
      found .globalState .shell, found .globalState .core]
    let ws := [found .globalState .core, found .exceptPass .core, found .exceptPass .core,
      found .nonlocalState .core, found .globalState .shell, found .network .shell]
    (∀ v, v ∈ ws ↔ v ∈ vs) ∧ recommendations ws = recommendations vs ∧
      recommendations vs = [Kind.globalState.advice, Kind.exceptPass.advice] := by
  intro found vs ws
  have hsame : ∀ v, v ∈ ws ↔ v ∈ vs := by
    intro v
    simp only [vs, ws, List.mem_cons, List.not_mem_nil, or_false]
    tauto
  exact ⟨hsame, (recommendations_canonical vs).2.2.2.1 ws hsame, by decide +kernel⟩

end QualityGate
