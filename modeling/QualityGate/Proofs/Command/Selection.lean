import QualityGate.Proofs.Command.Preparation
import QualityGate.Proofs.Engine.Selection

/-! The rules that a user asks for. Keys between commas name rules, and a configuration may switch
some of these off. Whatever the keys and their order, a check then reports what a check with all
rules reports under the names that are left. -/
namespace QualityGate

namespace Command

/-! ### Keys -/

/-- The keys of a filter: what stands between commas, without white space at its ends, where
anything does. -/
def filterKeys (filter : String) : List String :=
  ((Text.split ',' filter.toList).map fun key => String.ofList (Text.trim key)).filter (· ≠ "")

def isKnownKey (key : String) : Bool := Rule.all.any (·.answersTo key)

/-- A rule is left by this name: it is a built-in one, switched on, and some key denotes it. -/
def Leaves (c : Config) (filter : String) (name : String) : Prop :=
  ∃ r ∈ Rule.all, r.name = name ∧ c.isRuleEnabled name ∧ ∃ key ∈ filterKeys filter, r.answersTo key

instance (c : Config) (filter : String) : DecidablePred (Leaves c filter) := fun _ =>
  inferInstanceAs (Decidable (∃ r ∈ Rule.all, _ ∧ _ ∧ ∃ key ∈ filterKeys filter, _))

theorem selectRules_eq (filter : String) :
    selectRules filter =
      ((filterKeys filter).filterMap Rule.find?).eraseDupsBy (Rule.name · == Rule.name ·) := by
  have hempty : ∀ keys : List String,
      (keys.filter (· ≠ "")).filterMap Rule.find? = keys.filterMap Rule.find? := by
    intro keys
    rw [List.filterMap_filter]
    refine List.filterMap_congr fun key _ => ?_
    split
    · rfl
    · next h =>
      rw [decide_eq_true_eq, not_not] at h
      rw [h, Rule.find?_empty]
  rw [filterKeys, hempty, List.filterMap_map]
  rfl

/-- Unknown keys do not count. -/
theorem filterMap_find?_known (keys : List String) :
    (keys.filter isKnownKey).filterMap Rule.find? = keys.filterMap Rule.find? := by
  rw [List.filterMap_filter]
  refine List.filterMap_congr fun key _ => ?_
  split
  · rfl
  · next h =>
    rw [isKnownKey, List.any_eq_true] at h
    symm
    rw [Rule.find?, List.find?_eq_none]
    exact fun r hr hkey => h ⟨r, hr, hkey⟩

/-- A selected rule is a built-in one that some key denotes. -/
theorem mem_selectRules {r : Rule} {filter : String} :
    r ∈ selectRules filter ↔ r ∈ Rule.all ∧ ∃ key ∈ filterKeys filter, r.answersTo key := by
  have hfound : ∀ s : Rule, s ∈ (filterKeys filter).filterMap Rule.find? ↔
      s ∈ Rule.all ∧ ∃ key ∈ filterKeys filter, s.answersTo key := by
    intro s
    rw [List.mem_filterMap]
    constructor
    · rintro ⟨key, hkey, h⟩
      obtain ⟨hs, hanswers⟩ := Rule.find?_eq_some_iff.mp h
      exact ⟨hs, key, hkey, hanswers⟩
    · rintro ⟨hs, key, hkey, hanswers⟩
      exact ⟨key, hkey, Rule.find?_eq_some_iff.mpr ⟨hs, hanswers⟩⟩
  rw [selectRules_eq]
  constructor
  · intro h
    exact (hfound r).mp (mem_of_mem_eraseDupsBy h)
  · intro h
    obtain ⟨s, hs, hname⟩ := exists_mem_eraseDupsBy Rule.name ((hfound r).mpr h)
    have hall := ((hfound s).mp (mem_of_mem_eraseDupsBy hs)).1
    exact Rule.eq_of_name_eq hall h.1 hname ▸ hs

/-- No rule is selected twice. -/
theorem nodup_selectRules (filter : String) : ((selectRules filter).map (·.name)).Nodup := by
  rw [selectRules_eq]
  exact nodup_map_eraseDupsBy _

/-! ### Engines -/

/-- The rules that a filter and a configuration leave, in the order in which they run. -/
def remainingRules (c : Config) (filter : String) : List Rule :=
  (selectRules filter).filter fun r => c.isRuleEnabled r.name

theorem mem_all_of_mem_remainingRules (c : Config) (filter : String) :
    ∀ r ∈ remainingRules c filter, r ∈ Rule.all :=
  fun _ hr => (mem_selectRules.mp (List.mem_filter.mp hr).1).1

theorem nodup_remainingRules (c : Config) (filter : String) :
    ((remainingRules c filter).map (·.name)).Nodup :=
  (nodup_selectRules filter).sublist (List.filter_sublist.map _)

theorem leaves_iff {c : Config} {filter name : String} :
    (∃ r ∈ remainingRules c filter, r.name = name) ↔ Leaves c filter name := by
  constructor
  · rintro ⟨r, hr, rfl⟩
    obtain ⟨hselected, henabled⟩ := List.mem_filter.mp hr
    obtain ⟨hall, hkey⟩ := mem_selectRules.mp hselected
    exact ⟨r, hall, rfl, henabled, hkey⟩
  · rintro ⟨r, hall, rfl, henabled, hkey⟩
    exact ⟨r, List.mem_filter.mpr ⟨mem_selectRules.mpr ⟨hall, hkey⟩, henabled⟩, rfl⟩

/-- The rules asked for, and those switched off, show in the rules of the engine only. -/
theorem engine_ofParts (c : Config) (o : CheckOptions) (filter : String) (p : Parts) :
    (Prepared.ofParts c { o with rules := some filter } p).engine =
      (Prepared.ofParts { c with rules := [] } { o with rules := none } p).engine.withRules
        (remainingRules c filter) := rfl

theorem engine_ofParts_all (c : Config) (o : CheckOptions) (p : Parts) :
    (Prepared.ofParts { c with rules := [] } { o with rules := none } p).engine.withRules Rule.all =
      (Prepared.ofParts { c with rules := [] } { o with rules := none } p).engine := rfl

/-- Selecting rules is a filter. A check with some rules cannot be prepared, just as the check with
all rules cannot, or its violations on readable files are those of the check with all rules that
bear the name of a rule that is left: each of them as often, and those of one rule in the same
order. Keys that name no rule change nothing. -/
theorem prepare_selects (c : Config) (o : CheckOptions) (filter : String) :
    ((∃ err, prepare c { o with rules := some filter } = .error err ∧
        prepare { c with rules := [] } { o with rules := none } = .error err) ∨
      ∃ p full, prepare c { o with rules := some filter } = .ok p ∧
        prepare { c with rules := [] } { o with rules := none } = .ok full ∧
        p.exclusion = full.exclusion ∧
        ∀ contents files, (∀ f ∈ files, Readable contents f) →
          ∃ r r', p.engine.run contents files = .ok r ∧ full.engine.run contents files = .ok r' ∧
            r.violations.Perm (r'.violations.filter fun v => Leaves c filter v.rule) ∧
            ∀ name, r.violations.filter (·.rule = name) =
              if Leaves c filter name then r'.violations.filter (·.rule = name) else []) ∧
      ∀ filter', (filterKeys filter').filter isKnownKey = (filterKeys filter).filter isKnownKey →
        prepare c { o with rules := some filter' } = prepare c { o with rules := some filter } := by
  constructor
  · rw [prepare_eq, prepare_eq]
    show (∃ err, (resolveParts c o).map _ = _ ∧ (resolveParts c o).map _ = _) ∨
      ∃ p full, (resolveParts c o).map _ = _ ∧ (resolveParts c o).map _ = _ ∧ _
    cases resolveParts c o with
    | error err => exact .inl ⟨err, rfl, rfl⟩
    | ok parts =>
      refine .inr ⟨_, _, rfl, rfl, rfl, fun contents files hread => ?_⟩
      refine ⟨_, _, Engine.run_of_readable hread, Engine.run_of_readable hread, ?_⟩
      rw [engine_ofParts, ← engine_ofParts_all]
      have hall := mem_all_of_mem_remainingRules c filter
      have hnodup := nodup_remainingRules c filter
      simp only [← leaves_iff]
      exact ⟨Engine.violations_withRules_perm hall hnodup,
        Engine.filter_violations_withRules hall hnodup⟩
  · intro filter' hkeys
    have hselected : selectRules filter' = selectRules filter := by
      rw [selectRules_eq, selectRules_eq, ← filterMap_find?_known, hkeys, filterMap_find?_known]
    rw [prepare_eq, prepare_eq]
    unfold Prepared.ofParts CheckOptions.selectedRules
    simp only [hselected]
    rfl

/-- A rule named twice in other words, one that is switched off, and a key that names none: what
is left is one rule, which reports what it reports among all rules. -/
theorem prepare_selects_purity :
    let c : Config := { Config.standard with rules := [("design-principles", some false)] }
    let o : CheckOptions := { thresholds := { Overrides.empty with maxFileLines := some 1 } }
    let contents : Path → Except String ByteArray := fun _ => .ok "def f():\n    print(1)\n".toUTF8
    let files : List Path := [⟨"b.py"⟩, ⟨"a.py"⟩]
    ∃ p full r r', prepare c { o with rules := some "qg003,, nope, purity ,design" } = .ok p ∧
      prepare { c with rules := [] } { o with rules := none } = .ok full ∧
      p.engine.run contents files = .ok r ∧ full.engine.run contents files = .ok r' ∧
      r.violations.Perm (r'.violations.filter (·.rule = "purity")) ∧ r.violations.length = 2 ∧
      prepare c { o with rules := some "qg003,purity,design" } = .ok p := by
  intro c o contents files
  obtain ⟨hrun, hkeys⟩ := prepare_selects c o "qg003,, nope, purity ,design"
  have hleaves : ∀ name, Leaves c "qg003,, nope, purity ,design" name ↔ name = "purity" := by
    have honly : ∀ r ∈ Rule.all, c.isRuleEnabled r.name →
        (∃ key ∈ filterKeys "qg003,, nope, purity ,design", r.answersTo key) →
        r.name = "purity" := by decide +kernel
    have hpurity : Leaves c "qg003,, nope, purity ,design" "purity" := by decide +kernel
    intro name
    refine ⟨?_, fun h => h ▸ hpurity⟩
    rintro ⟨r, hr, rfl, henabled, hkey⟩
    exact honly r hr henabled hkey
  have hfound : (prepare c { o with rules := some "qg003,, nope, purity ,design" }).toOption.any
      fun p => ((p.engine.unitsOf contents files).flatMap p.engine.analyzeUnit).length = 2 := by
    decide +kernel
  rcases hrun with ⟨err, hp, -⟩ | ⟨p, full, hp, hfull, -, hreports⟩
  · rw [hp] at hfound
    cases hfound
  · rw [hp] at hfound
    obtain ⟨r, r', hr, hr', hperm, -⟩ := hreports contents files fun _ _ => ⟨_, rfl⟩
    simp only [hleaves] at hperm
    have hlength : r.violations.length = 2 := by
      rw [Engine.eq_reportOn_of_run_eq_ok hr]
      exact (List.length_mergeSort _).trans (of_decide_eq_true hfound)
    refine ⟨p, full, r, r', hp, hfull, hr, hr', hperm, hlength, ?_⟩
    rw [hkeys "qg003,purity,design" (by decide +kernel), hp]

end Command

end QualityGate
