import QualityGate.Proofs.Command.Flags
import QualityGate.Proofs.Command.Preparation
import QualityGate.Proofs.Config.Limits

/-! The limits of a check. Those of the options lie over those of the configuration, and these over
the standard ones. A negative limit is refused, and one in the configuration even where the options
replace it. -/
namespace QualityGate.Command

variable {e : Environment} {asked : Option Path} {o : CheckOptions} {c : Config}

/-! ### Checks -/

/-- A check with a scope root and a configuration is prepared and run. -/
theorem check_eq (hroot : e.source.tree.isDirectory ⟨o.root⟩)
    (hload : loadConfig e ⟨o.root⟩ asked = .ok c) :
    check e asked o = (prepare c o).bind fun p =>
      (p.engine.run e.source.tree.read (e.source.select ⟨o.root⟩ (!o.all) p.exclusion)).mapError
        .engine := by
  unfold check
  dsimp only
  rw [hroot, hload]
  rfl

/-- A configuration file is read as its text. -/
theorem readConfig_of_read {path : Path} {t : String} (h : e.source.tree.read path = .ok t.toUTF8) :
    readConfig e path = (Config.parse t).mapError .config := by
  unfold readConfig
  rw [h]
  dsimp only
  rw [Text.fromUTF8?_toUTF8]

/-- Patterns are compiled unless one of them is wrong. -/
theorem exists_compile_iff {patterns : List String} :
    (∃ x, Exclusion.compile patterns = .ok x) ↔
      ∀ pattern ∈ patterns, ∃ g, Glob.compile pattern = .ok g := by
  have heach (pattern : String) :
      (∃ g, (Glob.compile pattern).mapError (Exclusion.BadPattern.mk pattern) = .ok g) ↔
        ∃ g, Glob.compile pattern = .ok g := by
    cases Glob.compile pattern with
    | error err => exact ⟨nofun, nofun⟩
    | ok g => exact ⟨fun _ => ⟨g, rfl⟩, fun _ => ⟨g, rfl⟩⟩
  simp only [← heach, ← exists_mapM_eq_ok_iff]
  unfold Exclusion.compile
  cases patterns.mapM fun pattern =>
      (Glob.compile pattern).mapError (Exclusion.BadPattern.mk pattern) with
  | error err => exact ⟨nofun, nofun⟩
  | ok globs => exact ⟨fun _ => ⟨globs, rfl⟩, fun _ => ⟨⟨globs⟩, rfl⟩⟩

theorem compile_of_resolveExclude {globs : List Glob} (h : c.resolveExclude = .ok globs) :
    ∀ pattern ∈ c.analyzer.exclude, ∃ g, Glob.compile pattern = .ok g := by
  refine exists_mapM_eq_ok_iff.mp ?_
  unfold Config.resolveExclude at h
  cases hcompiled : c.analyzer.exclude.mapM Glob.compile with
  | error err =>
    rw [hcompiled] at h
    cases h
  | ok globs' => exact ⟨globs', rfl⟩

/-! ### Parts -/

/-- The limits of the configuration are resolved before anything else. -/
theorem resolveParts_of_configured {n : NegativeLimit} (h : c.thresholds.firstNegative? = some n) :
    resolveParts c o = .error (.config (.negativeLimit n)) := by
  unfold resolveParts Config.resolveThresholds
  rw [Overrides.apply_eq, h]
  rfl

/-- If the configuration is valid, the limits with the options over it are what is left. -/
theorem resolveParts_of_valid {classifiers : ClassifierSet} {globs : List Glob}
    (hlimits : c.thresholds.firstNegative? = none)
    (hclassifiers : c.resolveClassifiers = .ok classifiers)
    (hexclude : c.resolveExclude = .ok globs) :
    resolveParts c o = match o.thresholds.firstNegative? with
      | some n => .error (.config (.negativeLimit n))
      | none => (Exclusion.compile (c.analyzer.exclude ++ o.exclude)).mapError .exclude |>.map
          (.mk ((c.thresholds.mergedWith o.thresholds).onto .standard) classifiers) := by
  unfold resolveParts Config.resolveThresholds
  rw [Overrides.apply_eq, hlimits, hclassifiers, hexclude, Overrides.apply_eq,
    Overrides.firstNegative?_mergedWith hlimits]
  cases o.thresholds.firstNegative? with
  | some n => rfl
  | none => cases Exclusion.compile (c.analyzer.exclude ++ o.exclude) <;> rfl

/-! ### Limits -/

/-- How a check over a configuration with valid tables and patterns comes out by its limits. -/
structure LimitsDecide (e : Environment) (asked : Option Path) (o : CheckOptions) (c : Config) :
    Prop where
  /-- The first negative limit of the configuration is refused, whatever the options say. -/
  ofConfiguration : ∀ n, c.thresholds.firstNegative? = some n →
    check e asked o = .error (.config (.negativeLimit n))
  /-- Behind a valid configuration, the first negative limit of the options is refused. -/
  ofOptions : c.thresholds.firstNegative? = none → ∀ n, o.thresholds.firstNegative? = some n →
    check e asked o = .error (.config (.negativeLimit n))
  /-- Otherwise the engine runs, and each of its limits is that of the options, or else that of the
  configuration, or else the standard one. -/
  resolved : c.thresholds.firstNegative? = none → o.thresholds.firstNegative? = none →
    (∀ pattern ∈ o.exclude, ∃ g, Glob.compile pattern = .ok g) →
      ∃ p, prepare c o = .ok p ∧
        (∀ l, (p.engine.thresholds.get l : Int) =
          ((o.thresholds.get l).or (c.thresholds.get l)).getD (Thresholds.standard.get l)) ∧
        check e asked o = (p.engine.run e.source.tree.read
          (e.source.select ⟨o.root⟩ (!o.all) p.exclusion)).mapError .engine

theorem limitsDecide {classifiers : ClassifierSet} {globs : List Glob}
    (hroot : e.source.tree.isDirectory ⟨o.root⟩) (hload : loadConfig e ⟨o.root⟩ asked = .ok c)
    (hclassifiers : c.resolveClassifiers = .ok classifiers)
    (hexclude : c.resolveExclude = .ok globs) : LimitsDecide e asked o c where
  ofConfiguration n hn := by
    rw [check_eq hroot hload, prepare_eq, resolveParts_of_configured hn]
    rfl
  ofOptions hvalid n hn := by
    rw [check_eq hroot hload, prepare_eq, resolveParts_of_valid hvalid hclassifiers hexclude, hn]
    rfl
  resolved hvalid hasked hpatterns := by
    obtain ⟨x, hx⟩ : ∃ x, Exclusion.compile (c.analyzer.exclude ++ o.exclude) = .ok x := by
      rw [exists_compile_iff, List.forall_mem_append]
      exact ⟨compile_of_resolveExclude hexclude, hpatterns⟩
    have hparts := resolveParts_of_valid (o := o) hvalid hclassifiers hexclude
    have hmerged : (c.thresholds.mergedWith o.thresholds).firstNegative? = none := by
      rw [Overrides.firstNegative?_mergedWith hvalid, hasked]
    rw [hasked, hx] at hparts
    have hprepare := prepare_eq c o
    rw [hparts] at hprepare
    refine ⟨_, hprepare, fun l => ?_, ?_⟩
    · rw [← Overrides.mergedWith_get]
      exact Overrides.get_onto hmerged _ l
    · rw [check_eq hroot hload, hprepare]
      rfl

/-- The limits of a check with a scope root and a configuration whose tables and patterns are
valid. Negative ones are refused, the first of the configuration before the first of the options;
otherwise the engine runs, with the limits of the options, of the configuration, or the standard
ones. The flags of limits on a command line set the limits of the options. Layers may be joined in
any grouping, and joined layers resolve as the layers do one after the other. -/
theorem check_resolves_limits :
    (∀ (e : Environment) (asked : Option Path) (o : CheckOptions) (c : Config),
      e.source.tree.isDirectory ⟨o.root⟩ → loadConfig e ⟨o.root⟩ asked = .ok c →
        (∃ classifiers, c.resolveClassifiers = .ok classifiers) →
        (∃ globs, c.resolveExclude = .ok globs) → LimitsDecide e asked o c) ∧
    (∀ (arguments : List String) (config : Option String) (o : CheckOptions) (limits : Overrides),
      Invocation.ofArguments arguments = .run config (.check o) → "--" ∉ arguments →
        o.thresholds = .empty → (∀ l v, limits.get l = some v → Text.fitsSigned v) →
          Invocation.ofArguments (arguments ++ limitFlags limits) =
            .run config (.check { o with thresholds := limits })) ∧
    (∀ a b c : Overrides, (a.mergedWith b).mergedWith c = a.mergedWith (b.mergedWith c)) ∧
    (∀ a : Overrides, Overrides.empty.mergedWith a = a ∧ a.mergedWith .empty = a) ∧
    ∀ (a b : Overrides) (base t t' : Thresholds), a.apply base = .ok t → b.apply t = .ok t' →
      (a.mergedWith b).apply base = .ok t' := by
  refine ⟨?_, ?_, Overrides.mergedWith_assoc,
    fun a => ⟨Overrides.empty_mergedWith a, Overrides.mergedWith_empty a⟩, ?_⟩
  · rintro e asked o c hroot hload ⟨classifiers, hclassifiers⟩ ⟨globs, hexclude⟩
    exact limitsDecide hroot hload hclassifiers hexclude
  · intro arguments config o limits h hdashes hnone hfits
    exact ofArguments_limitFlags h hdashes hnone hfits
  · intro a b base t t' ha hb
    rw [Overrides.apply_mergedWith (Overrides.firstNegative?_of_apply ha), ha]
    exact hb

/-- A configuration with a negative limit, which is refused although the options replace it; one
that is valid, under options that win over it; and the flags for these. -/
theorem check_resolves_limits_layers :
    let negative := "[thresholds]\nmax_nested_try = -2\n"
    let valid := "[thresholds]\nmax_parameters = 3\nmax_nested_try = 4\n"
    let e : Environment := { source := { tree := { files :=
      [(["negative.toml"], negative.toUTF8), (["qgate.toml"], valid.toUTF8)] } } }
    let flat : Overrides := { Overrides.empty with maxNestedTry := some 1 }
    let minus : Overrides := { Overrides.empty with maxComplexity := some (-1) }
    check e (some ⟨"negative.toml"⟩) { thresholds := flat } =
        .error (.config (.negativeLimit ⟨.maxNestedTry, -2⟩)) ∧
      check e none { thresholds := minus } =
        .error (.config (.negativeLimit ⟨.maxComplexity, -1⟩)) ∧
      (∃ c p, loadConfig e ⟨"."⟩ none = .ok c ∧ prepare c { thresholds := flat } = .ok p ∧
        p.engine.thresholds.get .maxNestedTry = 1 ∧ p.engine.thresholds.get .maxParameters = 3 ∧
        p.engine.thresholds.get .maxComplexity = 10) ∧
      Invocation.ofArguments ["check", "--max-nested-try=1"] =
        .run none (.check { thresholds := flat }) ∧
      (flat.mergedWith { Overrides.empty with maxParameters := some 0 }).apply .standard =
        .ok { Thresholds.standard with maxNestedTry := 1, maxParameters := 0 } := by
  intro negative valid e flat minus
  obtain ⟨hdecide, hflags, -, -, hlayers⟩ := check_resolves_limits
  let configured (limits : Overrides) : Config := { Config.standard with thresholds := limits }
  have hroot : e.source.tree.isDirectory ⟨"."⟩ := by decide +kernel
  let below : Overrides := { Overrides.empty with maxNestedTry := some (-2) }
  let three : Overrides := { Overrides.empty with maxParameters := some 3, maxNestedTry := some 4 }
  have hnegative : loadConfig e ⟨"."⟩ (some ⟨"negative.toml"⟩) = .ok (configured below) := by
    have hparse : Config.parse negative = .ok (configured below) :=
      eq_ok_of_toOption (by decide +kernel)
    show readConfig e ⟨"negative.toml"⟩ = _
    rw [readConfig_of_read (t := negative) rfl, hparse]
    rfl
  have hvalid : loadConfig e ⟨"."⟩ none = .ok (configured three) := by
    have hfind : findConfig e ⟨"."⟩ none = some ⟨"./qgate.toml"⟩ := by decide +kernel
    have hparse : Config.parse valid = .ok (configured three) :=
      eq_ok_of_toOption (by decide +kernel)
    rw [loadConfig, hfind]
    dsimp only
    rw [readConfig_of_read (t := valid) rfl, hparse]
    rfl
  have hclassifiers (limits : Overrides) : ∃ t, (configured limits).resolveClassifiers = .ok t := by
    have hbuiltin : Config.standard.resolveClassifiers.toOption.isSome := by decide +kernel
    obtain ⟨t, ht⟩ := Option.isSome_iff_exists.mp hbuiltin
    exact ⟨t, eq_ok_of_toOption ht⟩
  have hexclude (limits : Overrides) : ∃ globs, (configured limits).resolveExclude = .ok globs := by
    show ∃ globs, Config.standard.resolveExclude = .ok globs
    exact ⟨_, rfl⟩
  have hrefused := hdecide e (some ⟨"negative.toml"⟩) { thresholds := flat } _ hroot hnegative
    (hclassifiers _) (hexclude _)
  have hasked := hdecide e none { thresholds := minus } _ hroot hvalid (hclassifiers _) (hexclude _)
  have hflat := hdecide e none { thresholds := flat } _ hroot hvalid (hclassifiers _) (hexclude _)
  obtain ⟨p, hp, hlimits, -⟩ := hflat.resolved rfl rfl nofun
  refine ⟨hrefused.ofConfiguration _ rfl, hasked.ofOptions rfl _ rfl,
    ⟨_, p, hvalid, hp, ?_⟩, ?_, ?_⟩
  · exact ⟨Int.ofNat_inj.mp (hlimits .maxNestedTry), Int.ofNat_inj.mp (hlimits .maxParameters),
      Int.ofNat_inj.mp (hlimits .maxComplexity)⟩
  · have hline : ["check"] ++ limitFlags flat = ["check", "--max-nested-try=1"] := by decide +kernel
    rw [← hline]
    refine hflags ["check"] none {} flat (by decide +kernel) (by decide) rfl fun l v hwritten => ?_
    cases l <;> cases hwritten
    decide
  · exact hlayers _ _ _ { Thresholds.standard with maxNestedTry := 1 } _ rfl rfl

end QualityGate.Command
