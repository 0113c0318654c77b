import QualityGate.Proofs.Context.BuiltIn

/-! Pattern lists that replace built-in ones. A run of replacements is four runs side by side, one
for each family, and within a family the lists for the shell and for the core go separate ways. The
tag of a file depends on nothing but the shell list that its family was given last: the core
patterns are asked in vain, because what they match would be core without them. -/
namespace QualityGate

/-- A replacement of a family's pattern lists. A list that is not given stays as it is. -/
structure Override where
  family : Family
  shell : Option (List String)
  core : Option (List String)

/-! ### One family -/

namespace Classifier

/-- A list after a replacement: the patterns of the texts that are given, or else the old ones. -/
def relist (old : List PathPattern) : Option (List String) → Except Glob.Error (List PathPattern)
  | some texts => texts.mapM PathPattern.parse
  | none => pure old

/-- The lists of a family after a replacement. -/
def replaced (c : Classifier) (o : Override) : Except Glob.Error Classifier := do
  let shell ← relist c.shell o.shell
  let core ← relist c.core o.core
  return { shell, core }

variable {c c' : Classifier}

/-- A replacement reads the shell list that it gives. -/
theorem shell_replaced {o : Override} (h : c.replaced o = .ok c') {texts : List String}
    (hc : texts.mapM PathPattern.parse = .ok c.shell) :
    (o.shell.getD texts).mapM PathPattern.parse = .ok c'.shell := by
  obtain ⟨shell, hshell, h⟩ := bind_eq_ok_iff.mp h
  obtain ⟨core, -, h⟩ := bind_eq_ok_iff.mp h
  obtain rfl := Except.ok.inj h
  cases hgiven : o.shell with
  | none =>
    rw [hgiven] at hshell
    obtain rfl := Except.ok.inj hshell
    exact hc
  | some given =>
    rw [hgiven] at hshell
    exact hshell

/-- After a run of replacements the shell list is the one that was given last. -/
theorem shell_foldlM_replaced {os : List Override} (h : os.foldlM replaced c = .ok c')
    {texts : List String} (hc : texts.mapM PathPattern.parse = .ok c.shell) :
    ((os.filterMap (·.shell)).getLast?.getD texts).mapM PathPattern.parse = .ok c'.shell := by
  induction os generalizing c texts with
  | nil =>
    obtain rfl := Except.ok.inj h
    exact hc
  | cons o os ih =>
    rw [List.foldlM_cons] at h
    obtain ⟨c₁, ho, h⟩ := bind_eq_ok_iff.mp h
    have hlast : ((o :: os).filterMap (·.shell)).getLast?.getD texts =
        (os.filterMap (·.shell)).getLast?.getD (o.shell.getD texts) := by
      cases hgiven : o.shell with
      | none => rw [List.filterMap_cons_none hgiven, Option.getD_none]
      | some given =>
        rw [List.filterMap_cons_some hgiven, List.getLast?_cons, Option.getD_some, Option.getD_some]
    rw [hlast]
    exact ih h (shell_replaced ho hc)

end Classifier

/-! ### All families -/

theorem PerFamily.ext_get {α : Type} {s t : PerFamily α} (h : ∀ f, s.get f = t.get f) : s = t := by
  cases s
  cases t
  rw [PerFamily.mk.injEq]
  exact ⟨h .complexity, h .design, h .purity, h .errorHandling⟩

namespace ClassifierSet

def overrideAll (t : ClassifierSet) (os : List Override) : Except Glob.Error ClassifierSet :=
  os.foldlM (fun t o => t.override o.family o.shell o.core) t

theorem override_eq (t : ClassifierSet) (o : Override) :
    t.override o.family o.shell o.core = t.set o.family <$> (t.get o.family).replaced o := by
  unfold override Classifier.replaced
  cases o.shell <;> cases o.core <;>
    simp only [Classifier.relist, map_bind, pure_bind, map_pure]

variable {t t' : ClassifierSet} {os : List Override}

/-- A run of replacements is a run for each family. -/
theorem overrideAll_eq_ok_iff : t.overrideAll os = .ok t' ↔
    ∀ f, (os.filter (·.family = f)).foldlM Classifier.replaced (t.get f) = .ok (t'.get f) := by
  induction os generalizing t with
  | nil =>
    constructor
    · intro h f
      obtain rfl := Except.ok.inj h
      rfl
    · intro h
      exact congrArg Except.ok (PerFamily.ext_get fun f => Except.ok.inj (h f))
  | cons o os ih =>
    rw [overrideAll, List.foldlM_cons, override_eq]
    have hown : ((o :: os).filter (·.family = o.family)).foldlM Classifier.replaced
        (t.get o.family) = (t.get o.family).replaced o >>= fun c =>
          (os.filter (·.family = o.family)).foldlM Classifier.replaced c := by
      rw [List.filter_cons_of_pos (by simp), List.foldlM_cons]
    cases ho : (t.get o.family).replaced o with
    | error e =>
      constructor
      · intro h
        cases h
      · intro h
        have hfail := h o.family
        rw [hown, ho] at hfail
        cases hfail
    | ok c =>
      refine (ih (t := t.set o.family c)).trans (forall_congr' fun f => ?_)
      rw [PerFamily.get_set]
      by_cases hf : f = o.family
      · rw [if_pos hf, hf, hown, ho]
        rfl
      · rw [if_neg hf, List.filter_cons_of_neg (by simpa using Ne.symm hf)]

/-- The shell lists that a run gives a family, in their order. -/
def shellsFor (f : Family) (os : List Override) : List (List String) :=
  (os.filter (·.family = f)).filterMap (·.shell)

/-- The texts of the shell list that a run leaves a family: the list given last, or else the
built-in one. -/
def shellInForce (f : Family) (os : List Override) : List String :=
  (shellsFor f os).getLast?.getD (builtinShell f)

theorem shell_overrideAll (hbuiltin : builtin = .ok t) (h : t.overrideAll os = .ok t')
    (f : Family) : (shellInForce f os).mapM PathPattern.parse = .ok (t'.get f).shell :=
  Classifier.shell_foldlM_replaced (overrideAll_eq_ok_iff.mp h f) (shell_builtin hbuiltin f)

/-- Behind any run of replacements a file is shell for a family if the list in force describes its
path, and core otherwise. Runs that give a family the same shell lists give its files the same tags,
whatever else they replace, and a run may be shuffled as long as every family sees its own
replacements in their order. -/
theorem classify_overridden (hbuiltin : builtin = .ok t) (h : t.overrideAll os = .ok t') :
    (∀ f p,
      ((t'.classify p).get f = .shell ↔
        ∃ text ∈ shellInForce f os, PathPattern.Describes text p) ∧
      ((t'.classify p).get f = .core ↔
        ∀ text ∈ shellInForce f os, ¬PathPattern.Describes text p)) ∧
    (∀ os₂ t₂, t.overrideAll os₂ = .ok t₂ → ∀ f, shellsFor f os₂ = shellsFor f os →
      ∀ p, (t₂.classify p).get f = (t'.classify p).get f) ∧
    ∀ os₂, (∀ f, os₂.filter (·.family = f) = os.filter (·.family = f)) →
      t.overrideAll os₂ = .ok t' := by
  have hshell : ∀ {os₂ t₂}, t.overrideAll os₂ = .ok t₂ → ∀ f p, (t₂.classify p).get f = .shell ↔
      ∃ text ∈ shellInForce f os₂, PathPattern.Describes text p := by
    intro os₂ t₂ hrun f p
    rw [get_classify]
    exact Classifier.classify_eq_shell_iff_describes (shell_overrideAll hbuiltin hrun f)
  refine ⟨fun f p => ⟨hshell h f p, ?_⟩, fun os₂ t₂ hrun f hsame p => ?_, fun os₂ hsame => ?_⟩
  · rw [Tag.eq_core_iff, ne_eq, hshell h f p, not_exists]
    exact forall_congr' fun text => not_and
  · refine Tag.eq_of_shell_iff ?_
    rw [hshell hrun f p, hshell h f p, shellInForce, shellInForce, hsame]
  · refine overrideAll_eq_ok_iff.mpr fun f => ?_
    rw [hsame f]
    exact overrideAll_eq_ok_iff.mp h f

/-- A family that gets two shell lists, and core lists that would cover built-in shell files. -/
theorem classify_overridden_twice :
    let first : Override := ⟨.design, some ["jobs"], none⟩
    let second : Override := ⟨.purity, none, some ["*/handlers/*"]⟩
    let third : Override := ⟨.design, some ["edge"], some ["edge"]⟩
    ∃ t t', builtin = .ok t ∧ t.overrideAll [first, second, third] = .ok t' ∧
      t.overrideAll [second, first, third] = .ok t' ∧
      (∀ p, (t'.classify p).get .design = .shell ↔
        ∃ text ∈ ["edge"], PathPattern.Describes text p) ∧
      ∀ p, (t'.classify p).get .purity = .shell ↔
        ∃ text ∈ purityShell, PathPattern.Describes text p := by
  intro first second third
  have hreads : (builtin >>= fun t => t.overrideAll [first, second, third]).toOption.isSome := by
    decide +kernel
  obtain ⟨t', ht'⟩ := Option.isSome_iff_exists.mp hreads
  obtain ⟨t, hbuiltin, h⟩ := bind_eq_ok_iff.mp (eq_ok_of_toOption ht')
  obtain ⟨htags, -, hshuffle⟩ := classify_overridden hbuiltin h
  refine ⟨t, t', hbuiltin, h, hshuffle _ fun f => ?_, fun p => (htags .design p).1,
    fun p => (htags .purity p).1⟩
  cases f <;> rfl

end ClassifierSet

end QualityGate
