import QualityGate.Proofs.Engine.Run
import QualityGate.Proofs.Text.Writing
import QualityGate.Python.FrontEnd
import QualityGate.Rule.Catalogue

/-! Python files in a run. A file that is no text, or whose text has no tree, is counted
and nothing else: the report on the other files is the same without it. Only a file that
cannot be read ends the run, and the first such file is the one that the error names. -/
namespace QualityGate

namespace Python

variable {contents : Path → Except String ByteArray} {p : Path}

/-- The unit of a path: its contents are a text with a tree. -/
def IsUnitAt (contents : Path → Except String ByteArray) (p : Path) (u : SourceUnit) : Prop :=
  ∃ source body, contents p = .ok source.toUTF8 ∧ parseModule source = .ok body ∧
    u = .ofSource p source body

/-- The contents of a path are no text, or a text without a tree. -/
inductive Unparsable (contents : Path → Except String ByteArray) (p : Path) : Prop
  | notText (bytes : ByteArray) (hread : contents p = .ok bytes) (h : ¬ bytes.IsValidUTF8)
  | rejected (source : String) (reason : ParseError) (hread : contents p = .ok source.toUTF8)
      (h : parseModule source = .error reason)

theorem unitAt?_of_text {source : String} (hread : contents p = .ok source.toUTF8) :
    frontEnd.unitAt? contents p = ((parseModule source).map (.ofSource p source)).toOption := by
  unfold FrontEnd.unitAt?
  rw [hread]
  show (String.fromUTF8? source.toUTF8).bind _ = _
  rw [Text.fromUTF8?_toUTF8]
  rfl

theorem unitAt?_of_notText {bytes : ByteArray} (hread : contents p = .ok bytes)
    (h : ¬ bytes.IsValidUTF8) : frontEnd.unitAt? contents p = none := by
  have htext : String.fromUTF8? bytes = none := by rw [String.fromUTF8?, dif_neg h]
  unfold FrontEnd.unitAt?
  rw [hread]
  show (String.fromUTF8? bytes).bind _ = _
  rw [htext]
  rfl

/-- A path has a unit, or is unparsable, or cannot be read. -/
theorem unit_or_unparsable (hread : Readable contents p) :
    (∃ u, frontEnd.unitAt? contents p = some u ∧ IsUnitAt contents p u) ∨
      frontEnd.unitAt? contents p = none ∧ Unparsable contents p := by
  obtain ⟨bytes, hbytes⟩ := hread
  by_cases hvalid : bytes.IsValidUTF8
  · have htext : contents p = .ok (String.fromUTF8 bytes hvalid).toUTF8 := hbytes
    cases hparse : parseModule (String.fromUTF8 bytes hvalid) with
    | error reason =>
      refine .inr ⟨?_, .rejected _ reason htext hparse⟩
      rw [unitAt?_of_text htext, hparse]
      rfl
    | ok body =>
      refine .inl ⟨_, ?_, _, body, htext, hparse, rfl⟩
      rw [unitAt?_of_text htext, hparse]
      rfl
  · exact .inr ⟨unitAt?_of_notText hbytes hvalid, .notText bytes hbytes hvalid⟩

theorem unparsable_iff :
    Unparsable contents p ↔ Readable contents p ∧ (frontEnd.unitAt? contents p).isNone := by
  constructor
  · rintro (⟨bytes, hread, h⟩ | ⟨source, reason, hread, h⟩)
    · exact ⟨⟨bytes, hread⟩, by rw [unitAt?_of_notText hread h]; rfl⟩
    · exact ⟨⟨_, hread⟩, by rw [unitAt?_of_text hread, h]; rfl⟩
  · rintro ⟨hread, hnone⟩
    rcases unit_or_unparsable hread with ⟨u, hu, -⟩ | ⟨-, h⟩
    · simp [hu] at hnone
    · exact h

instance : DecidablePred (Unparsable contents) := fun _ => decidable_of_iff _ unparsable_iff.symm

def withoutUnparsable (contents : Path → Except String ByteArray) (files : List Path) : List Path :=
  files.filter (¬ Unparsable contents ·)

/-- What the report on readable files says: which files were analysed and which skipped, and
that the findings are those of the analysed files, file after file, in stable order. -/
structure Accounts (e : Engine ParseError) (contents : Path → Except String ByteArray)
    (files : List Path) (r : Report) : Prop where
  total : r.summary.filesAnalyzed + r.summary.filesSkipped = files.length
  skipped : r.summary.filesSkipped = files.countP (Unparsable contents ·)
  skipped_iff : ∀ p ∈ files, e.analyzeFile contents p = .ok .skipped ↔ Unparsable contents p
  sorted : ∃ units, List.Forall₂ (IsUnitAt contents) (withoutUnparsable contents files) units ∧
    StableSort Violation.Precedes (units.flatMap e.analyzeUnit) r.violations

section Accounts

variable {files : List Path}

theorem readable_of_mem_withoutUnparsable (h : ∀ p ∈ files, Readable contents p) :
    ∀ p ∈ withoutUnparsable contents files, Readable contents p := fun p hp =>
  h p (List.mem_of_mem_filter hp)

/-- For readable files, the units are those of the files that remain, one for each. -/
theorem forall₂_filterMap_unitAt? (h : ∀ p ∈ files, Readable contents p) :
    List.Forall₂ (IsUnitAt contents) (withoutUnparsable contents files)
      (files.filterMap (frontEnd.unitAt? contents)) := by
  induction files with
  | nil => exact .nil
  | cons p files ih =>
    have hrest := ih fun q hq => h q (by simp [hq])
    unfold withoutUnparsable at hrest ⊢
    rcases unit_or_unparsable (h p (by simp)) with ⟨u, hu, hunit⟩ | ⟨hnone, hbad⟩
    · have hgood : ¬ Unparsable contents p := by
        rw [unparsable_iff, hu]
        simp
      rw [List.filter_cons_of_pos (by simpa using hgood), List.filterMap_cons_some hu]
      exact .cons hunit hrest
    · rw [List.filter_cons_of_neg (by simpa using hbad), List.filterMap_cons_none hnone]
      exact hrest

theorem countP_isNone (h : ∀ p ∈ files, Readable contents p) :
    (files.countP fun p => (frontEnd.unitAt? contents p).isNone) =
      files.countP (Unparsable contents ·) := by
  refine List.countP_congr fun p hp => ?_
  rw [decide_eq_true_eq, unparsable_iff]
  exact (and_iff_right (h p hp)).symm

theorem filterMap_withoutUnparsable (files : List Path) :
    (withoutUnparsable contents files).filterMap (frontEnd.unitAt? contents) =
      files.filterMap (frontEnd.unitAt? contents) := by
  unfold withoutUnparsable
  rw [List.filterMap_filter]
  refine List.filterMap_congr fun p hp => ?_
  split_ifs with hgood
  · rfl
  · have hbad : Unparsable contents p := by simpa using hgood
    exact (Option.isNone_iff_eq_none.mp (unparsable_iff.mp hbad).2).symm

end Accounts

end Python

namespace Engine

open Python

variable {e : Engine ParseError} {contents : Path → Except String ByteArray} {files : List Path}

theorem analyzeFile_eq_skipped_iff (hf : e.frontEnd = Python.frontEnd) {p : Path}
    (h : Readable contents p) : e.analyzeFile contents p = .ok .skipped ↔ Unparsable contents p := by
  rw [analyzeFile_of_readable h, outcomeAt, hf, unparsable_iff]
  cases Python.frontEnd.unitAt? contents p <;> simp [h]

theorem accounts_reportOn (hf : e.frontEnd = Python.frontEnd) (h : ∀ p ∈ files, Readable contents p) :
    Accounts e contents files (e.reportOn contents files) where
  total := length_unitsOf_add e contents files
  skipped := by
    rw [← countP_isNone h, ← hf]
    rfl
  skipped_iff p hp := analyzeFile_eq_skipped_iff hf (h p hp)
  sorted := by
    refine ⟨e.unitsOf contents files, ?_, stableSort_mergeSort _⟩
    rw [unitsOf, hf]
    exact forall₂_filterMap_unitAt? h

/-- Without the unparsable files, only the count of skipped files is another. -/
theorem reportOn_withoutUnparsable (hf : e.frontEnd = Python.frontEnd)
    (h : ∀ p ∈ files, Readable contents p) :
    e.reportOn contents (withoutUnparsable contents files) =
      { e.reportOn contents files with
        summary := { (e.reportOn contents files).summary with filesSkipped := 0 } } := by
  have hunits : e.unitsOf contents (withoutUnparsable contents files) = e.unitsOf contents files := by
    unfold unitsOf
    rw [hf, filterMap_withoutUnparsable]
  have hskipped : ((withoutUnparsable contents files).countP fun p =>
      (e.frontEnd.unitAt? contents p).isNone) = 0 := by
    rw [hf, countP_isNone (readable_of_mem_withoutUnparsable h), withoutUnparsable, List.countP_filter,
      List.countP_eq_zero]
    intro p _
    simp
  unfold reportOn
  rw [hunits, hskipped]
  rfl

theorem run_withoutUnparsable (hf : e.frontEnd = Python.frontEnd) (files : List Path) :
    e.run contents (withoutUnparsable contents files) =
      (e.run contents files).map fun r => { r with summary := { r.summary with filesSkipped := 0 } } := by
  rcases readable_or_split contents files with
    h | ⟨before, p, after, reason, rfl, hbefore, hp⟩
  · rw [run_of_readable h, run_of_readable (readable_of_mem_withoutUnparsable h),
      reportOn_withoutUnparsable hf h]
    rfl
  · have hgood : ¬ Unparsable contents p := by
      rw [unparsable_iff]
      rintro ⟨⟨bytes, hbytes⟩, -⟩
      rw [hp] at hbytes
      cases hbytes
    rw [run_of_unreadable hbefore hp, withoutUnparsable, List.filter_append,
      List.filter_cons_of_pos (by simpa using hgood)]
    exact run_of_unreadable (readable_of_mem_withoutUnparsable hbefore) hp

/-- A run over Python files fails just when a listed file cannot be read, and names the first
such file. Otherwise its report accounts for every file. In either case the unparsable files
change nothing but the count of skipped files. -/
theorem run_isolates (hf : e.frontEnd = Python.frontEnd)
    (contents : Path → Except String ByteArray) (files : List Path) :
    ((∃ err, e.run contents files = .error err) ↔ ∃ p ∈ files, ¬ Readable contents p) ∧
      (∀ err, e.run contents files = .error err → ∃ before p after reason,
        files = before ++ p :: after ∧ (∀ q ∈ before, Readable contents q) ∧
          contents p = .error reason ∧ err = .unreadable p reason) ∧
      (∀ r, e.run contents files = .ok r → Accounts e contents files r) ∧
      e.run contents (withoutUnparsable contents files) =
        (e.run contents files).map fun r =>
          { r with summary := { r.summary with filesSkipped := 0 } } := by
  refine ⟨?_, ?_, ?_, run_withoutUnparsable hf files⟩
  · constructor
    · rintro ⟨err, herr⟩
      by_contra hall
      push Not at hall
      rw [run_of_readable hall] at herr
      cases herr
    · rintro ⟨p, hmem, hp⟩
      cases hrun : e.run contents files with
      | error err => exact ⟨err, rfl⟩
      | ok r => exact absurd (readable_of_run_eq_ok hrun p hmem) hp
  · intro err herr
    rcases readable_or_split contents files with
      hall | ⟨before, p, after, reason, rfl, hbefore, hp⟩
    · rw [run_of_readable hall] at herr
      cases herr
    · rw [run_of_unreadable hbefore hp] at herr
      cases herr
      exact ⟨before, p, after, reason, rfl, hbefore, hp, rfl⟩
  · intro r hr
    rw [eq_reportOn_of_run_eq_ok hr]
    exact accounts_reportOn hf (readable_of_run_eq_ok hr)

/-- A file that is missing ends the run, and one that is no text does not. -/
theorem run_isolates_mixed :
    let e : Engine ParseError :=
      ⟨⟨"."⟩, Rule.all, Python.frontEnd, .standard, .uniform default, false, false⟩
    let contents : Path → Except String ByteArray := fun p =>
      if p.text = "gone.py" then .error "missing"
      else if p.text = "raw.py" then .ok ⟨#[255]⟩ else .ok "x = 1\n".toUTF8
    e.frontEnd = Python.frontEnd ∧
      (∃ err, e.run contents [⟨"raw.py"⟩, ⟨"gone.py"⟩] = .error err) ∧
      ∃ r, e.run contents [⟨"a.py"⟩, ⟨"raw.py"⟩] = .ok r ∧ r.summary.filesSkipped = 1 := by
  intro e contents
  have hf : e.frontEnd = Python.frontEnd := rfl
  refine ⟨hf, ?_, ?_⟩
  · refine (run_isolates hf contents _).1.mpr ⟨⟨"gone.py"⟩, by simp, ?_⟩
    decide
  · obtain ⟨hfails, -, haccounts, -⟩ := run_isolates hf contents [⟨"a.py"⟩, ⟨"raw.py"⟩]
    cases hrun : e.run contents [⟨"a.py"⟩, ⟨"raw.py"⟩] with
    | error err =>
      exact absurd (hfails.mp ⟨err, hrun⟩) (by decide)
    | ok r =>
      refine ⟨r, rfl, ?_⟩
      rw [(haccounts r hrun).skipped]
      decide +kernel

end Engine

end QualityGate
