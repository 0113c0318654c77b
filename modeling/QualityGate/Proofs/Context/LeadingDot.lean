import QualityGate.Proofs.Context.Spelling

/-! A dot in front of a path. Classification is meant to see only what stands below the root, so
that a leading dot plays no part in it. The root is taken off before the dot is, though: where the
root and the path are not both written with a dot, or both without one, the root stays in what is
classified. Pattern sets that count the characters of a path tell the two spellings apart. -/
namespace QualityGate

namespace Glob

/-! ### Question marks -/

theorem matchElements_anyChar (n : Nat) (s : List Char) :
    matchElements (List.replicate n .anyChar) s = decide (s.length = n) := by
  induction n generalizing s with
  | zero => cases s <;> simp [matchElements]
  | succ n ih =>
    rw [List.replicate_succ]
    cases s with
    | nil => simp [matchElements]
    | cons c cs => simp [matchElements, Element.fits, ih]

theorem compileFrom_questionMarks (n i : Nat) (prev : Option Char) :
    compileFrom .between i prev (List.replicate n '?') = .ok (List.replicate n .anyChar) := by
  induction n generalizing i prev with
  | zero => rfl
  | succ n ih =>
    rw [List.replicate_succ, List.replicate_succ, compileFrom, ih]
    rfl

end Glob

namespace PathPattern

/-- The pattern for the texts of some length: a question mark for every character. -/
def ofLength (n : Nat) : PathPattern :=
  .glob ⟨List.replicate n .anyChar⟩ (List.replicate n '?')

theorem parse_questionMarks {n : Nat} (hn : 0 < n) :
    parse (String.ofList (List.replicate n '?')) = .ok (ofLength n) := by
  have hmark : hasGlobMark (List.replicate n '?') := by
    obtain ⟨m, rfl⟩ := Nat.exists_eq_add_of_lt hn
    simp [hasGlobMark, List.replicate_succ]
  have hfragment : fragmentOf (List.replicate n '?') = List.replicate n '?' := by
    simp [fragmentOf, trimSlashes]
  rw [parse, String.toList_ofList, if_pos hmark, hfragment, Glob.compile, String.toList_ofList,
    Glob.compileFrom_questionMarks]
  rfl

theorem isMatch_ofLength (p : Path) : (ofLength p.text.toList.length).isMatch p := by
  simp [ofLength, isMatch, Glob.isMatch, Glob.matchElements_anyChar, Path.globText]

theorem isMatch_ofLength_of_lt {p : Path} {n : Nat} (h : p.text.toList.length < n) :
    (ofLength n).isMatch p = false := by
  have hlength : p.globText.length = p.text.toList.length := List.length_map ..
  have hoccurs : Text.occursIn (List.replicate n '?') p.globText = false := by
    rw [Bool.eq_false_iff]
    intro hin
    obtain ⟨before, behind, heq⟩ := Text.occursIn_iff.mp hin
    have := congrArg List.length heq
    simp only [List.length_append, List.length_replicate] at this
    omega
  have hmatch : ¬p.globText.length = n := by omega
  simp [ofLength, isMatch, Glob.isMatch, Glob.matchElements_anyChar, hmatch, hoccurs]

end PathPattern

/-- Paths of different lengths are told apart by a pattern that can be written down. -/
theorem ClassifierSet.exists_classify_ne {p q : Path}
    (h : p.text.toList.length ≠ q.text.toList.length) :
    ∃ (text : String) (pattern : PathPattern), PathPattern.parse text = .ok pattern ∧
      classify (.uniform { shell := [pattern] }) p ≠
        classify (.uniform { shell := [pattern] }) q := by
  wlog hlt : p.text.toList.length < q.text.toList.length generalizing p q
  · obtain ⟨text, pattern, hparse, hne⟩ := this h.symm (by omega)
    exact ⟨text, pattern, hparse, hne.symm⟩
  · refine ⟨_, .ofLength q.text.toList.length,
      PathPattern.parse_questionMarks (Nat.zero_lt_of_lt hlt), fun heq => ?_⟩
    have htag := congrArg PerFamily.complexity heq
    simp [classify, PerFamily.map, PerFamily.uniform, Classifier.classify,
      PathPattern.isMatch_ofLength, PathPattern.isMatch_ofLength_of_lt hlt] at htag

namespace FileContext

/-- A dot in front of a path of names has no part in its classification unless the root lies above
the path, however the root is written. There the dot matters to some patterns, and so it does
where slashes or dots that say nothing end the path, but for the root without components. -/
theorem classified_dotted {p : Path} (h : p.HasNames) (root : Path) (limits : Thresholds) :
    (∀ classifiers, (classified p.dotted root limits classifiers).tags =
        (classified p root limits classifiers).tags) ↔
      ¬root.LiesAbove p ∧ (root.components = [] ∨ p.trimRight = p) := by
  have htags : ∀ (q : Path) (classifiers : ClassifierSet),
      (classified q root limits classifiers).tags = classifiers.classify (q.relativeTo root) :=
    fun _ _ => rfl
  simp only [htags]
  constructor
  · intro hsame
    have hlength : (p.dotted.relativeTo root).text.toList.length =
        (p.relativeTo root).text.toList.length := by
      by_contra hne
      obtain ⟨-, pattern, -, hdiffer⟩ := ClassifierSet.exists_classify_ne hne
      exact hdiffer (hsame _)
    have habove : ¬root.LiesAbove p := fun habove => h.length_relativeTo_ne habove hlength
    refine ⟨habove, or_iff_not_imp_left.mpr fun hroot => ?_⟩
    obtain ⟨hdotted, hplain⟩ := h.relativeTo_of_not_liesAbove habove
    rw [hdotted, hplain, if_neg hroot] at hlength
    by_contra hne
    exact Nat.ne_of_lt (h.length_trimRight_lt hne) hlength
  · rintro ⟨habove, htrim⟩ classifiers
    obtain ⟨hdotted, hplain⟩ := h.relativeTo_of_not_liesAbove habove
    rw [hdotted, hplain]
    split
    · rfl
    · rename_i hroot
      rw [htrim.resolve_left hroot]

/-- A path beside the root, with spare slashes inside. -/
theorem classified_dotted_beside :
    let p : Path := ⟨"lib//api/./x.py"⟩
    let root : Path := ⟨"./src/"⟩
    p.HasNames ∧ ∀ classifiers,
      (classified p.dotted root .standard classifiers).tags =
        (classified p root .standard classifiers).tags := by
  intro p root
  have hnames : p.HasNames := by decide
  exact ⟨hnames, (classified_dotted hnames root .standard).mpr (by decide)⟩

/-- A root without a dot is not taken off a path that has one, so that its own name classifies
the files below it. -/
theorem tags_lost_below_root :
    let p : Path := ⟨"handlers/x.py"⟩
    let root : Path := ⟨"handlers"⟩
    p.HasNames ∧ ∃ classifiers, ClassifierSet.builtin.toOption = some classifiers ∧
      (classified p root .standard classifiers).tags.design = .core ∧
      (classified p.dotted root .standard classifiers).tags.design = .shell := by
  intro p root
  have hdiffer : ClassifierSet.builtin.toOption.any fun classifiers =>
      (classified p root .standard classifiers).tags.design = .core &&
        (classified p.dotted root .standard classifiers).tags.design = .shell := by
    decide +kernel
  obtain ⟨classifiers, hbuiltin, h⟩ := (Option.any_eq_true ..).mp hdiffer
  simp only [Bool.and_eq_true, decide_eq_true_eq] at h
  exact ⟨by decide, classifiers, hbuiltin, h⟩

end FileContext

end QualityGate
