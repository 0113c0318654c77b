import QualityGate.Proofs.Engine.Isolation
import QualityGate.Proofs.Rule.Provenance

/-! The order of the files in a run. Findings are sorted by file and line only, so those of one
line keep the order in which they were found. As a rule reports on no other file than the one it
checks, all of them were found in the same file, whatever files came before it: where no two
files have the same components, the report is the same for every order of the files. -/
namespace QualityGate

/-! ### Findings of one file -/

/-- Findings that the order does not separate are in files with the same components. -/
theorem Violation.components_eq_of_tied {v w : Violation} (hvw : v.Precedes w)
    (hwv : w.Precedes v) : v.file.components = w.file.components := by
  rcases hvw with hlt | ⟨heq, -⟩
  · rcases hwv with hgt | ⟨heq, -⟩
    · have hswap : v.file.compare w.file = (w.file.compare v.file).swap := by
        unfold Path.compare
        exact Std.OrientedCmp.eq_swap
      rw [hlt, hgt] at hswap
      cases hswap
    · exact heq.symm
  · exact heq

/-- Whether a rule reports only on the file that it checks. -/
def Rule.KeepsToFile (r : Rule) : Prop := ∀ c u, ∀ v ∈ r.check c u, v.file = c.path

/-- The built-in rules report only on the file that they check. -/
theorem Rule.keepsToFile_of_mem_all {r : Rule} (hr : r ∈ all) : r.KeepsToFile :=
  fun _ _ _ hv => (signed_of_mem_check hr hv).file

namespace Python

theorem path_of_unitAt? {contents : Path → Except String ByteArray} {p : Path} {u : SourceUnit}
    (h : frontEnd.unitAt? contents p = some u) : u.path = p := by
  have hread : Readable contents p := by
    cases hp : contents p with
    | ok bytes => exact ⟨bytes, hp⟩
    | error reason => simp [FrontEnd.unitAt?, hp] at h
  rcases unit_or_unparsable hread with ⟨u', hu', source, body, -, -, hunit⟩ | ⟨hnone, -⟩
  · obtain rfl := Option.some.inj (h.symm.trans hu')
    rw [hunit]
    rfl
  · rw [hnone] at h
    cases h

end Python

namespace Engine

open Python

variable {e : Engine ParseError} {contents : Path → Except String ByteArray}
  {files files' : List Path}

theorem file_of_mem_analyzeUnit (hrules : ∀ r ∈ e.rules, r.KeepsToFile) {u : SourceUnit}
    {v : Violation} (hv : v ∈ e.analyzeUnit u) : v.file = u.path := by
  rw [analyzeUnit, List.mem_flatMap] at hv
  obtain ⟨r, hr, hv⟩ := hv
  rw [applyRule] at hv
  split at hv
  · simp at hv
  · obtain ⟨w, hw, rfl⟩ := List.mem_map.mp hv
    exact hrules r hr _ u w hw

def findingsAt (e : Engine ParseError) (contents : Path → Except String ByteArray) (p : Path) :
    List Violation :=
  (e.frontEnd.unitAt? contents p).toList.flatMap e.analyzeUnit

theorem flatMap_findingsAt (files : List Path) :
    files.flatMap (e.findingsAt contents) = (e.unitsOf contents files).flatMap e.analyzeUnit := by
  rw [unitsOf, List.filterMap_eq_flatMap_toList, List.flatMap_assoc]
  rfl

theorem file_of_mem_findingsAt (hf : e.frontEnd = Python.frontEnd)
    (hrules : ∀ r ∈ e.rules, r.KeepsToFile) {p : Path} {v : Violation}
    (hv : v ∈ e.findingsAt contents p) : v.file = p := by
  rw [findingsAt, List.mem_flatMap] at hv
  obtain ⟨u, hu, hv⟩ := hv
  rw [Option.mem_toList, hf] at hu
  rw [file_of_mem_analyzeUnit hrules hv, path_of_unitAt? hu]

/-- The report on readable files does not depend on their order. -/
theorem reportOn_perm (hf : e.frontEnd = Python.frontEnd)
    (hrules : ∀ r ∈ e.rules, r.KeepsToFile) (hperm : files.Perm files')
    (hdistinct : files.Pairwise fun p q => p.components ≠ q.components) :
    e.reportOn contents files = e.reportOn contents files' := by
  have hsorted : (files.flatMap (e.findingsAt contents)).mergeSort (Violation.Precedes · ·) =
      (files'.flatMap (e.findingsAt contents)).mergeSort (Violation.Precedes · ·) := by
    refine mergeSort_flatMap_perm hperm (hdistinct.imp fun {p q} hpq a => ?_)
    -- A finding that is tied with `a` stands in a file with the components of `a`'s file.
    have htied : ∀ {p : Path} {b : Violation}, b ∈ e.findingsAt contents p →
        a.Precedes b ∧ b.Precedes a → p.components = a.file.components := by
      intro p b hb hab
      rw [← file_of_mem_findingsAt hf hrules hb]
      exact Violation.components_eq_of_tied hab.2 hab.1
    by_cases hp : p.components = a.file.components
    · exact .inr fun b hb hab => hpq (hp.trans (htied hb hab).symm)
    · exact .inl fun b hb hab => hp (htied hb hab)
  have hlength : (e.unitsOf contents files).length = (e.unitsOf contents files').length :=
    (hperm.filterMap _).length_eq
  have hskipped := hperm.countP_eq fun p => (e.frontEnd.unitAt? contents p).isNone
  unfold reportOn
  rw [← flatMap_findingsAt, ← flatMap_findingsAt, hsorted, hlength, hskipped]

theorem exists_error_of_unreadable {p : Path} (hp : p ∈ files) (h : ¬ Readable contents p) :
    ∃ err, e.run contents files = .error err := by
  cases hrun : e.run contents files with
  | error err => exact ⟨err, rfl⟩
  | ok r => exact absurd (readable_of_run_eq_ok hrun p hp) h

/-- Over the same files in two orders, no two of them with the same components, a run fails both
times or yields the same report. -/
theorem run_perm (hf : e.frontEnd = Python.frontEnd) (hrules : ∀ r ∈ e.rules, r.KeepsToFile)
    (contents : Path → Except String ByteArray) (hperm : files.Perm files')
    (hdistinct : files.Pairwise fun p q => p.components ≠ q.components) :
    (∃ err err', e.run contents files = .error err ∧ e.run contents files' = .error err') ∨
      ∃ r, e.run contents files = .ok r ∧ e.run contents files' = .ok r := by
  by_cases hread : ∀ p ∈ files, Readable contents p
  · have hread' : ∀ p ∈ files', Readable contents p := fun p hp => hread p (hperm.mem_iff.mpr hp)
    refine .inr ⟨e.reportOn contents files, run_of_readable hread, ?_⟩
    rw [run_of_readable hread', reportOn_perm hf hrules hperm hdistinct]
  · push Not at hread
    obtain ⟨p, hp, hunreadable⟩ := hread
    obtain ⟨err, herr⟩ := exists_error_of_unreadable (e := e) hp hunreadable
    obtain ⟨err', herr'⟩ := exists_error_of_unreadable (e := e) (hperm.mem_iff.mp hp) hunreadable
    exact .inl ⟨err, err', herr, herr'⟩

/-- Two files with findings on one line, listed in either order. -/
theorem run_perm_core :
    let e : Engine ParseError :=
      ⟨⟨"."⟩, Rule.all, Python.frontEnd, .standard, .uniform default, false, false⟩
    let contents : Path → Except String ByteArray := fun _ => .ok "def f():\n    print(g())\n".toUTF8
    let files : List Path := [⟨"./b.py"⟩, ⟨"a.py"⟩, ⟨"a/c.py"⟩]
    ∃ r, e.run contents files = .ok r ∧ e.run contents files.reverse = .ok r := by
  intro e contents files
  have hdistinct : files.Pairwise fun p q => p.components ≠ q.components := by decide
  have hperm : files.Perm files.reverse := files.reverse_perm.symm
  rcases run_perm (e := e) rfl (fun _ => Rule.keepsToFile_of_mem_all) contents hperm hdistinct with
    ⟨err, -, herr, -⟩ | hok
  · have hread : ∀ p ∈ files, Readable contents p := fun _ _ => ⟨_, rfl⟩
    rw [run_of_readable hread] at herr
    cases herr
  · exact hok

end Engine

end QualityGate
