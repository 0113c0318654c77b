import QualityGate.Engine
import QualityGate.Proofs.Path.Order
import QualityGate.Proofs.Sequence.StableSort
import QualityGate.Proofs.Sequence.Traversal

/-! What a run yields. A run stops at the first file that cannot be read. When all files
can be read, its report depends only on their units: those of the files that the front
end parses are analysed one by one, and all findings are sorted together. -/
namespace QualityGate

/-! ### The order of findings -/

namespace Violation

/-- A finding may stand before another: its file comes first, or both files have the same
components and its line does not come later. -/
def Precedes (v w : Violation) : Prop :=
  v.file.compare w.file = .lt ∨ v.file.components = w.file.components ∧ v.line ≤ w.line

instance : DecidableRel Precedes := fun _ _ => inferInstanceAs (Decidable (_ ∨ _))

/-- The comparison by file, then by line. -/
def comparePlaces (v w : Violation) : Ordering :=
  (v.file.compare w.file).then (compare v.line w.line)

instance : Std.TransCmp comparePlaces := by
  have hfile : Std.TransCmp fun v w : Violation =>
      Path.compareComponents v.file.components w.file.components :=
    { eq_swap := Std.OrientedCmp.eq_swap, isLE_trans := Std.TransCmp.isLE_trans }
  have heq : comparePlaces = compareLex
      (fun v w : Violation => Path.compareComponents v.file.components w.file.components)
      (compareOn line) := by
    funext v w
    rfl
  rw [heq]
  infer_instance

theorem precedes_iff (v w : Violation) : v.Precedes w ↔ (comparePlaces v w).isLE := by
  have hline := Nat.isLE_compare (a := v.line) (b := w.line)
  unfold Precedes comparePlaces
  rw [← Path.compare_eq_iff]
  cases v.file.compare w.file <;> simp [Ordering.then, hline]

instance : IsTrans Violation Precedes where
  trans u v w huv hvw := by
    rw [precedes_iff] at huv hvw ⊢
    exact Std.TransCmp.isLE_trans huv hvw

instance : Std.Total Precedes where
  total v w := by
    rw [precedes_iff, precedes_iff, @Std.OrientedCmp.eq_swap _ comparePlaces _ w v]
    cases comparePlaces v w <;> simp

end Violation

/-! ### Readable files and their units -/

section Run

variable {ε : Type} {contents : Path → Except String ByteArray}

def Readable (contents : Path → Except String ByteArray) (p : Path) : Prop :=
  ∃ bytes, contents p = .ok bytes

instance : DecidablePred (Readable contents) := fun p =>
  decidable_of_iff ((contents p).isOk = true) (by
    unfold Readable
    cases contents p <;> simp [Except.isOk, Except.toBool])

/-- Either all paths can be read, or one is the first that cannot. -/
theorem readable_or_split (contents : Path → Except String ByteArray) (files : List Path) :
    (∀ p ∈ files, Readable contents p) ∨
      ∃ before p after reason, files = before ++ p :: after ∧
        (∀ q ∈ before, Readable contents q) ∧ contents p = .error reason := by
  induction files with
  | nil => exact .inl (by simp)
  | cons p files ih =>
    cases hp : contents p with
    | error reason => exact .inr ⟨[], p, files, reason, rfl, by simp, hp⟩
    | ok bytes =>
      have hread : Readable contents p := ⟨bytes, hp⟩
      rcases ih with hall | ⟨before, q, after, reason, rfl, hbefore, hq⟩
      · exact .inl (List.forall_mem_cons.mpr ⟨hread, hall⟩)
      · exact .inr ⟨p :: before, q, after, reason, rfl,
          List.forall_mem_cons.mpr ⟨hread, hbefore⟩, hq⟩

/-- The unit of a path whose contents are text that the front end parses. -/
def FrontEnd.unitAt? (f : FrontEnd ε) (contents : Path → Except String ByteArray) (p : Path) :
    Option SourceUnit :=
  match contents p with
  | .error _ => none
  | .ok bytes => (String.fromUTF8? bytes).bind fun source => (f.parse p source).toOption

namespace Engine

variable {e : Engine ε} {files : List Path}

def outcomeAt (e : Engine ε) (contents : Path → Except String ByteArray) (p : Path) : FileOutcome :=
  match e.frontEnd.unitAt? contents p with
  | none => .skipped
  | some u => .analyzed (e.analyzeUnit u)

theorem analyzeFile_of_readable {p : Path} (h : Readable contents p) :
    e.analyzeFile contents p = .ok (e.outcomeAt contents p) := by
  obtain ⟨bytes, hbytes⟩ := h
  simp only [analyzeFile, analyzeBytes, outcomeAt, FrontEnd.unitAt?, hbytes]
  cases String.fromUTF8? bytes with
  | none => rfl
  | some source => cases hparse : e.frontEnd.parse p source <;> simp [hparse, Except.toOption]

/-- The units of the files that are analysed, in the order of the files. -/
def unitsOf (e : Engine ε) (contents : Path → Except String ByteArray) (files : List Path) :
    List SourceUnit :=
  files.filterMap (e.frontEnd.unitAt? contents)

def reportOn (e : Engine ε) (contents : Path → Except String ByteArray) (files : List Path) : Report :=
  .ofViolations (((e.unitsOf contents files).flatMap e.analyzeUnit).mergeSort (Violation.Precedes · ·))
    (e.unitsOf contents files).length
    (files.countP fun p => (e.frontEnd.unitAt? contents p).isNone) e.strict

/-- Findings that come in order stay as they are. -/
theorem violations_reportOn_of_pairwise
    (h : ((e.unitsOf contents files).flatMap e.analyzeUnit).Pairwise Violation.Precedes) :
    (e.reportOn contents files).violations = (e.unitsOf contents files).flatMap e.analyzeUnit :=
  List.mergeSort_of_pairwise (by simpa using h)

theorem inOrder_eq : inOrder = fun v w => decide (Violation.Precedes v w) := by
  funext v w
  have h := Violation.precedes_iff v w
  unfold Violation.comparePlaces at h
  rw [inOrder, Bool.eq_iff_iff, decide_eq_true_eq, h]
  cases (v.file.compare w.file).then (compare v.line w.line) <;> simp

theorem flatMap_outcomeAt (files : List Path) :
    (files.map (e.outcomeAt contents)).flatMap (·.violations) =
      (e.unitsOf contents files).flatMap e.analyzeUnit := by
  induction files with
  | nil => rfl
  | cons p files ih =>
    have hcons : e.unitsOf contents (p :: files) =
        (e.frontEnd.unitAt? contents p).toList ++ e.unitsOf contents files := by
      unfold unitsOf
      cases h : e.frontEnd.unitAt? contents p <;> simp [h]
    rw [List.map_cons, List.flatMap_cons, ih, hcons, List.flatMap_append]
    unfold outcomeAt
    cases e.frontEnd.unitAt? contents p <;> simp [FileOutcome.violations]

theorem count_outcomeAt (files : List Path) :
    (files.map (e.outcomeAt contents)).count .skipped =
      files.countP fun p => (e.frontEnd.unitAt? contents p).isNone := by
  rw [List.count_eq_countP, List.countP_map]
  congr 1
  funext p
  simp only [Function.comp_apply, outcomeAt]
  cases e.frontEnd.unitAt? contents p <;> simp

/-- Every file is analysed or skipped. -/
theorem length_unitsOf_add (e : Engine ε) (contents : Path → Except String ByteArray)
    (files : List Path) :
    (e.unitsOf contents files).length +
      files.countP (fun p => (e.frontEnd.unitAt? contents p).isNone) = files.length := by
  have hnone : (fun p => (e.frontEnd.unitAt? contents p).isNone) =
      fun p => decide ¬ (e.frontEnd.unitAt? contents p).isSome = true := by
    funext p
    cases e.frontEnd.unitAt? contents p <;> rfl
  rw [unitsOf, List.length_filterMap_eq_countP, hnone]
  exact (List.length_eq_countP_add_countP fun p => (e.frontEnd.unitAt? contents p).isSome).symm

/-- The run over files that can all be read. -/
theorem run_of_readable (h : ∀ p ∈ files, Readable contents p) :
    e.run contents files = .ok (e.reportOn contents files) := by
  have hlength := length_unitsOf_add e contents files
  unfold run
  rw [mapM_eq_ok fun p hp => analyzeFile_of_readable (h p hp)]
  show Except.ok _ = Except.ok _
  unfold reportOn
  rw [flatMap_outcomeAt, count_outcomeAt, inOrder_eq, List.length_map, ← hlength, Nat.add_sub_cancel]

/-- The run over files of which one cannot be read. -/
theorem run_of_unreadable {before after : List Path} {p : Path} {reason : String}
    (hbefore : ∀ q ∈ before, Readable contents q) (hp : contents p = .error reason) :
    e.run contents (before ++ p :: after) = .error (.unreadable p reason) := by
  have hfile : e.analyzeFile contents p = .error (.unreadable p reason) := by
    rw [analyzeFile, hp]
  unfold run
  rw [mapM_eq_error (fun q hq => ⟨_, analyzeFile_of_readable (hbefore q hq)⟩) hfile]
  rfl

theorem readable_of_run_eq_ok {r : Report} (h : e.run contents files = .ok r) :
    ∀ p ∈ files, Readable contents p := by
  rcases readable_or_split contents files with
    hall | ⟨before, p, after, reason, rfl, hbefore, hp⟩
  · exact hall
  · rw [run_of_unreadable hbefore hp] at h
    cases h

theorem eq_reportOn_of_run_eq_ok {r : Report} (h : e.run contents files = .ok r) :
    r = e.reportOn contents files := by
  rw [run_of_readable (readable_of_run_eq_ok h)] at h
  exact (Except.ok.inj h).symm

end Engine

end Run

end QualityGate
