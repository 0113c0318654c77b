import Mathlib.Order.Defs.Unbundled
import QualityGate.Path

/-! The order of paths. Components, and paths as lists of them, compare
lexicographically, so the order is total, and two paths are tied exactly when they
have the same components, whatever their spelling. -/
namespace QualityGate.Path

open Std (TransCmp LawfulEqCmp)

/-! ### Names -/

theorem compareChars_eq : compareChars = List.compareLex (compareOn Char.toNat) := by
  funext as bs
  induction as generalizing bs with
  | nil => cases bs <;> rfl
  | cons a as ih =>
    cases bs with
    | nil => rfl
    | cons b bs =>
      rw [compareChars, List.compareLex_cons_cons, ih]
      rfl

instance : TransCmp compareChars := by
  rw [compareChars_eq]
  infer_instance

theorem eq_of_compareChars {as bs : List Char} (h : compareChars as bs = .eq) : as = bs := by
  have hlawful : LawfulEqCmp (compareOn Char.toNat) :=
    ⟨fun {a b} hab => Char.toNat_inj.mp (Nat.compare_eq_eq.mp hab)⟩
  rw [compareChars_eq] at h
  exact LawfulEqCmp.eq_of_compare h

/-! ### Components -/

/-- The text of a component; all but names have none. -/
def Component.letters : Component → List Char
  | .normal s => s
  | _ => []

/-- Components compare by rank, then by text. -/
theorem Component.compare_eq :
    Component.compare = compareLex (compareOn rank) fun a b => compareChars a.letters b.letters := by
  funext a b
  cases a <;> cases b <;> rfl

instance : TransCmp Component.compare := by
  have hletters : TransCmp fun a b : Component => compareChars a.letters b.letters :=
    { eq_swap := Std.OrientedCmp.eq_swap, isLE_trans := TransCmp.isLE_trans }
  rw [Component.compare_eq]
  infer_instance

/-- Rank and text tell a component. -/
theorem Component.eq_of_rank_of_letters {a b : Component} (hr : a.rank = b.rank)
    (hl : a.letters = b.letters) : a = b := by
  cases a <;> cases b <;> simp_all [rank, letters]

instance : LawfulEqCmp Component.compare where
  eq_of_compare {a b} h := by
    rw [Component.compare_eq, compareLex_eq_eq] at h
    exact Component.eq_of_rank_of_letters (Nat.compare_eq_eq.mp h.1) (eq_of_compareChars h.2)

/-! ### Paths -/

theorem compareComponents_eq : compareComponents = List.compareLex Component.compare := by
  funext as bs
  induction as generalizing bs with
  | nil => cases bs <;> rfl
  | cons a as ih =>
    cases bs with
    | nil => rfl
    | cons b bs => rw [compareComponents, List.compareLex_cons_cons, ih]

instance : TransCmp compareComponents := by
  rw [compareComponents_eq]
  infer_instance

instance : LawfulEqCmp compareComponents := by
  rw [compareComponents_eq]
  infer_instance

/-- Only paths with the same components are tied. -/
theorem compare_eq_iff (p q : Path) : p.compare q = .eq ↔ p.components = q.components := by
  unfold Path.compare
  exact LawfulEqCmp.compare_eq_iff_eq

end QualityGate.Path
