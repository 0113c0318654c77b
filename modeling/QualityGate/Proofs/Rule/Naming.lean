import Mathlib.Data.List.Nodup
import QualityGate.Rule.Catalogue

/-! The names of the built-in rules. A rule answers to its name, its code and its family, and no
two rules share any of them, so a key names one rule at most. -/
namespace QualityGate.Rule

/-- What a rule answers to, without regard to case. -/
def spellings (r : Rule) : List (List Char) :=
  [foldCase r.name, foldCase r.code, foldCase r.family.name]

theorem foldCase_mem_spellings {r : Rule} {key : String} (h : r.answersTo key) :
    foldCase key ∈ r.spellings := by
  simp only [answersTo, Bool.or_eq_true, decide_eq_true_eq] at h
  rcases h with (rfl | h) | rfl <;> simp [spellings, *]

/-- The names of the built-in rules differ. -/
theorem nodup_names : (all.map (·.name)).Nodup := by decide

theorem eq_of_name_eq {r s : Rule} (hr : r ∈ all) (hs : s ∈ all) (h : r.name = s.name) : r = s :=
  List.inj_on_of_nodup_map nodup_names hr hs h

theorem spellings_disjoint : ∀ r ∈ all, ∀ s ∈ all, ∀ k ∈ r.spellings, k ∈ s.spellings →
    r.name = s.name := by
  decide +kernel

/-- A key names one built-in rule at most. -/
theorem eq_of_answersTo {r s : Rule} (hr : r ∈ all) (hs : s ∈ all) {key : String}
    (hrkey : r.answersTo key) (hskey : s.answersTo key) : r = s :=
  eq_of_name_eq hr hs
    (spellings_disjoint r hr s hs _ (foldCase_mem_spellings hrkey) (foldCase_mem_spellings hskey))

theorem answersTo_of_find? {r : Rule} {key : String} (h : find? key = some r) :
    r ∈ all ∧ r.answersTo key := by
  unfold find? at h
  have hkey := List.find?_some h
  exact ⟨List.mem_of_find?_eq_some h, hkey⟩

/-- Looking up a key finds the built-in rule that answers to it. -/
theorem find?_eq_some_iff {r : Rule} {key : String} :
    find? key = some r ↔ r ∈ all ∧ r.answersTo key := by
  refine ⟨answersTo_of_find?, ?_⟩
  rintro ⟨hr, hkey⟩
  cases hfind : find? key with
  | none => exact absurd hkey (List.find?_eq_none.mp hfind r hr)
  | some s =>
    obtain ⟨hs, hskey⟩ := answersTo_of_find? hfind
    rw [eq_of_answersTo hs hr hskey hkey]

/-- No rule answers to nothing. -/
theorem find?_empty : find? "" = none := by decide

end QualityGate.Rule
