import Mathlib.Data.List.Infix
import Mathlib.Data.List.Nodup
import QualityGate.Rule.Purity

/-! The category of a call. The call table is asked for the texts that occur in the name of the
callee, from its first row on, and the last segment of the name adds nothing to this, because it
occurs in the name itself. The module table is asked for the text before the first dot, and only
when no text of the call table occurs. A longer name holds the texts of a shorter one, so that its
category can only come earlier in the call table. -/
namespace QualityGate

namespace Rule.Purity

theorem marks_iff {callee text : String} : marks callee text ↔ text.toList <:+: callee.toList := by
  rw [marks, Bool.or_eq_true, decide_eq_true_eq, Text.contains, Text.occursIn_iff_isInfix]
  constructor
  · rintro (rfl | hin)
    · exact DottedName.last_isInfix callee
    · exact hin
  · exact .inr

/-! ### First rows -/

/-- A category is the first one of a table that lists a text with some property. -/
def IsFirst (table : List (Kind × List String)) (P : String → Prop) (k : Kind) : Prop :=
  ∃ before texts behind, table = before ++ (k, texts) :: behind ∧ (∃ t ∈ texts, P t) ∧
    ∀ row ∈ before, ∀ t ∈ row.2, ¬P t

section First

variable {table : List (Kind × List String)} {p : Kind × List String → Bool} {P : String → Prop}
  (hp : ∀ row, p row ↔ ∃ t ∈ row.2, P t)
include hp

theorem map_find?_eq_some_iff {k : Kind} :
    (table.find? p).map (·.1) = some k ↔ IsFirst table P k := by
  have hnone : ∀ row, !p row ↔ ∀ t ∈ row.2, ¬P t := by
    intro row
    rw [Bool.not_eq_true', ← Bool.not_eq_true, hp]
    simp
  simp only [Option.map_eq_some_iff, List.find?_eq_some_iff_append, hp, hnone]
  constructor
  · rintro ⟨⟨k', texts⟩, ⟨hrow, before, behind, htable, hbefore⟩, rfl⟩
    exact ⟨before, texts, behind, htable, hrow, hbefore⟩
  · rintro ⟨before, texts, behind, htable, hrow, hbefore⟩
    exact ⟨(k, texts), ⟨hrow, before, behind, htable, hbefore⟩, rfl⟩

theorem find?_eq_none_iff : table.find? p = none ↔ ∀ row ∈ table, ∀ t ∈ row.2, ¬P t := by
  simp [List.find?_eq_none, hp]

end First

/-- Where every category has one row, the place of the first one is that of its row. -/
theorem idxOf_of_find? {table : List (Kind × List String)} {p : Kind × List String → Bool}
    (hnodup : (table.map (·.1)).Nodup) {row : Kind × List String} (h : table.find? p = some row) :
    (table.map (·.1)).idxOf row.1 = table.findIdx p := by
  rw [List.find?_eq_getElem?_findIdx] at h
  have hplace : (table.map (·.1))[table.findIdx p]? = some row.1 := by
    rw [List.getElem?_map, h]
    rfl
  obtain ⟨hlt, heq⟩ := List.getElem?_eq_some_iff.mp hplace
  rw [← heq]
  exact hnodup.idxOf_getElem _ hlt

/-! ### Calls -/

theorem any_marks_iff {callee : String} {row : Kind × List String} :
    row.2.any (marks callee) ↔ ∃ t ∈ row.2, t.toList <:+: callee.toList := by
  simp only [List.any_eq_true, marks_iff]

theorem contains_root_iff {callee : String} {row : Kind × List String} :
    row.2.contains (DottedName.root callee) ↔
      ∃ t ∈ row.2, t.toList = callee.toList.takeWhile (· ≠ '.') := by
  rw [List.contains_iff_mem, ← DottedName.toList_root]
  simp [String.toList_inj]

/-- The call table decides where one of its texts occurs, and the module table elsewhere. -/
theorem classifyCall_eq_some_iff {callee : String} {k : Kind} : classifyCall callee = some k ↔
    IsFirst callTable (·.toList <:+: callee.toList) k ∨
      (∀ row ∈ callTable, ∀ t ∈ row.2, ¬t.toList <:+: callee.toList) ∧
        IsFirst moduleTable (·.toList = callee.toList.takeWhile (· ≠ '.')) k := by
  rw [← map_find?_eq_some_iff fun _ => any_marks_iff,
    ← map_find?_eq_some_iff fun _ => contains_root_iff, ← find?_eq_none_iff fun _ => any_marks_iff,
    classifyCall]
  cases callTable.find? fun row => row.2.any (marks callee) with
  | none => simp
  | some row => simp

-- what the call table says of a method goes before what is said of its module
example : classifyCall "os.getcwd" = some .fileAccess ∧
    classifyCall "os.system" = some .subprocess := by decide +kernel

/-- The place of a category in the call table. -/
def callPlace (k : Kind) : Nat := (callTable.map (·.1)).idxOf k

/-- A callee that some text of the call table occurs in has a category of this table. -/
theorem exists_classifyCall {callee : String}
    (h : ∃ row ∈ callTable, ∃ t ∈ row.2, t.toList <:+: callee.toList) :
    ∃ k, classifyCall callee = some k ∧
      callPlace k = callTable.findIdx fun row => row.2.any (marks callee) := by
  have hsome : (callTable.find? fun row => row.2.any (marks callee)).isSome := by
    obtain ⟨row, hrow, hmarks⟩ := h
    exact List.find?_isSome.mpr ⟨row, hrow, any_marks_iff.mpr hmarks⟩
  obtain ⟨row, hrow⟩ := Option.isSome_iff_exists.mp hsome
  have hnodup : (callTable.map (·.1)).Nodup := by decide
  refine ⟨row.1, ?_, idxOf_of_find? hnodup hrow⟩
  rw [classifyCall, hrow]
  rfl

/-- The category of a callee is that of the first row of the call table with a text that occurs in
it, which the last segment adds nothing to; if there is none, it is that of the first module row
with the text before the first dot. Whatever is written around a callee that the call table knows,
there is a category, and none that comes later in the table. -/
theorem classifyCall_canonical (callee : String) :
    (∀ k, classifyCall callee = some k ↔
      IsFirst callTable (·.toList <:+: callee.toList) k ∨
        (∀ row ∈ callTable, ∀ t ∈ row.2, ¬t.toList <:+: callee.toList) ∧
          IsFirst moduleTable (·.toList = callee.toList.takeWhile (· ≠ '.')) k) ∧
    (∀ t, DottedName.last callee = t → t.toList <:+: callee.toList) ∧
    ((∃ row ∈ callTable, ∃ t ∈ row.2, marks callee t) → ∀ before behind : String, ∃ k k',
      classifyCall callee = some k ∧ classifyCall (before ++ callee ++ behind) = some k' ∧
        callPlace k' ≤ callPlace k ∧ callPlace k < callTable.length) := by
  refine ⟨fun k => classifyCall_eq_some_iff, ?_, fun hmarks before behind => ?_⟩
  · rintro t rfl
    exact DottedName.last_isInfix callee
  · simp only [marks_iff] at hmarks
    have hwider : ∀ t : String, t.toList <:+: callee.toList →
        t.toList <:+: (before ++ callee ++ behind).toList := by
      intro t ht
      rw [String.toList_append, String.toList_append]
      exact ht.trans (List.infix_append _ _ _)
    obtain ⟨k, hk, hplace⟩ := exists_classifyCall hmarks
    obtain ⟨row, hrow, t, ht, hin⟩ := hmarks
    obtain ⟨k', hk', hplace'⟩ := exists_classifyCall ⟨row, hrow, t, ht, hwider t hin⟩
    refine ⟨k, k', hk, hk', ?_, ?_⟩
    · rw [hplace, hplace']
      refine List.findIdx_le_findIdx fun row _ hmarked => ?_
      obtain ⟨t, ht, hin⟩ := any_marks_iff.mp hmarked
      exact any_marks_iff.mpr ⟨t, ht, hwider t hin⟩
    · rw [hplace, List.findIdx_lt_length]
      exact ⟨row, hrow, any_marks_iff.mpr ⟨t, ht, hin⟩⟩

end Rule.Purity

end QualityGate
