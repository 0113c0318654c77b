import Mathlib.Data.List.Sort

/-! Stable sorting along a total preorder. A stable sort is sorted, and for every
element it lists those that the order does not separate from it just as the input
does. This leaves a single list, so whatever keeps sortedness and those sublists
commutes with sorting: a filter does. -/
namespace QualityGate

variable {α : Type} {le : α → α → Prop} [DecidableRel le]

/-- `ys` is `xs` in the given order, where elements that the order does not separate
keep the order that they have in `xs`. -/
structure StableSort (le : α → α → Prop) [DecidableRel le] (xs ys : List α) : Prop where
  perm : ys.Perm xs
  sorted : ys.Pairwise le
  stable : ∀ a, ys.filter (fun b => le a b ∧ le b a) = xs.filter fun b => le a b ∧ le b a

section Order

variable (le) [IsTrans α le] [Std.Total le]

/-- Sorting a longer list inserts its head before the first element that it may precede. -/
theorem mergeSort_cons_eq (a : α) (xs : List α) :
    ∃ before after, (a :: xs).mergeSort (le · ·) = before ++ a :: after ∧
      xs.mergeSort (le · ·) = before ++ after ∧ (∀ b ∈ before, ¬ le a b) ∧ ∀ b ∈ after, le a b := by
  obtain ⟨before, after, hcons, htail, hbefore⟩ := @List.mergeSort_cons _ (le · ·)
    (fun _ _ _ => by simpa using trans_of le) (fun x y => by simpa using Std.Total.total x y) a xs
  refine ⟨before, after, hcons, htail, fun b hb => by simpa using hbefore b hb, fun b hb => ?_⟩
  have hsorted := List.pairwise_mergeSort' le (a :: xs)
  rw [hcons] at hsorted
  exact List.rel_of_pairwise_cons (List.pairwise_append.mp hsorted).2.1 hb

/-- The same with the two parts as filters. -/
theorem mergeSort_cons_filter (a : α) (xs : List α) :
    (a :: xs).mergeSort (le · ·) = (xs.mergeSort (le · ·)).filter (fun b => ¬ le a b) ++
      a :: (xs.mergeSort (le · ·)).filter fun b => le a b := by
  obtain ⟨before, after, hcons, htail, hbefore, hafter⟩ := mergeSort_cons_eq le a xs
  have hb : before.filter (fun b => ¬ le a b) = before := List.filter_eq_self.mpr (by simpa using hbefore)
  have hb' : before.filter (fun b => le a b) = [] := List.filter_eq_nil_iff.mpr (by simpa using hbefore)
  have ha : after.filter (fun b => ¬ le a b) = [] := List.filter_eq_nil_iff.mpr (by simpa using hafter)
  have ha' : after.filter (fun b => le a b) = after := List.filter_eq_self.mpr (by simpa using hafter)
  rw [hcons, htail, List.filter_append, List.filter_append, hb, hb', ha, ha', List.append_nil,
    List.nil_append]

theorem filter_mergeSort_of_inseparable (a : α) (xs : List α) :
    (xs.mergeSort (le · ·)).filter (fun b => le a b ∧ le b a) =
      xs.filter fun b => le a b ∧ le b a := by
  induction xs with
  | nil => simp
  | cons x xs ih =>
    obtain ⟨before, after, hcons, htail, hbefore, -⟩ := mergeSort_cons_eq le x xs
    rw [htail] at ih
    rw [hcons, List.filter_cons, ← ih]
    simp only [List.filter_append, List.filter_cons]
    split_ifs with hx
    · -- what stands before `x` is strictly below it, and so is not tied with `a`
      have hnone : before.filter (fun b => le a b ∧ le b a) = [] := by
        rw [List.filter_eq_nil_iff]
        intro b hb hab
        simp only [decide_eq_true_eq] at hx hab
        exact hbefore b hb (trans_of le hx.2 hab.1)
      rw [hnone]
      rfl
    · rfl

variable {le}

/-- The library's merge sort is a stable sort. -/
theorem stableSort_mergeSort (xs : List α) : StableSort le xs (xs.mergeSort (le · ·)) where
  perm := List.mergeSort_perm _ _
  sorted := List.pairwise_mergeSort' le xs
  stable a := filter_mergeSort_of_inseparable le a xs

end Order

/-! ### Uniqueness -/

theorem mem_iff_of_filter_eq [Std.Refl le] {xs ys : List α}
    (h : ∀ a, xs.filter (fun b => le a b ∧ le b a) = ys.filter fun b => le a b ∧ le b a) (a : α) :
    a ∈ xs ↔ a ∈ ys := by
  have hself : ∀ zs : List α, a ∈ zs.filter (fun b => le a b ∧ le b a) ↔ a ∈ zs := fun zs => by
    simp [List.mem_filter, refl_of le a]
  rw [← hself xs, h a, hself ys]

omit [DecidableRel le] in
/-- The head of a sorted list stands at or below every element. -/
theorem head_le_of_mem [Std.Refl le] {x y : α} {xs : List α} (hs : (x :: xs).Pairwise le)
    (hy : y ∈ x :: xs) : le x y := by
  rcases List.mem_cons.mp hy with rfl | hm
  · exact refl_of le y
  · exact List.rel_of_pairwise_cons hs hm

/-- Two sorted lists are equal when they agree on every class of inseparable elements. -/
theorem eq_of_sorted_of_filter_eq [Std.Refl le] {xs ys : List α}
    (hx : xs.Pairwise le) (hy : ys.Pairwise le)
    (h : ∀ a, xs.filter (fun b => le a b ∧ le b a) = ys.filter fun b => le a b ∧ le b a) :
    xs = ys := by
  induction xs generalizing ys with
  | nil =>
    refine (List.eq_nil_iff_forall_not_mem.mpr fun a ha => ?_).symm
    simpa using (mem_iff_of_filter_eq h a).mpr ha
  | cons x xs ih =>
    cases ys with
    | nil => simpa using (mem_iff_of_filter_eq h x).mp
    | cons y ys =>
      -- each head stands below every element, so the order does not separate the two heads
      have hxy : le x y := head_le_of_mem hx ((mem_iff_of_filter_eq h y).mpr (by simp))
      have hyx : le y x := head_le_of_mem hy ((mem_iff_of_filter_eq h x).mp (by simp))
      have hheads := h x
      simp only [List.filter_cons, hxy, hyx, refl_of le x, and_self, decide_true, if_true,
        List.cons.injEq] at hheads
      obtain ⟨rfl, -⟩ := hheads
      rw [ih hx.of_cons hy.of_cons]
      intro a
      have ha := h a
      simp only [List.filter_cons] at ha
      split_ifs at ha
      · exact (List.cons.inj ha).2
      · exact ha

/-- There is only one stable sort of a list. -/
theorem StableSort.unique [Std.Refl le] {xs ys zs : List α} (hy : StableSort le xs ys)
    (hz : StableSort le xs zs) : ys = zs :=
  eq_of_sorted_of_filter_eq hy.sorted hz.sorted fun a => (hy.stable a).trans (hz.stable a).symm

/-- A filter of a stable sort is the stable sort of the filtered list. -/
theorem StableSort.filter {xs ys : List α} (h : StableSort le xs ys) (p : α → Bool) :
    StableSort le (xs.filter p) (ys.filter p) where
  perm := h.perm.filter p
  sorted := h.sorted.filter p
  stable a := by
    simp only [List.filter_filter, Bool.and_comm _ (p _)]
    rw [← List.filter_filter, ← List.filter_filter, h.stable a]

/-- Sorting a part of a list is taking that part of the sorted list. -/
theorem mergeSort_filter [IsTrans α le] [Std.Total le] (p : α → Bool) (xs : List α) :
    (xs.filter p).mergeSort (le · ·) = (xs.mergeSort (le · ·)).filter p :=
  (stableSort_mergeSort _).unique ((stableSort_mergeSort xs).filter p)

/-! ### Order of the input -/

variable {β : Type}

/-- Where at most one element has a part at all, the order of the elements does not show. -/
theorem flatMap_eq_of_perm {xs ys : List α} {f : α → List β} (h : xs.Perm ys)
    (hone : xs.Pairwise fun x y => f x = [] ∨ f y = []) : xs.flatMap f = ys.flatMap f := by
  induction h with
  | nil => rfl
  | cons x _ ih => rw [List.flatMap_cons, List.flatMap_cons, ih hone.of_cons]
  | swap x y xs =>
    have hxy := List.rel_of_pairwise_cons hone (List.mem_cons_self (a := x))
    simp only [List.flatMap_cons]
    rcases hxy with hy | hx
    · rw [hy, List.nil_append, List.nil_append]
    · rw [hx, List.nil_append, List.nil_append]
  | trans hxy _ ihxy ihyz =>
    rw [ihxy hone, ihyz ((hxy.pairwise_iff fun hor => hor.symm).mp hone)]

/-- Parts that the order of sorting separates may be listed in any order before they are sorted:
of two elements, only one has anything that is tied with a given one. -/
theorem mergeSort_flatMap_perm {le : β → β → Prop} [DecidableRel le] [IsTrans β le]
    [Std.Total le] {xs ys : List α} {f : α → List β} (h : xs.Perm ys)
    (hone : xs.Pairwise fun x y => ∀ a, (∀ b ∈ f x, ¬ (le a b ∧ le b a)) ∨
      ∀ b ∈ f y, ¬ (le a b ∧ le b a)) :
    (xs.flatMap f).mergeSort (le · ·) = (ys.flatMap f).mergeSort (le · ·) := by
  have hrefl : Std.Refl le := ⟨fun b => (Std.Total.total (r := le) b b).elim id id⟩
  have hx : StableSort le _ _ := stableSort_mergeSort (xs.flatMap f)
  have hy : StableSort le _ _ := stableSort_mergeSort (ys.flatMap f)
  refine eq_of_sorted_of_filter_eq hx.sorted hy.sorted fun a => ?_
  rw [hx.stable a, hy.stable a, List.filter_flatMap, List.filter_flatMap]
  refine flatMap_eq_of_perm h (hone.imp fun hor => ?_)
  simpa [List.filter_eq_nil_iff] using hor a

end QualityGate
