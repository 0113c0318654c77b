import Mathlib.Data.List.Forall2
import QualityGate.Proofs.Sequence.StableSort

/-! Subsequences up to a relation. A list embeds into another when its elements are
related, in order, to some of the other's. Embeddings are kept by concatenation, by
filters that the relation respects, and by stable sorting along an order that the
relation respects. -/
namespace QualityGate

open List (SublistForall₂)

variable {α β ι : Type} {R : α → β → Prop}

theorem embeds_trans_sublist {xs : List α} {ys zs : List β} (h : SublistForall₂ R xs ys)
    (hs : ys.Sublist zs) : SublistForall₂ R xs zs := by
  obtain ⟨picked, hrel, hsub⟩ := List.sublistForall₂_iff.mp h
  exact List.sublistForall₂_iff.mpr ⟨picked, hrel, hsub.trans hs⟩

theorem embeds_append {xs xs' : List α} {ys ys' : List β} (h : SublistForall₂ R xs ys)
    (h' : SublistForall₂ R xs' ys') : SublistForall₂ R (xs ++ xs') (ys ++ ys') := by
  induction h with
  | nil => exact embeds_trans_sublist h' (List.sublist_append_right _ _)
  | cons hab _ ih => exact .cons hab ih
  | cons_right _ ih => exact .cons_right ih

theorem embeds_flatMap {xs : List ι} {f : ι → List α} {g : ι → List β}
    (h : ∀ x ∈ xs, SublistForall₂ R (f x) (g x)) :
    SublistForall₂ R (xs.flatMap f) (xs.flatMap g) := by
  induction xs with
  | nil => exact .nil
  | cons x xs ih =>
    simp only [List.flatMap_cons]
    exact embeds_append (h x (by simp)) (ih fun y hy => h y (by simp [hy]))

theorem embeds_filter {p : α → Bool} {q : β → Bool} (hpq : ∀ a b, R a b → p a = q b)
    {xs : List α} {ys : List β} (h : SublistForall₂ R xs ys) :
    SublistForall₂ R (xs.filter p) (ys.filter q) := by
  induction h with
  | nil => exact .nil
  | @cons a b xs ys hab _ ih =>
    simp only [List.filter_cons, hpq a b hab]
    split_ifs
    · exact .cons hab ih
    · exact ih
  | @cons_right b xs ys _ ih =>
    rw [List.filter_cons]
    split_ifs
    · exact .cons_right ih
    · exact ih

theorem embeds_map {γ δ : Type} {S : γ → δ → Prop} {f : α → γ} {g : β → δ}
    (hfg : ∀ a b, R a b → S (f a) (g b)) {xs : List α} {ys : List β} (h : SublistForall₂ R xs ys) :
    SublistForall₂ S (xs.map f) (ys.map g) := by
  induction h with
  | nil => exact .nil
  | cons hab _ ih => exact .cons (hfg _ _ hab) ih
  | cons_right _ ih => exact .cons_right ih

theorem exists_of_embeds {xs : List α} {ys : List β} (h : SublistForall₂ R xs ys) {a : α}
    (ha : a ∈ xs) : ∃ b ∈ ys, R a b := by
  induction h with
  | nil => simp at ha
  | @cons a' b xs ys hab _ ih =>
    rcases List.mem_cons.mp ha with rfl | hrest
    · exact ⟨b, by simp, hab⟩
    · obtain ⟨b', hb', hab'⟩ := ih hrest
      exact ⟨b', by simp [hb'], hab'⟩
  | cons_right _ ih =>
    obtain ⟨b', hb', hab'⟩ := ih ha
    exact ⟨b', by simp [hb'], hab'⟩

section Sorting

variable (le : α → α → Prop) [DecidableRel le] [IsTrans α le] [Std.Total le]

/-- Sorting along an order that the relation respects keeps an embedding. -/
theorem embeds_mergeSort {R : α → α → Prop}
    (hle : ∀ a a' b b', R a b → R a' b' → (le a a' ↔ le b b')) {xs ys : List α}
    (h : SublistForall₂ R xs ys) :
    SublistForall₂ R (xs.mergeSort (le · ·)) (ys.mergeSort (le · ·)) := by
  induction h with
  | nil => simpa using SublistForall₂.nil
  | @cons a b xs ys hab _ ih =>
    rw [mergeSort_cons_filter, mergeSort_cons_filter]
    refine embeds_append (embeds_filter (fun a' b' h' => ?_) ih)
      (.cons hab (embeds_filter (fun a' b' h' => ?_) ih))
    · simp only [hle a a' b b' hab h']
    · simp only [hle a a' b b' hab h']
  | @cons_right b xs ys _ ih =>
    obtain ⟨before, after, hcons, htail, -⟩ := mergeSort_cons_eq le b ys
    rw [htail] at ih
    rw [hcons]
    exact embeds_trans_sublist ih (List.Sublist.append_left (List.sublist_cons_self b after) before)

end Sorting

end QualityGate
