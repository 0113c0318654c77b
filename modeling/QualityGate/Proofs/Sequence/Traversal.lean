import Mathlib.Data.List.Basic
import Mathlib.Data.List.Forall2

/-! Traversals that may fail. A traversal succeeds when every element does and then lists the
results in order; it ends at the first element that fails. -/
namespace QualityGate

variable {ε α β : Type}

/-! ### With an error -/

section Error

theorem eq_ok_of_toOption {x : Except ε α} {a : α} (h : x.toOption = some a) : x = .ok a := by
  cases x with
  | error err => cases h
  | ok b => rw [Option.some.inj h]

/-- Steps in a row succeed when the first one does and the others do behind it. -/
theorem bind_eq_ok_iff {x : Except ε α} {g : α → Except ε β} {b : β} :
    x >>= g = .ok b ↔ ∃ a, x = .ok a ∧ g a = .ok b := by
  cases x with
  | error err => exact ⟨nofun, nofun⟩
  | ok a =>
    constructor
    · intro h
      exact ⟨a, rfl, h⟩
    · rintro ⟨a', ha, h⟩
      rw [Except.ok.inj ha]
      exact h

variable {f : α → Except ε β}

theorem mapM_eq_ok {g : α → β} {xs : List α} (h : ∀ x ∈ xs, f x = .ok (g x)) :
    xs.mapM f = .ok (xs.map g) := by
  induction xs with
  | nil => rfl
  | cons x xs ih =>
    rw [List.mapM_cons, h x (by simp), ih fun y hy => h y (by simp [hy])]
    rfl

/-- A traversal ends at the first element that fails. -/
theorem mapM_eq_error {before after : List α} {x : α} {err : ε}
    (hbefore : ∀ y ∈ before, ∃ b, f y = .ok b) (hx : f x = .error err) :
    (before ++ x :: after).mapM f = .error err := by
  induction before with
  | nil =>
    rw [List.nil_append, List.mapM_cons, hx]
    rfl
  | cons y before ih =>
    obtain ⟨b, hb⟩ := hbefore y (by simp)
    rw [List.cons_append, List.mapM_cons, hb, ih fun z hz => hbefore z (by simp [hz])]
    rfl

theorem exists_mapM_eq_ok_iff {xs : List α} :
    (∃ ys, xs.mapM f = .ok ys) ↔ ∀ x ∈ xs, ∃ y, f x = .ok y := by
  induction xs with
  | nil => exact ⟨fun _ => nofun, fun _ => ⟨[], rfl⟩⟩
  | cons x xs ih =>
    rw [List.forall_mem_cons, ← ih, List.mapM_cons]
    cases f x with
    | error err => exact ⟨nofun, nofun⟩
    | ok y =>
      cases xs.mapM f with
      | error err => exact ⟨nofun, nofun⟩
      | ok ys => exact ⟨fun _ => ⟨⟨y, rfl⟩, ⟨ys, rfl⟩⟩, fun _ => ⟨y :: ys, rfl⟩⟩

/-- What a traversal lists is what its elements give. -/
theorem mem_iff_of_mapM_eq_ok {xs : List α} {ys : List β} (h : xs.mapM f = .ok ys) {y : β} :
    y ∈ ys ↔ ∃ x ∈ xs, f x = .ok y := by
  induction xs generalizing ys with
  | nil =>
    obtain rfl := Except.ok.inj h
    simp
  | cons x xs ih =>
    rw [List.mapM_cons] at h
    obtain ⟨z, hz, h⟩ := bind_eq_ok_iff.mp h
    obtain ⟨zs, hzs, h⟩ := bind_eq_ok_iff.mp h
    obtain rfl := Except.ok.inj h
    simp [ih hzs, hz, eq_comm]

end Error

/-! ### Without one -/

section Failure

variable {f : α → Option β} {xs : List α} {ys : List β}

theorem mapM_eq_some_iff : xs.mapM f = some ys ↔ List.Forall₂ (fun x y => f x = some y) xs ys := by
  induction xs generalizing ys with
  | nil =>
    rw [List.forall₂_nil_left_iff]
    exact Option.some_inj.trans eq_comm
  | cons x xs ih =>
    rw [List.mapM_cons, List.forall₂_cons_left_iff]
    constructor
    · intro h
      obtain ⟨y, hy, h⟩ := Option.bind_eq_some_iff.mp h
      obtain ⟨ys', hys', h⟩ := Option.bind_eq_some_iff.mp h
      exact ⟨y, ys', hy, ih.mp hys', (Option.some.inj h).symm⟩
    · rintro ⟨y, ys', hy, hys', rfl⟩
      rw [hy, ih.mpr hys']
      rfl

/-- The result for an element stands at the element's place. -/
theorem getElem?_idxOf_of_mapM [BEq α] [LawfulBEq α] (h : xs.mapM f = some ys) {x : α}
    (hx : x ∈ xs) : ys[xs.idxOf x]? = f x ∧ (f x).isSome := by
  induction xs generalizing ys with
  | nil => simp at hx
  | cons z zs ih =>
    rw [List.mapM_cons] at h
    obtain ⟨y, hy, h⟩ := Option.bind_eq_some_iff.mp h
    obtain ⟨ys', hys', h⟩ := Option.bind_eq_some_iff.mp h
    obtain rfl := Option.some.inj h
    by_cases heq : z = x
    · subst heq
      simp [hy]
    · have hmem : x ∈ zs := List.mem_of_ne_of_mem (Ne.symm heq) hx
      rw [List.idxOf_cons_ne _ heq, List.getElem?_cons_succ]
      exact ih hys' hmem

/-- Where each result tells its element, all results tell the list. -/
theorem eq_map_of_mapM {g : β → α} (hg : ∀ x y, f x = some y → x = g y)
    (h : xs.mapM f = some ys) : xs = ys.map g := by
  induction xs generalizing ys with
  | nil =>
    obtain rfl := Option.some.inj h
    rfl
  | cons z zs ih =>
    rw [List.mapM_cons] at h
    obtain ⟨y, hy, h⟩ := Option.bind_eq_some_iff.mp h
    obtain ⟨ys', hys', h⟩ := Option.bind_eq_some_iff.mp h
    obtain rfl := Option.some.inj h
    rw [List.map_cons, ← hg z y hy, ← ih hys']

end Failure

end QualityGate
