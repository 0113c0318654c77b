/-! Sums of counts. -/
namespace QualityGate

/-- The sum of some counts. -/
def total (ns : List Nat) : Nat := ns.foldr (· + ·) 0

@[simp] theorem total_nil : total [] = 0 := rfl

@[simp] theorem total_cons (n : Nat) (ns : List Nat) : total (n :: ns) = n + total ns := rfl

theorem total_singleton (n : Nat) : total [n] = n := rfl

@[simp] theorem total_append (ms ns : List Nat) : total (ms ++ ns) = total ms + total ns := by
  induction ms with
  | nil => simp
  | cons m ms ih => simp [ih, Nat.add_assoc]

theorem total_le_of_sublist {ms ns : List Nat} (h : ms.Sublist ns) : total ms ≤ total ns := by
  induction h with
  | slnil => exact Nat.le_refl _
  | cons n _ ih => exact Nat.le_trans ih (Nat.le_add_left _ n)
  | cons_cons n _ ih => exact Nat.add_le_add_left ih n

theorem le_total_of_mem {n : Nat} {ns : List Nat} (h : n ∈ ns) : n ≤ total ns :=
  total_le_of_sublist (List.singleton_sublist.mpr h)

variable {α β : Type}

/-- A sum of counts that are all bounded is bounded by the number of them. -/
theorem total_map_le_mul {xs : List α} {w : α → Nat} {d : Nat} (h : ∀ x ∈ xs, w x ≤ d) :
    total (xs.map w) ≤ xs.length * d := by
  induction xs with
  | nil => exact Nat.zero_le _
  | cons x xs ih =>
    have hx := h x (by simp)
    have hxs := ih fun y hy => h y (by simp [hy])
    rw [List.map_cons, total_cons, List.length_cons, Nat.succ_mul]
    omega

theorem total_map_add (xs : List α) (v w : α → Nat) :
    total (xs.map fun x => v x + w x) = total (xs.map v) + total (xs.map w) := by
  induction xs with
  | nil => rfl
  | cons x xs ih =>
    simp only [List.map_cons, total_cons, ih]
    omega

theorem total_map_const_add (xs : List α) (k : Nat) (w : α → Nat) :
    total (xs.map fun x => k + w x) = k * xs.length + total (xs.map fun x => w x) := by
  induction xs with
  | nil => rfl
  | cons x xs ih =>
    simp only [List.map_cons, total_cons, List.length_cons, ih, Nat.mul_succ]
    omega

theorem total_map_eq_zero {xs : List α} {w : α → Nat} (h : ∀ x ∈ xs, w x = 0) :
    total (xs.map w) = 0 := by
  induction xs with
  | nil => rfl
  | cons x xs ih =>
    rw [List.map_cons, total_cons, h x (by simp), ih fun y hy => h y (by simp [hy])]

/-- Two sums over items that differ at one place differ by what counts there. -/
theorem total_map_set {xs : List α} {i : Nat} (hi : i < xs.length) (x y : α) (w : α → Nat) :
    total ((xs.set i x).map w) + w y = total ((xs.set i y).map w) + w x := by
  induction xs generalizing i with
  | nil => exact absurd hi (Nat.not_lt_zero i)
  | cons z xs ih =>
    cases i with
    | zero =>
      simp only [List.set_cons_zero, List.map_cons, total_cons]
      omega
    | succ i =>
      have hrest := ih (Nat.lt_of_succ_lt_succ hi)
      simp only [List.set_cons_succ, List.map_cons, total_cons]
      omega

/-- Where only one item counts, the sum is what it counts. -/
theorem total_map_single {xs : List α} {x : α} {w : α → Nat} (hxs : xs.Nodup) (hx : x ∈ xs)
    (h : ∀ y ∈ xs, y ≠ x → w y = 0) : total (xs.map w) = w x := by
  induction xs with
  | nil => simp at hx
  | cons y xs ih =>
    obtain ⟨hy, hnodup⟩ := List.nodup_cons.mp hxs
    rw [List.map_cons, total_cons]
    rcases List.mem_cons.mp hx with rfl | hx
    · rw [total_map_eq_zero fun z hz => h z (by simp [hz]) fun heq => hy (heq ▸ hz), Nat.add_zero]
    · rw [h y (by simp) fun heq => hy (heq ▸ hx), ih hnodup hx fun z hz => h z (by simp [hz]),
        Nat.zero_add]

theorem total_map_flatMap (xs : List α) (f : α → List β) (w : β → Nat) :
    total ((xs.flatMap f).map w) = total (xs.map fun x => total ((f x).map w)) := by
  induction xs with
  | nil => rfl
  | cons x xs ih => simp [ih]

theorem total_map_flatten (xss : List (List α)) (w : α → Nat) :
    total (xss.flatten.map w) = total (xss.map fun xs => total (xs.map w)) := by
  induction xss with
  | nil => rfl
  | cons xs xss ih =>
    rw [List.flatten_cons, List.map_append, total_append, List.map_cons, total_cons, ih]

theorem total_map_reverse (xs : List α) (w : α → Nat) :
    total (xs.reverse.map w) = total (xs.map w) := by
  induction xs with
  | nil => rfl
  | cons x xs ih =>
    simp only [List.reverse_cons, List.map_append, total_append, ih, List.map_cons, List.map_nil,
      total_cons, total_nil]
    omega

/-- A sum over what passes a test leaves out only what counts nothing. -/
theorem total_map_filter {xs : List α} {p : α → Bool} {w : α → Nat}
    (h : ∀ x ∈ xs, p x = false → w x = 0) : total ((xs.filter p).map w) = total (xs.map w) := by
  induction xs with
  | nil => rfl
  | cons x xs ih =>
    have ih := ih fun y hy => h y (by simp [hy])
    cases hp : p x with
    | true =>
      rw [List.filter_cons_of_pos hp, List.map_cons, List.map_cons, total_cons, ih, total_cons]
    | false =>
      have hx := h x (by simp) hp
      rw [List.filter_cons_of_neg (by simp [hp]), List.map_cons, total_cons, ih, hx, Nat.zero_add]

theorem total_map_filter_filter {xs : List α} (p : α → Bool) {q : α → Bool} {w : α → Nat}
    (h : ∀ x ∈ xs, q x = false → w x = 0) :
    total (((xs.filter q).filter p).map w) = total ((xs.filter p).map w) := by
  have hswap : (xs.filter q).filter p = (xs.filter p).filter q := by
    rw [List.filter_filter, List.filter_filter]
    exact List.filter_congr fun x _ => Bool.and_comm _ _
  rw [hswap]
  exact total_map_filter fun x hx => h x (List.mem_filter.mp hx).1

/-- Two tests that nothing passes both of share out a part of a sum. -/
theorem total_map_filter_add_le {p q : α → Bool} (h : ∀ x, p x → q x = false) (xs : List α)
    (w : α → Nat) :
    total ((xs.filter p).map w) + total ((xs.filter q).map w) ≤ total (xs.map w) := by
  induction xs with
  | nil => exact Nat.le_refl 0
  | cons x xs ih =>
    rw [List.map_cons, total_cons]
    cases hp : p x with
    | true =>
      rw [List.filter_cons_of_pos hp, List.filter_cons_of_neg (by simp [h x hp]), List.map_cons,
        total_cons]
      omega
    | false =>
      rw [List.filter_cons_of_neg (by simp [hp]), List.filter_cons]
      split
      · rw [List.map_cons, total_cons]
        omega
      · omega

theorem total_map_succ_of (xs : List α) (p : α → Bool) (w : α → Nat) :
    total (xs.map fun x => if p x then 1 + w x else 0) =
      xs.countP p + total ((xs.filter p).map w) := by
  induction xs with
  | nil => rfl
  | cons x xs ih =>
    cases hp : p x with
    | true => simp [hp, ih]; omega
    | false => simp [hp, ih]

/-- A sum may be taken class by class where all that counts is in just one class. -/
theorem total_map_classes (ps : List (α → Bool)) {xs : List α} {w : α → Nat}
    (h : ∀ x ∈ xs, w x = total (ps.map fun p => if p x then w x else 0)) :
    total (xs.map w) = total (ps.map fun p => total ((xs.filter p).map w)) := by
  induction xs with
  | nil => exact (total_map_eq_zero fun _ _ => rfl).symm
  | cons x xs ih =>
    have hclass : ∀ p : α → Bool, total (((x :: xs).filter p).map w) =
        (if p x then w x else 0) + total ((xs.filter p).map w) := by
      intro p
      rw [List.filter_cons]
      split
      · rw [List.map_cons, total_cons]
      · rw [Nat.zero_add]
    simp only [hclass]
    rw [total_map_add, ← h x (by simp), ← ih fun y hy => h y (by simp [hy]), List.map_cons,
      total_cons]

end QualityGate
