import Mathlib.Data.List.Nodup

/-! Lists whose elements have a key. Lists that list the same elements under every key, in the
same order, are permutations of each other, and of elements with the same key a list can keep the
first one only. -/
namespace QualityGate

variable {α β κ : Type}

/-- Lists that agree on every key hold the same elements, each as often. -/
theorem perm_of_filter_eq [DecidableEq α] [DecidableEq κ] (key : α → κ) {xs ys : List α}
    (h : ∀ k, xs.filter (key · = k) = ys.filter (key · = k)) : xs.Perm ys := by
  rw [List.perm_iff_count]
  intro a
  have hcount : ∀ zs : List α, (zs.filter (key · = key a)).count a = zs.count a := fun zs =>
    List.count_filter (decide_eq_true rfl)
  rw [← hcount xs, h (key a), hcount ys]

/-- Where no two elements have the same key, what is listed for one key is listed for one
element. -/
theorem flatMap_ite_key [DecidableEq κ] {key : α → κ} {f : α → List β} {xs : List α}
    (h : (xs.map key).Nodup) {x : α} (hx : x ∈ xs) :
    (xs.flatMap fun y => if key y = key x then f y else []) = f x := by
  induction xs with
  | nil => simp at hx
  | cons y ys ih =>
    rw [List.map_cons, List.nodup_cons] at h
    rw [List.flatMap_cons]
    rcases List.mem_cons.mp hx with rfl | hmem
    · have hrest : (ys.flatMap fun y => if key y = key x then f y else []) = [] := by
        rw [List.flatMap_eq_nil_iff]
        intro y hy
        refine if_neg fun heq => h.1 ?_
        rw [← heq]
        exact List.mem_map_of_mem hy
      rw [if_pos rfl, hrest, List.append_nil]
    · have hne : key y ≠ key x := by
        intro heq
        rw [heq] at h
        exact h.1 (List.mem_map_of_mem hmem)
      rw [if_neg hne, List.nil_append, ih h.2 hmem]

/-- A list is what it holds under one key after the other. -/
theorem perm_flatMap_filter_key [DecidableEq κ] {key : α → κ} {ks : List κ} (hks : ks.Nodup)
    {xs : List α} (h : ∀ x ∈ xs, key x ∈ ks) :
    xs.Perm (ks.flatMap fun k => xs.filter (key · = k)) := by
  induction ks generalizing xs with
  | nil =>
    have hnil : xs = [] := List.eq_nil_iff_forall_not_mem.mpr fun x hx => by simpa using h x hx
    rw [hnil, List.flatMap_nil]
  | cons k ks ih =>
    obtain ⟨hk, hnodup⟩ := List.nodup_cons.mp hks
    have hrest : (xs.filter fun x => !decide (key x = k)).Perm
        (ks.flatMap fun j => xs.filter (key · = j)) := by
      have hkeys : ∀ x ∈ xs.filter fun x => !decide (key x = k), key x ∈ ks := by
        intro x hx
        obtain ⟨hx, hne⟩ := List.mem_filter.mp hx
        exact (List.mem_cons.mp (h x hx)).resolve_left (by simpa using hne)
      refine (ih hnodup hkeys).trans (.of_eq (List.flatMap_congr fun j hj => ?_))
      rw [List.filter_filter]
      refine List.filter_congr fun x _ => ?_
      by_cases heq : key x = j
      · have hne : j ≠ k := fun hjk => hk (hjk ▸ hj)
        simp [heq, hne]
      · simp [heq]
    rw [List.flatMap_cons]
    exact (List.filter_append_perm (key · = k) xs).symm.trans (hrest.append_left _)

/-! ### The first element of each key -/

section First

variable [DecidableEq κ] {key : α → κ}

/-- What holds of a list when it holds of its tail without the key of its head holds of every
list. -/
theorem induction_on_keys (key : α → κ) {P : List α → Prop} (nil : P [])
    (cons : ∀ x xs, P (xs.filter (key · ≠ key x)) → P (x :: xs)) : ∀ xs, P xs
  | [] => nil
  | x :: xs =>
    have := List.length_filter_le (key · ≠ key x) xs
    cons x xs (induction_on_keys key nil cons _)
termination_by xs => xs.length
decreasing_by
  rw [List.length_cons]
  omega

theorem eraseDupsBy_key_cons (x : α) (xs : List α) :
    (x :: xs).eraseDupsBy (key · == key ·) =
      x :: (xs.filter (key · ≠ key x)).eraseDupsBy (key · == key ·) := by
  rw [List.eraseDupsBy_cons]
  congr 2
  refine List.filter_congr fun y _ => ?_
  simp

theorem mem_of_mem_eraseDupsBy {x : α} {xs : List α}
    (h : x ∈ xs.eraseDupsBy (key · == key ·)) : x ∈ xs := by
  induction xs using induction_on_keys key with
  | nil => simp at h
  | cons y ys ih =>
    rw [eraseDupsBy_key_cons] at h
    rcases List.mem_cons.mp h with rfl | hmem
    · exact List.mem_cons_self
    · exact List.mem_cons_of_mem _ (List.mem_filter.mp (ih hmem)).1

theorem nodup_map_eraseDupsBy (xs : List α) :
    ((xs.eraseDupsBy (key · == key ·)).map key).Nodup := by
  induction xs using induction_on_keys key with
  | nil => simp
  | cons y ys ih =>
    rw [eraseDupsBy_key_cons, List.map_cons, List.nodup_cons]
    refine ⟨fun hmem => ?_, ih⟩
    obtain ⟨z, hz, heq⟩ := List.mem_map.mp hmem
    simpa [heq] using (List.mem_filter.mp (mem_of_mem_eraseDupsBy hz)).2

/-- No key is lost. -/
theorem exists_mem_eraseDupsBy (key : α → κ) {x : α} {xs : List α} (hx : x ∈ xs) :
    ∃ y ∈ xs.eraseDupsBy (key · == key ·), key y = key x := by
  induction xs using induction_on_keys key with
  | nil => simp at hx
  | cons y ys ih =>
    rw [eraseDupsBy_key_cons]
    by_cases heq : key x = key y
    · exact ⟨y, List.mem_cons_self, heq.symm⟩
    · have hne : x ≠ y := fun h => heq (congrArg key h)
      have hmem : x ∈ ys.filter (key · ≠ key y) :=
        List.mem_filter.mpr ⟨List.mem_of_ne_of_mem hne hx, decide_eq_true heq⟩
      obtain ⟨z, hz, hkey⟩ := ih hmem
      exact ⟨z, List.mem_cons_of_mem _ hz, hkey⟩

end First

end QualityGate
