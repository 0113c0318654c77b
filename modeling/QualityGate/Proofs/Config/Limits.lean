import QualityGate.Proofs.Sequence.Traversal
import QualityGate.Thresholds

/-! Layers of limits. What a user wrote is checked limit by limit, so the first negative one is the
error, and otherwise every limit is the one written or the one below it. Two layers are one layer,
in which the later one wins; this hides what is negative in the earlier one. -/
namespace QualityGate

namespace PerLimit

variable {ε α : Type}

/-- Filling a table is a traversal of the limits in their order. -/
theorem map_ofFnM {m : Type → Type} [Monad m] [LawfulMonad m] (g : Limit → m α) :
    (fun t => Limit.all.map t.get) <$> ofFnM g = Limit.all.mapM g := by
  simp only [ofFnM, Limit.all, List.mapM_cons, List.mapM_nil, map_bind, map_pure, bind_assoc,
    pure_bind]
  rfl

theorem ofFnM_eq_ok {g : Limit → Except ε α} {t : PerLimit α} (h : ∀ l, g l = .ok (t.get l)) :
    ofFnM g = .ok t := by
  rw [show g = fun l => .ok (t.get l) from funext h]
  rfl

/-- A table cannot be filled if some limit fails, and the first one that does is the error. -/
theorem ofFnM_eq_error {g : Limit → Except ε α} {before after : List Limit} {l : Limit} {err : ε}
    (hall : Limit.all = before ++ l :: after) (hbefore : ∀ l' ∈ before, ∃ a, g l' = .ok a)
    (hl : g l = .error err) : ofFnM g = .error err := by
  have htraversal := map_ofFnM g
  rw [hall, mapM_eq_error hbefore hl] at htraversal
  cases hfilled : ofFnM g with
  | error err' =>
    rw [hfilled] at htraversal
    exact congrArg _ (Except.error.inj htraversal)
  | ok t =>
    rw [hfilled] at htraversal
    cases htraversal

end PerLimit

namespace Overrides

variable {o earlier later : Overrides}

/-! ### Negative limits -/

def negativeAt? (o : Overrides) (l : Limit) : Option NegativeLimit :=
  (o.get l).bind fun v => if v < 0 then some ⟨l, v⟩ else none

/-- The first limit in the order of the limits that has a negative value. -/
def firstNegative? (o : Overrides) : Option NegativeLimit := Limit.all.findSome? o.negativeAt?

theorem negativeAt?_eq_none_iff {l : Limit} :
    o.negativeAt? l = none ↔ ∀ v, o.get l = some v → 0 ≤ v := by
  unfold negativeAt?
  cases o.get l <;> simp

theorem negativeAt?_eq_some_iff {l : Limit} {e : NegativeLimit} :
    o.negativeAt? l = some e ↔ e.limit = l ∧ o.get l = some e.value ∧ e.value < 0 := by
  unfold negativeAt?
  cases o.get l with
  | none => simp
  | some v =>
    obtain ⟨l', v'⟩ := e
    simp only [Option.bind_some, Option.ite_none_right_eq_some, Option.some.injEq,
      NegativeLimit.mk.injEq]
    constructor
    · rintro ⟨hv, rfl, rfl⟩
      exact ⟨rfl, rfl, hv⟩
    · rintro ⟨rfl, rfl, hv⟩
      exact ⟨hv, rfl, rfl⟩

/-- There is a first negative limit unless all limits that are written are natural numbers. -/
theorem firstNegative?_eq_none_iff :
    o.firstNegative? = none ↔ ∀ l v, o.get l = some v → 0 ≤ v := by
  rw [firstNegative?, List.findSome?_eq_none_iff]
  simp only [negativeAt?_eq_none_iff, Limit.mem_all, forall_const]

/-! ### One layer -/

/-- The limits that are written, and below them those of a base. -/
def onto (o : Overrides) (base : Thresholds) : Thresholds :=
  .ofFn fun l => ((o.get l).map Int.toNat).getD (base.get l)

theorem get_onto (h : o.firstNegative? = none) (base : Thresholds) (l : Limit) :
    ((o.onto base).get l : Int) = (o.get l).getD (base.get l) := by
  rw [onto, PerLimit.get_ofFn]
  cases hwritten : o.get l with
  | none => rfl
  | some v => exact Int.toNat_of_nonneg (firstNegative?_eq_none_iff.mp h l v hwritten)

theorem resolve_of_negative {l : Limit} {e : NegativeLimit} (h : o.negativeAt? l = some e)
    (base : Thresholds) : o.resolve base l = .error e := by
  obtain ⟨rfl, hwritten, hnegative⟩ := negativeAt?_eq_some_iff.mp h
  unfold resolve
  split
  · next hnone =>
    rw [hwritten] at hnone
    cases hnone
  · next n hn =>
    rw [hwritten] at hn
    obtain heq := Option.some.inj hn
    rw [heq] at hnegative
    exact absurd hnegative (by simp)
  · next v _ hv =>
    rw [hwritten] at hv
    rw [← Option.some.inj hv]

theorem resolve_of_not_negative {l : Limit} (h : o.negativeAt? l = none) (base : Thresholds) :
    o.resolve base l = .ok ((o.onto base).get l) := by
  rw [negativeAt?_eq_none_iff] at h
  rw [onto, PerLimit.get_ofFn]
  unfold resolve
  split
  · next hnone => rw [hnone]; rfl
  · next n hn => rw [hn]; rfl
  · next v hnatural hv =>
    obtain ⟨n, rfl⟩ := Int.eq_ofNat_of_zero_le (h v hv)
    exact (hnatural n rfl).elim

/-- A layer is applied unless a limit is negative; the first such is the error. -/
theorem apply_eq (o : Overrides) (base : Thresholds) :
    o.apply base = match o.firstNegative? with
      | some e => .error e
      | none => .ok (o.onto base) := by
  cases hfirst : o.firstNegative? with
  | none =>
    have hnone := List.findSome?_eq_none_iff.mp hfirst
    exact PerLimit.ofFnM_eq_ok fun l => resolve_of_not_negative (hnone l (Limit.mem_all l)) base
  | some e =>
    obtain ⟨before, l, after, hall, hl, hbefore⟩ := List.findSome?_eq_some_iff.mp hfirst
    exact PerLimit.ofFnM_eq_error hall
      (fun l' hl' => ⟨_, resolve_of_not_negative (hbefore l' hl') base⟩)
      (resolve_of_negative hl base)

theorem firstNegative?_of_apply {base t : Thresholds} (h : o.apply base = .ok t) :
    o.firstNegative? = none := by
  rw [apply_eq] at h
  split at h
  · cases h
  · assumption

/-! ### Two layers -/

theorem mergedWith_assoc (a b c : Overrides) :
    (a.mergedWith b).mergedWith c = a.mergedWith (b.mergedWith c) :=
  PerLimit.ext_get fun l => by simp only [mergedWith_get, Option.or_assoc]

theorem empty_mergedWith (o : Overrides) : empty.mergedWith o = o :=
  PerLimit.ext_get fun l => by simp [empty]

theorem mergedWith_empty (o : Overrides) : o.mergedWith empty = o :=
  PerLimit.ext_get fun l => by simp [empty]

/-- Over a layer without negative limits, only those of the later one count. -/
theorem firstNegative?_mergedWith (h : earlier.firstNegative? = none) :
    (earlier.mergedWith later).firstNegative? = later.firstNegative? := by
  have hat : (earlier.mergedWith later).negativeAt? = later.negativeAt? := by
    funext l
    have hl := List.findSome?_eq_none_iff.mp h l (Limit.mem_all l)
    unfold negativeAt? at hl ⊢
    rw [mergedWith_get]
    cases later.get l with
    | none => exact hl
    | some v => rfl
  rw [firstNegative?, hat, firstNegative?]

theorem onto_mergedWith (base : Thresholds) :
    (earlier.mergedWith later).onto base = later.onto (earlier.onto base) := by
  refine PerLimit.ext_get fun l => ?_
  simp only [onto, PerLimit.get_ofFn, mergedWith_get]
  cases later.get l <;> rfl

/-- Two layers as one are applied like one after the other, unless the earlier one fails: then the
later one can make good what is negative. -/
theorem apply_mergedWith (h : earlier.firstNegative? = none) (base : Thresholds) :
    (earlier.mergedWith later).apply base = (earlier.apply base).bind later.apply := by
  rw [apply_eq, apply_eq earlier, h, firstNegative?_mergedWith h, onto_mergedWith]
  exact (apply_eq later _).symm

end Overrides

end QualityGate
