import QualityGate.Proofs.Lowering.Simulation

/-! Lowering without a limit. It counts the levels that it opens, one inside the other, and a
limit changes nothing but this: where more levels are needed than there may be, there is no
result. -/
namespace QualityGate.Python

/-- A result and the number of levels, one inside the other, that it took. -/
structure Counted (α : Type) where
  value : α
  levels : Nat
deriving Repr

namespace Counted

variable {α : Type}

instance [Inhabited α] : Inhabited (Counted α) := ⟨default, 0⟩

/-- Of two computations in a row, the one with more levels counts. -/
instance : Monad Counted where
  pure a := ⟨a, 0⟩
  bind x f := ⟨(f x.value).value, max x.levels (f x.value).levels⟩

/-- The result of a computation inside one more level. -/
def deeper (x : Counted α) : Counted α := ⟨x.value, x.levels + 1⟩

/-- The result, if no more levels than a limit were needed. -/
def within (limit : Nat) (x : Counted α) : Option α :=
  if x.levels ≤ limit then some x.value else none

theorem within_eq_none {limit : Nat} {x : Counted α} :
    x.within limit = none ↔ limit < x.levels := by
  simp [within]

theorem within_eq_some {limit : Nat} {x : Counted α} {a : α} :
    x.within limit = some a ↔ x.levels ≤ limit ∧ x.value = a := by
  simp [within]

theorem within_zero_deeper (x : Counted α) : x.deeper.within 0 = none := rfl

theorem within_succ_deeper (limit : Nat) (x : Counted α) :
    x.deeper.within (limit + 1) = x.within limit := by
  simp [within, deeper]

end Counted

namespace Simulates

/-- Computations are alike when they are equal. -/
theorem equality {m : Type → Type} [Monad m] : Simulates fun α (x y : m α) => x = y where
  pure _ := rfl
  bind hxy hfg := by rw [hxy, funext hfg]

/-- What a limit leaves of two computations in a row is what it leaves of each, in a row. -/
theorem within (limit : Nat) :
    Simulates fun α (x : Counted α) (y : Option α) => y = x.within limit where
  pure _ := rfl
  bind {α β x y f g} hxy hfg := by
    have hmax : (x >>= f).levels ≤ limit ↔
        x.levels ≤ limit ∧ (f x.value).levels ≤ limit := Nat.max_le
    rw [hxy, Counted.within, Counted.within]
    by_cases hx : x.levels ≤ limit
    · rw [if_pos hx, Option.bind_eq_bind, Option.bind_some, hfg, Counted.within]
      simp only [hmax, hx, true_and]
      rfl
    · rw [if_neg hx, if_neg (fun h => hx (hmax.mp h).1)]
      rfl

end Simulates

namespace Lowering

/-! ### Trees -/

/-- Only smaller subtrees are ever reached from a level, whatever the others become. -/
theorem level_of_smaller {m : Type → Type} [Monad m] (source : Array Char) (f : Subtree → m Node)
    (other : m Node) (t : Subtree) :
    level source (fun s => if _h : s.weight < t.weight then f s else other) t =
      level source f t := by
  have hsmaller : ∀ s, s.weight < t.weight →
      (if _h : s.weight < t.weight then f s else other) = f s := fun s hs => dif_pos hs
  exact Simulates.equality.level source hsmaller (Nat.le_refl _)

/-- The node of a subtree, whatever number of levels it takes. Nothing is cut off here: see
`unlimited_eq`. -/
def unlimited (source : Array Char) (t : Subtree) : Counted Node :=
  (level source (fun s => if _h : s.weight < t.weight then unlimited source s else default)
    t).deeper
termination_by t.weight

/-- A subtree opens one level around what its parts need. -/
theorem unlimited_eq (source : Array Char) (t : Subtree) :
    unlimited source t = (level source (unlimited source) t).deeper := by
  rw [unlimited, level_of_smaller]

/-- A limit on the levels only decides whether there is a result. -/
theorem lower_eq_within (source : Array Char) (limit : Nat) (t : Subtree) :
    lower source limit t = (unlimited source t).within limit := by
  -- A level takes one from the limit and adds one to the count.
  induction limit generalizing t with
  | zero => rw [lower, unlimited_eq, Counted.within_zero_deeper]
  | succ limit ih =>
    rw [lower, unlimited_eq, Counted.within_succ_deeper]
    exact (Simulates.within limit).level source (fun s _ => ih s) (Nat.le_refl _)

/-! ### Modules -/

/-- The statements of a whole tree, whatever number of levels they take. -/
def unlimitedStatements (source : Array Char) (c : Cst) : Counted (List Node) :=
  all (unlimited source) c.parts

theorem statements_eq_within (source : Array Char) (c : Cst) :
    statements source c = (unlimitedStatements source c).within maxLevels :=
  (Simulates.within maxLevels).mapM fun d _ => lower_eq_within source maxLevels (.whole d)

end Lowering

end QualityGate.Python
