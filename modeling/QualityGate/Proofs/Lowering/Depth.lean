import QualityGate.Proofs.Lowering.Children
import QualityGate.Proofs.Lowering.Unlimited
import QualityGate.Python.FrontEnd

/-! The limit on levels is exact. A tree whose parts need no more levels than there may be is
lowered as if there were no limit, every other one is refused. And since the children of a node
come from one level below, no path from a statement down to a node is longer than the limit. A run
that counts the levels it is in and goes on at the limit, with a mark that it was there, refuses the
same trees and makes the same of the others. -/
namespace QualityGate

/-- Nodes that follow each other from parent to child. -/
def Node.IsPath (ns : List Node) : Prop := ns.IsChain fun parent child => child ∈ parent.children

/-- The node that a subtree starts at. -/
def Python.Subtree.place : Python.Subtree → Python.Cst
  | .whole c => c
  | .elifChain clause _ => clause

namespace Python.Lowering

/-- A path that is no longer than a limit, or that a node for something missing ends, right
below the node of the part that should have it. -/
def Fits (source : Array Char) (limit : Nat) (ns : List Node) : Prop :=
  ns.length ≤ limit ∨ ∃ above t place, Lacks t place ∧ above.length < limit ∧
    ns = above ++ [(unlimited source t).value, placeholder place]

theorem Fits.succ {source : Array Char} {limit : Nat} {ns : List Node}
    (h : Fits source limit ns) : Fits source (limit + 1) ns := by
  obtain hlength | ⟨above, t, place, hlacks, habove, rfl⟩ := h
  · exact .inl (by omega)
  · exact .inr ⟨above, t, place, hlacks, by omega, rfl⟩

theorem Fits.cons {source : Array Char} {limit : Nat} {ns : List Node} (n : Node)
    (h : Fits source limit ns) : Fits source (limit + 1) (n :: ns) := by
  obtain hlength | ⟨above, t, place, hlacks, habove, rfl⟩ := h
  · exact .inl (by rw [List.length_cons]; omega)
  · exact .inr ⟨n :: above, t, place, hlacks, by rw [List.length_cons]; omega, rfl⟩

/-- Every path down from a lowered node fits into the levels that it was lowered with. -/
theorem fits_of_lower {source : Array Char} {limit : Nat} {t : Subtree} {n : Node}
    (hn : lower source limit t = some n) {ns : List Node} (hpath : Node.IsPath (n :: ns)) :
    Fits source limit (n :: ns) := by
  induction limit generalizing t n ns with
  | zero => simp [lower] at hn
  | succ limit ih =>
    rcases (yields_level t n hn).origin with ⟨s, hs⟩ | hchildren
    · exact (ih hs hpath).succ
    · cases ns with
      | nil => exact .inl (by simp)
      | cons k ns =>
        obtain ⟨hk, hbelow⟩ := List.isChain_cons_cons.mp hpath
        rcases hchildren k hk with ⟨s, hs⟩ | ⟨place, hlacks, rfl⟩
        · exact (ih hs hbelow).cons n
        · -- A placeholder has no children, so the path ends with it.
          obtain rfl : ns = [] := by
            cases ns with
            | nil => rfl
            | cons _ _ => simp [placeholder, Node.children] at hbelow
          rw [lower_eq_within, Counted.within_eq_some] at hn
          exact .inr ⟨[], t, place, hlacks, by simp, by rw [hn.2]; rfl⟩

/-- The limit decides only whether a tree is lowered: it is refused if and only if its statements
need more levels, and else becomes what it would become without a limit, in which no path
from a statement is longer than the limit. -/
theorem statements_exact (source : Array Char) (c : Cst) :
    (statements source c = none ↔ maxLevels < (unlimitedStatements source c).levels) ∧
    (∀ body, statements source c = some body →
      body = (unlimitedStatements source c).value ∧
      ∀ n ∈ body, ∀ ns, Node.IsPath (n :: ns) → Fits source maxLevels (n :: ns)) ∧
    ∀ text : String, text.toList.toArray = source → Cst.ofSource? text = some c →
      parseModule text = if maxLevels < (unlimitedStatements source c).levels
        then .error .tooDeep else .ok (unlimitedStatements source c).value := by
  refine ⟨?_, fun body hbody => ⟨?_, fun n hn ns hpath => ?_⟩, ?_⟩
  · rw [statements_eq_within, Counted.within_eq_none]
  · rw [statements_eq_within, Counted.within_eq_some] at hbody
    exact hbody.2.symm
  · obtain ⟨s, hs⟩ := yields_all c.parts body hbody n hn
    exact fits_of_lower hs hpath
  · rintro text rfl hc
    rw [parseModule, hc]
    dsimp only
    rw [statements_eq_within, Counted.within]
    split_ifs with hlevels hlimit hlimit
    · omega
    · rfl
    · rfl
    · omega

/-! ### Going on at the limit -/

/-- The number of levels that a run is in, and whether it came to the limit. -/
structure Progress where
  depth : Nat := 0
  tooDeep : Bool := false

/-- Runs one level deeper, or marks that there is no such level and leaves a childless node. -/
def nested (place : Cst) (inner : StateM Progress Node) : StateM Progress Node := do
  let depth := (← get).depth
  if maxLevels ≤ depth then
    modify fun s => { s with tooDeep := true }
    return placeholder place
  modify fun s => { s with depth := depth + 1 }
  let n ← inner
  modify fun s => { s with depth }
  return n

section Nested

variable {place : Cst} {inner : StateM Progress Node} {s : Progress}

theorem run_nested_at_limit (h : maxLevels ≤ s.depth) :
    (nested place inner).run s = (placeholder place, { s with tooDeep := true }) := by
  simp only [nested, StateT.run_bind, StateT.run_get, pure_bind, if_pos h]
  rfl

/-- Below the limit the level that a run is in is the same again behind it. -/
theorem run_nested (h : s.depth < maxLevels) :
    (nested place inner).run s =
      let found := inner.run { s with depth := s.depth + 1 }
      (found.1, { found.2 with depth := s.depth }) := by
  have hdepth : ¬ maxLevels ≤ s.depth := by omega
  simp only [nested, StateT.run_bind, StateT.run_get, pure_bind, if_neg hdepth]
  rfl

end Nested

/-- The node of a subtree, with childless nodes at the limit. -/
def truncated (source : Array Char) (t : Subtree) : StateM Progress Node :=
  nested t.place (level source
    (fun s => if _h : s.weight < t.weight then truncated source s else pure default) t)
termination_by t.weight

def truncatedStatements (source : Array Char) (c : Cst) : StateM Progress (List Node) :=
  all (truncated source) c.parts

theorem truncated_eq (source : Array Char) (t : Subtree) :
    truncated source t = nested t.place (level source (truncated source) t) := by
  rw [truncated, level_of_smaller]

/-- Whether a run that goes on is alike to one that may fail, with some levels left: it has a mark
behind it where the other one fails, and the same result where it does not. -/
def Marks (left : Nat) {α : Type} (x : Option α) (y : StateM Progress α) : Prop :=
  ∀ s : Progress, s.depth + left = maxLevels →
    (y.run s).2 = ⟨s.depth, s.tooDeep || x.isNone⟩ ∧ ∀ a, x = some a → (y.run s).1 = a

theorem simulates_marks (left : Nat) :
    Simulates fun α (x : Option α) (y : StateM Progress α) => Marks left x y where
  pure a s _ := by
    refine ⟨?_, fun b hb => Option.some.inj hb⟩
    show s = _
    simp
  bind {α β x y f g} hxy hfg s hs := by
    have hrun : (y >>= g).run s = (g (y.run s).1).run (y.run s).2 := rfl
    obtain ⟨hstate, hvalue⟩ := hxy s hs
    have hs' : (y.run s).2.depth + left = maxLevels := by rw [hstate]; exact hs
    obtain ⟨hstate', hvalue'⟩ := hfg (y.run s).1 (y.run s).2 hs'
    rw [hrun]
    cases x with
    | none =>
      -- what follows has some other argument, but cannot undo the mark
      refine ⟨?_, fun b hb => by cases hb⟩
      rw [hstate', hstate]
      simp
    | some a =>
      rw [hvalue a rfl] at hstate' hvalue' ⊢
      refine ⟨?_, hvalue'⟩
      rw [hstate', hstate]
      simp

/-- A level takes one from the levels that are left and adds one to those that a run is in. -/
theorem truncated_marks (source : Array Char) (left : Nat) (t : Subtree) :
    Marks left (lower source left t) (truncated source t) := by
  induction left generalizing t with
  | zero =>
    intro s hs
    rw [truncated_eq, run_nested_at_limit (by omega)]
    exact ⟨by simp [lower], fun n hn => by cases hn⟩
  | succ left ih =>
    intro s hs
    obtain ⟨hstate, hvalue⟩ := (simulates_marks left).level source (fun s _ => ih s)
      (Nat.le_refl t.weight) { s with depth := s.depth + 1 } (by show s.depth + 1 + left = _; omega)
    rw [truncated_eq, run_nested (by omega)]
    refine ⟨?_, hvalue⟩
    show Progress.mk s.depth _ = _
    rw [hstate]
    rfl

/-- A tree is refused just where going on leaves a mark, and becomes the same where it does not. -/
theorem statements_eq_truncated (source : Array Char) (c : Cst) :
    let run := (truncatedStatements source c).run {}
    statements source c = if run.2.tooDeep then none else some run.1 := by
  intro run
  have hmarks : Marks maxLevels (statements source c) (truncatedStatements source c) :=
    (simulates_marks maxLevels).mapM fun d _ => truncated_marks source maxLevels (.whole d)
  obtain ⟨hstate, hvalue⟩ := hmarks {} (Nat.zero_add maxLevels)
  have hmark : run.2.tooDeep = (statements source c).isNone := by
    rw [hstate]
    rfl
  cases hbody : statements source c with
  | none => rw [hmark, hbody]; rfl
  | some body => rw [hmark, hbody, ← hvalue body hbody]; rfl

end Python.Lowering

end QualityGate
