import Mathlib.Data.List.Basic
import QualityGate.Node.Walk

/-! Traversals that hand something down. A rule knows of the definitions around a node
only what the node's ancestors hand down to it, so its findings are those of the single
nodes, listed in source order, each with its inheritance. -/
namespace QualityGate.Node

/-- Induction on a tree: what holds of a node when it holds of its children holds of
every node. -/
theorem induction_on_children {P : Node → Prop} (step : ∀ n, (∀ c ∈ n.children, P c) → P n)
    (n : Node) : P n :=
  step n fun c hc =>
    have := sizeOf_lt_of_mem_children hc
    induction_on_children step c
termination_by sizeOf n

variable {σ α : Type}

/-- The node and everything below it in source order, each node with what it inherits;
`hand s n` is what the node `n` that inherits `s` leaves to its children. -/
def walkWith (hand : σ → Node → σ) (s : σ) (n : Node) : List (σ × Node) :=
  (s, n) :: n.children.attach.flatMap fun ⟨c, _⟩ => walkWith hand (hand s n) c
termination_by sizeOf n
decreasing_by exact sizeOf_lt_of_mem_children ‹_›

theorem walkWith_eq (hand : σ → Node → σ) (s : σ) (n : Node) :
    n.walkWith hand s = (s, n) :: n.children.flatMap (walkWith hand (hand s n)) := by
  rw [walkWith]
  simp

/-- Without the inheritances it is the plain traversal. -/
theorem map_snd_walkWith (hand : σ → Node → σ) (s : σ) (n : Node) :
    (n.walkWith hand s).map Prod.snd = n.walk := by
  induction n using induction_on_children generalizing s with
  | step n ih =>
    rw [walkWith_eq, walk_eq, List.map_cons, List.map_flatMap, walkAll]
    congr 1
    exact List.flatMap_congr fun c hc => ih c hc _

/-- Several siblings with the same inheritance. -/
def walkAllWith (hand : σ → Node → σ) (s : σ) (ns : List Node) : List (σ × Node) :=
  ns.flatMap (walkWith hand s)

theorem map_snd_walkAllWith (hand : σ → Node → σ) (s : σ) (ns : List Node) :
    (walkAllWith hand s ns).map Prod.snd = walkAll ns := by
  rw [walkAllWith, List.map_flatMap, walkAll]
  exact List.flatMap_congr fun n _ => map_snd_walkWith hand s n

/-- A recursion that lists what a node itself gives and then what its children give
lists what every node gives. -/
theorem eq_flatMap_walkWith {hand : σ → Node → σ} {own : σ → Node → List α}
    {collect : σ → Node → List α}
    (step : ∀ s n, collect s n = own s n ++ n.children.flatMap (collect (hand s n)))
    (s : σ) (n : Node) : collect s n = (n.walkWith hand s).flatMap fun p => own p.1 p.2 := by
  induction n using induction_on_children generalizing s with
  | step n ih =>
    have hbelow : n.children.flatMap (collect (hand s n)) =
        (n.children.flatMap (walkWith hand (hand s n))).flatMap fun p => own p.1 p.2 := by
      rw [List.flatMap_assoc]
      exact List.flatMap_congr fun c hc => ih c hc _
    rw [step, hbelow, walkWith_eq, List.flatMap_cons]

theorem flatMap_eq_flatMap_walkAllWith {hand : σ → Node → σ} {own : σ → Node → List α}
    {collect : σ → Node → List α}
    (step : ∀ s n, collect s n = own s n ++ n.children.flatMap (collect (hand s n)))
    (s : σ) (ns : List Node) :
    ns.flatMap (collect s) = (walkAllWith hand s ns).flatMap fun p => own p.1 p.2 := by
  rw [walkAllWith, List.flatMap_assoc]
  exact List.flatMap_congr fun n _ => eq_flatMap_walkWith step s n

/-- What the nodes of a traversal give is given by one of them. -/
theorem exists_mem_walkAll_of_mem_flatMap {hand : σ → Node → σ} {own : σ → Node → List α} {s : σ}
    {ns : List Node} {a : α} (h : a ∈ (walkAllWith hand s ns).flatMap fun p => own p.1 p.2) :
    ∃ s', ∃ n ∈ walkAll ns, a ∈ own s' n := by
  obtain ⟨p, hp, ha⟩ := List.mem_flatMap.mp h
  obtain ⟨n, hn, hp⟩ := List.mem_flatMap.mp hp
  refine ⟨p.1, p.2, List.mem_flatMap.mpr ⟨n, hn, ?_⟩, ha⟩
  rw [← map_snd_walkWith hand s n]
  exact List.mem_map_of_mem hp

end QualityGate.Node
