import QualityGate.Proofs.Node.Inheritance

/-! Lines of nodes. Nodes fill lines from a first to a last one when each of them has lines that
hold those of its children, and the nodes, listed in source order, start no earlier than those
before them. -/
namespace QualityGate.Node

/-- Whether a node has lines that hold the lines of its children. -/
def HoldsChildren (n : Node) : Prop :=
  n.span.first ≤ n.span.last ∧
    ∀ k ∈ n.children, n.span.first ≤ k.span.first ∧ k.span.last ≤ n.span.last

theorem walk_subset_of_mem_children {n k m : Node} (hk : k ∈ n.children) (hm : m ∈ k.walk) :
    m ∈ n.walk := by
  rw [walk_eq, walkAll]
  exact List.mem_cons_of_mem _ (List.mem_flatMap.mpr ⟨k, hk, hm⟩)

theorem mem_walk_self (n : Node) : n ∈ n.walk := by
  rw [walk_eq]
  exact List.mem_cons_self

theorem walk_subset_of_mem_walk {n k m : Node} (hk : k ∈ n.walk) (hm : m ∈ k.walk) :
    m ∈ n.walk := by
  induction n using induction_on_children with
  | step n ih =>
    have hbelow := hk
    rw [walk_eq, List.mem_cons, walkAll, List.mem_flatMap] at hbelow
    rcases hbelow with rfl | ⟨c, hc, hk⟩
    · exact hm
    · exact walk_subset_of_mem_children hc (ih c hc hk)

/-- A node's lines hold those of everything below it. -/
theorem holds_of_mem_walk {n m : Node} (h : ∀ k ∈ n.walk, k.HoldsChildren) (hm : m ∈ n.walk) :
    n.span.first ≤ m.span.first ∧ m.span.last ≤ n.span.last := by
  induction n using induction_on_children with
  | step n ih =>
    rw [walk_eq, List.mem_cons, walkAll, List.mem_flatMap] at hm
    rcases hm with rfl | ⟨k, hk, hm⟩
    · exact ⟨Nat.le_refl _, Nat.le_refl _⟩
    · have hown := (h n n.mem_walk_self).2 k hk
      have hbelow := ih k hk (fun j hj => h j (walk_subset_of_mem_children hk hj)) hm
      omega

theorem clauseNodes_append (gs hs : List (Generator Node)) :
    clauseNodes (gs ++ hs) = clauseNodes gs ++ clauseNodes hs := by
  induction gs with
  | nil => rfl
  | cons g gs ih => simp [clauseNodes, ih]

/-- Whether nodes fill the lines from a first to a last one. -/
structure Fills (first last : Nat) (ns : List Node) : Prop where
  holds : ∀ m ∈ walkAll ns, m.HoldsChildren
  within : ∀ n ∈ ns, first ≤ n.span.first ∧ n.span.last ≤ last
  ordered : (walkAll ns).Pairwise fun m n => m.line ≤ n.line

namespace Fills

variable {first last : Nat} {ns ms : List Node}

/-- Everything below nodes that fill lines stands on these lines. -/
theorem bounds (h : Fills first last ns) {m : Node} (hm : m ∈ walkAll ns) :
    first ≤ m.line ∧ m.line ≤ m.span.last ∧ m.span.last ≤ last := by
  obtain ⟨n, hn, hmem⟩ := List.mem_flatMap.mp hm
  have hbelow : ∀ k ∈ n.walk, k.HoldsChildren := fun k hk =>
    h.holds k (List.mem_flatMap.mpr ⟨n, hn, hk⟩)
  obtain ⟨hfirst, hlast⟩ := h.within n hn
  obtain ⟨hfirst', hlast'⟩ := holds_of_mem_walk hbelow hmem
  exact ⟨Nat.le_trans hfirst hfirst', (h.holds m hm).1, Nat.le_trans hlast' hlast⟩

theorem nil : Fills first last [] := ⟨by simp, by simp, by simp⟩

theorem append (hns : Fills first last ns) (hms : Fills first last ms)
    (hfollow : ∀ n ∈ ns, ∀ m ∈ ms, n.span.last ≤ m.span.first) : Fills first last (ns ++ ms) where
  holds m hm := by
    rw [walkAll_append, List.mem_append] at hm
    exact hm.elim (hns.holds m) (hms.holds m)
  within n hn := (List.mem_append.mp hn).elim (hns.within n) (hms.within n)
  ordered := by
    rw [walkAll_append, List.pairwise_append]
    refine ⟨hns.ordered, hms.ordered, fun a ha b hb => ?_⟩
    obtain ⟨n, hn, ha'⟩ := List.mem_flatMap.mp ha
    obtain ⟨m, hm, hb'⟩ := List.mem_flatMap.mp hb
    have hbelow : ∀ k ∈ n.walk, k.HoldsChildren := fun k hk =>
      hns.holds k (List.mem_flatMap.mpr ⟨n, hn, hk⟩)
    have hbelow' : ∀ k ∈ m.walk, k.HoldsChildren := fun k hk =>
      hms.holds k (List.mem_flatMap.mpr ⟨m, hm, hk⟩)
    have hown := (hns.holds a ha).1
    have hlast := (holds_of_mem_walk hbelow ha').2
    have hfirst := (holds_of_mem_walk hbelow' hb').1
    have hnm := hfollow n hn m hm
    simp only [line]
    omega

/-- A node fills the lines around its own when its children fill those. -/
theorem singleton {n : Node} (hlines : n.span.first ≤ n.span.last)
    (hchildren : Fills n.span.first n.span.last n.children) (hfirst : first ≤ n.span.first)
    (hlast : n.span.last ≤ last) : Fills first last [n] where
  holds m hm := by
    rw [walkAll_cons, walkAll_nil, List.append_nil, walk_eq, List.mem_cons] at hm
    rcases hm with rfl | hm
    · exact ⟨hlines, hchildren.within⟩
    · exact hchildren.holds m hm
  within m hm := by
    obtain rfl := List.mem_singleton.mp hm
    exact ⟨hfirst, hlast⟩
  ordered := by
    rw [walkAll_cons, walkAll_nil, List.append_nil, walk_eq, List.pairwise_cons]
    exact ⟨fun m hm => (hchildren.bounds hm).1, hchildren.ordered⟩

/-- A node without children may stand in front of others that start no earlier. -/
theorem cons_childless {n : Node} (hns : Fills first last ns) (hn : n.children = [])
    (hlines : n.span.first ≤ n.span.last) (hfirst : n.span.first = first)
    (hlast : n.span.last ≤ last) : Fills first last (n :: ns) where
  holds m hm := by
    rw [walkAll_cons, walk_eq, hn, walkAll_nil, List.singleton_append, List.mem_cons] at hm
    rcases hm with rfl | hm
    · exact ⟨hlines, by simp [hn]⟩
    · exact hns.holds m hm
  within m hm := by
    rcases List.mem_cons.mp hm with rfl | hm
    · exact ⟨Nat.le_of_eq hfirst.symm, hlast⟩
    · exact hns.within m hm
  ordered := by
    rw [walkAll_cons, walk_eq, hn, walkAll_nil, List.singleton_append, List.pairwise_cons]
    refine ⟨fun m hm => ?_, hns.ordered⟩
    rw [line, hfirst]
    exact (hns.bounds hm).1

end Fills

end QualityGate.Node
