import QualityGate.Proofs.Node.Nesting

/-! Measures grow outwards. Whatever stands in a tree measures no more than the tree: its decision
points are decision points of the tree, its control structures sit no deeper on their own than in
the tree, and a way down from it goes on a way down from the root. -/
namespace QualityGate.Node

theorem walk_sublist_of_mem_children {c n : Node} (hc : c ∈ n.children) :
    c.walk.Sublist n.walk := by
  rw [walk_eq n, walkAll, List.flatMap_def]
  exact (List.sublist_flatten_of_mem (List.mem_map_of_mem hc)).cons n

/-- What does not grow from a node to its children does not grow to any node below. -/
theorem le_of_mem_walk {measure : Node → Nat}
    (step : ∀ n : Node, ∀ c ∈ n.children, measure c ≤ measure n) {d n : Node} (hd : d ∈ n.walk) :
    measure d ≤ measure n := by
  induction n using induction_on_children with
  | step n ih =>
    rw [walk_eq, List.mem_cons] at hd
    rcases hd with rfl | hd
    · exact le_rfl
    · obtain ⟨c, hc, hd⟩ := List.mem_flatMap.mp hd
      exact (ih c hc hd).trans (step n c hc)

/-- A child costs what it adds to the cost of its parent, at the level that the edge leads to. -/
theorem cognitiveAt_le_costBelow {n c : Node} {i : Nat} (hc : n.children[i]? = some c) (k : Nat) :
    cognitiveAt (k + rise n i) c ≤ costBelow k n :=
  le_total_of_mem (List.mem_map.mpr ⟨(c, i), List.mem_zipIdx_iff_getElem?.mpr hc, rfl⟩)

variable {c d n : Node}

theorem cyclomatic_le_of_mem_children (hc : c ∈ n.children) : c.cyclomatic ≤ n.cyclomatic :=
  Nat.add_le_add_left (total_le_of_sublist ((walk_sublist_of_mem_children hc).map _)) 1

theorem cognitive_le_of_mem_children (hc : c ∈ n.children) : c.cognitive ≤ n.cognitive := by
  obtain ⟨i, hi⟩ := List.mem_iff_getElem?.mp hc
  calc c.cognitive
      ≤ cognitiveAt (0 + rise n i) c := by
        rw [cognitiveAt_eq_add (0 + rise n i)]
        exact Nat.le_add_right _ _
    _ ≤ costBelow 0 n := cognitiveAt_le_costBelow hi 0
    _ ≤ n.cognitive := by
        rw [cognitive, cognitiveAt_eq]
        exact Nat.le_add_left _ _

theorem nestingDepth_le_of_mem_children (hc : c ∈ n.children) :
    c.nestingDepth ≤ n.nestingDepth :=
  (Nat.le_add_left _ _).trans (height_le_nestingDepth hc)

theorem cyclomatic_le_of_mem_walk (hd : d ∈ n.walk) : d.cyclomatic ≤ n.cyclomatic :=
  le_of_mem_walk (fun _ _ => cyclomatic_le_of_mem_children) hd

theorem cognitive_le_of_mem_walk (hd : d ∈ n.walk) : d.cognitive ≤ n.cognitive :=
  le_of_mem_walk (fun _ _ => cognitive_le_of_mem_children) hd

theorem nestingDepth_le_of_mem_walk (hd : d ∈ n.walk) : d.nestingDepth ≤ n.nestingDepth :=
  le_of_mem_walk (fun _ _ => nestingDepth_le_of_mem_children) hd

/-! ### Addresses further down -/

theorem descendant?_append (n : Node) (a b : Address) :
    descendant? n (a ++ b) = (descendant? n a).bind (descendant? · b) := by
  induction a generalizing n with
  | nil => rfl
  | cons i a ih =>
    rw [List.cons_append, descendant?, descendant?]
    cases n.children[i]? with
    | none => rfl
    | some c => exact ih c

theorem mem_walk_of_descendant? {a : Address} (h : descendant? n a = some d) : d ∈ n.walk := by
  rw [← map_snd_placesIn]
  exact List.mem_map.mpr ⟨(a, d), mem_placesIn_iff.mpr h, rfl⟩

/-- What stands at an address that goes on from another one stands below what stands there. -/
theorem mem_walk_of_isPrefix {ns : List Node} {a b : Address} (hn : nodeAt? ns a = some n)
    (hd : nodeAt? ns b = some d) (hab : a <+: b) : d ∈ n.walk := by
  obtain ⟨rest, rfl⟩ := hab
  cases a with
  | nil => cases hn
  | cons i a =>
    obtain ⟨m, hm, hn⟩ := Option.bind_eq_some_iff.mp hn
    rw [List.cons_append, nodeAt?, hm, Option.bind_some, descendant?_append, hn,
      Option.bind_some] at hd
    exact mem_walk_of_descendant? hd

end QualityGate.Node
