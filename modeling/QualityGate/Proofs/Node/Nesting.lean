import QualityGate.Proofs.Node.Cognitive

/-! Nesting depth as a maximum over ways down. The measure is defined by a recursion that carries
the depth reached so far along. It only adds that depth to what stands below a node, so the nesting
depth of a node is the largest height of a child, and the largest number of control structures on a
way down from the node. -/
namespace QualityGate.Node

/-! ### The recursion -/

/-- What a node adds to the nesting. -/
def weight (n : Node) : Nat := if n.isControl then 1 else 0

/-- The largest number of control structures on a way down that starts with the node itself. -/
def height (n : Node) : Nat := n.weight + n.nestingDepth

theorem foldl_max_le_iff {ns : List Nat} {k d : Nat} :
    ns.foldl max k ≤ d ↔ k ≤ d ∧ ∀ n ∈ ns, n ≤ d := by
  induction ns generalizing k with
  | nil => simp
  | cons n ns ih => rw [List.foldl_cons, ih, Nat.max_le, List.forall_mem_cons, and_assoc]

theorem depthBelow_le_iff {k d : Nat} {n : Node} :
    depthBelow k n ≤ d ↔ k ≤ d ∧ ∀ c ∈ n.children, depthBelow (k + c.weight) c ≤ d := by
  have hstart : ∀ c : Node, (if c.isControl then k + 1 else k) = k + c.weight := by
    intro c
    rw [weight]
    split_ifs <;> rfl
  rw [depthBelow, foldl_max_le_iff]
  simp [hstart]

/-- The depth reached so far is added to what stands below. -/
theorem depthBelow_eq_add (k : Nat) (n : Node) : depthBelow k n = k + n.nestingDepth := by
  induction n using induction_on_children generalizing k with
  | step n ih =>
    have hle : ∀ k d, depthBelow k n ≤ d ↔ k ≤ d ∧ ∀ c ∈ n.children, k + c.height ≤ d := by
      intro k d
      rw [depthBelow_le_iff]
      refine and_congr_right fun _ => forall₂_congr fun c hc => ?_
      rw [ih c hc, height, Nat.add_assoc]
    apply le_antisymm
    · refine (hle k _).mpr ⟨Nat.le_add_right _ _, fun c hc => ?_⟩
      have hchild := ((hle 0 n.nestingDepth).mp le_rfl).2 c hc
      omega
    · obtain ⟨hstart, hchildren⟩ := (hle k _).mp le_rfl
      have hdepth : n.nestingDepth ≤ depthBelow k n - k := by
        refine (hle 0 _).mpr ⟨Nat.zero_le _, fun c hc => ?_⟩
        have hchild := hchildren c hc
        omega
      omega

theorem nestingDepth_le_iff {d : Nat} {n : Node} :
    n.nestingDepth ≤ d ↔ ∀ c ∈ n.children, c.height ≤ d := by
  rw [nestingDepth, depthBelow_le_iff]
  simp [depthBelow_eq_add, height]

theorem height_le_nestingDepth {c n : Node} (hc : c ∈ n.children) : c.height ≤ n.nestingDepth :=
  nestingDepth_le_iff.mp le_rfl c hc

/-- A node with some nesting has a child that is as high as the nesting is deep. -/
theorem exists_height_eq {n : Node} (h : n.nestingDepth ≠ 0) :
    ∃ c ∈ n.children, c.height = n.nestingDepth := by
  by_contra! hne
  have hlower : n.nestingDepth ≤ n.nestingDepth - 1 := by
    refine nestingDepth_le_iff.mpr fun c hc => ?_
    have hle := height_le_nestingDepth hc
    have hchild := hne c hc
    omega
  omega

theorem nestingDepth_congr {m n : Node} (h : m.children.map height = n.children.map height) :
    m.nestingDepth = n.nestingDepth := by
  have hheights : ∀ d, m.nestingDepth ≤ d ↔ n.nestingDepth ≤ d := by
    intro d
    simp only [nestingDepth_le_iff]
    rw [← List.forall_mem_map (P := (· ≤ d)), h, List.forall_mem_map]
  exact eq_of_forall_ge_iff hheights

theorem height_eq_zero {n : Node} (h : ∀ x ∈ n.walk, x.isControl = false) : n.height = 0 := by
  induction n using induction_on_children with
  | step n ih =>
    rw [walk_eq, List.forall_mem_cons] at h
    have hbelow : n.nestingDepth ≤ 0 := by
      refine nestingDepth_le_iff.mpr fun c hc => (ih c hc fun x hx => h.2 x ?_).le
      exact List.mem_flatMap.mpr ⟨c, hc, hx⟩
    simp [height, weight, h.1, Nat.le_zero.mp hbelow]

/-! ### Ways down -/

/-- The nodes below a node on the way down to an address, the outermost first and the node at the
address last. -/
def wayDown (n : Node) (a : Address) : List Node := a.inits.filterMap (nodeAt? n.children)

@[simp] theorem wayDown_nil (n : Node) : wayDown n [] = [] := rfl

theorem wayDown_cons {n c : Node} {i : Nat} (hc : n.children[i]? = some c) (a : Address) :
    wayDown n (i :: a) = c :: wayDown c a := by
  cases a with
  | nil => simp [wayDown, List.filterMap_cons, nodeAt?, hc, descendant?]
  | cons j a =>
    simp only [wayDown, List.inits_cons, List.filterMap_cons, List.filterMap_map, List.map_cons,
      nodeAt?, hc, Option.bind_some, descendant?, Function.comp_def]

/-- The control structures on a way down. -/
def nestingAt (n : Node) (a : Address) : Nat := (wayDown n a).countP isControl

theorem nestingAt_cons {n c : Node} {i : Nat} (hc : n.children[i]? = some c) (a : Address) :
    nestingAt n (i :: a) = c.weight + nestingAt c a := by
  rw [nestingAt, wayDown_cons hc, List.countP_cons, weight, Nat.add_comm]
  rfl

-- a loop in a branch that continues a branch in a function
example :
    let x : Node := .name ⟨1, 1⟩ "x"
    let loop : Node := .loop ⟨4, 5⟩ .whileTrue [x] [x] []
    let n : Node := .functionDef ⟨1, 5⟩ ⟨"f", [], false⟩
      [.branch ⟨2, 5⟩ false x [x] [.branch ⟨3, 5⟩ true x [loop] []]]
    nestingAt n [0, 2, 1] = 3 ∧ nestingAt n [0, 1] = 1 ∧ n.nestingDepth = 3 := by decide +kernel

theorem nestingAt_le_nestingDepth {n m : Node} {a : Address} (hm : descendant? n a = some m) :
    nestingAt n a ≤ n.nestingDepth := by
  induction a generalizing n with
  | nil => exact Nat.zero_le _
  | cons i a ih =>
    obtain ⟨c, hc, hbelow⟩ := Option.bind_eq_some_iff.mp hm
    rw [nestingAt_cons hc]
    exact (Nat.add_le_add_left (ih hbelow) _).trans
      (height_le_nestingDepth (List.mem_of_getElem? hc))

theorem exists_nestingAt_eq (n : Node) : ∃ p ∈ placesIn n, nestingAt n p.1 = n.nestingDepth := by
  induction n using induction_on_children with
  | step n ih =>
    by_cases hdepth : n.nestingDepth = 0
    · exact ⟨([], n), mem_placesIn_iff.mpr rfl, hdepth.symm⟩
    · obtain ⟨c, hc, hheight⟩ := exists_height_eq hdepth
      obtain ⟨p, hp, hnesting⟩ := ih c hc
      obtain ⟨i, hi⟩ := List.mem_iff_getElem?.mp hc
      refine ⟨under i p, mem_placesIn_iff.mpr ?_, ?_⟩
      · exact Option.bind_eq_some_iff.mpr ⟨c, hi, mem_placesIn_iff.mp hp⟩
      · rw [under, nestingAt_cons hi, hnesting, ← hheight, height]

end QualityGate.Node
