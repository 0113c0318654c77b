import QualityGate.Metrics
import QualityGate.Proofs.Node.Ancestors

/-! Cognitive complexity as a sum over places. The measure is defined by a recursion that carries the
level of nesting along and treats the parts of a branch and of a `try` in ways of their own. Seen from
a place in the tree only the way down to it counts: a control structure costs one more than the number
of edges on this way that lead a level deeper, and a branch that continues another one and a handler
cost one wherever they stand. -/
namespace QualityGate.Node

/-! ### The way down -/

/-- Whether the edge from a node to one of its children, given by number, leads a level deeper. All
edges below a control structure do, but for that to the test of a branch and that to a branch which
continues it. -/
def deepens : Node → Nat → Bool
  | branch .., 0 => false
  | branch _ _ _ body orelse, i + 1 => i < body.length || !(orelse[i - body.length]?.any isElif)
  | n, _ => n.isControl

/-- The edges on the way down from a node to an address: each node that is left, with the number of
the child that is entered. -/
def edges : Node → Address → List (Node × Nat)
  | _, [] => []
  | n, i :: a => (n, i) :: n.children[i]?.elim [] (edges · a)

/-- The number of edges on the way down that lead a level deeper. -/
def level (n : Node) (a : Address) : Nat := (edges n a).countP fun e => deepens e.1 e.2

/-- The number of branches that continue a branch, as direct elements of its other part. -/
def elifBranches : Node → Nat
  | branch _ _ _ _ orelse => orelse.countP isElif
  | _ => 0

/-- The number of handlers of a `try`. -/
def handlerEntries : Node → Nat
  | tryExcept _ _ handlers _ _ => handlers.length
  | _ => 0

@[simp] theorem level_nil (n : Node) : level n [] = 0 := rfl

/-- What one edge adds to a level. -/
def rise (n : Node) (i : Nat) : Nat := if deepens n i then 1 else 0

theorem level_cons {n m : Node} {i : Nat} (hm : n.children[i]? = some m) (a : Address) :
    level n (i :: a) = rise n i + level m a := by
  rw [level, edges, hm, Option.elim_some, List.countP_cons, rise, Nat.add_comm]
  rfl

-- the test of a branch, its body, a branch that continues it and one in its other part
example :
    let x : Node := .name ⟨1, 1⟩ "x"
    let n : Node := .branch ⟨1, 4⟩ false x [x] [.branch ⟨3, 4⟩ true x [x] [x]]
    level n [0] = 0 ∧ level n [1] = 1 ∧ level n [2] = 0 ∧ level n [2, 2] = 1 := by decide

/-! ### Children by their numbers -/

/-- A sum over numbered siblings where the numbers do not matter. -/
theorem total_zipIdx {ns : List Node} {k : Nat} {f : Node × Nat → Nat} {g : Node → Nat}
    (h : ∀ c ∈ ns.zipIdx k, f c = g c.1) : total ((ns.zipIdx k).map f) = total (ns.map g) := by
  have hfirst : (ns.zipIdx k).map (fun c => g c.1) = ns.map g := by
    conv_rhs => rw [← List.zipIdx_map_fst k ns, List.map_map]
    rfl
  rw [List.map_congr_left h, hfirst]

/-- What the children of a node cost when the node sits at a level. -/
def costBelow (k : Nat) (n : Node) : Nat :=
  total (n.children.zipIdx.map fun c => cognitiveAt (k + rise n c.2) c.1)

theorem costBelow_of_rise {n : Node} {d : Nat} (h : ∀ i, rise n i = d) (k : Nat) :
    costBelow k n = total (n.children.map fun c => cognitiveAt (k + d) c) :=
  total_zipIdx fun c _ => by rw [h]

section Branch

variable {span : Span} {elif : Bool} {test : Node} {body orelse : List Node}

theorem rise_body {i : Nat} (h : i < body.length) :
    rise (.branch span elif test body orelse) (i + 1) = 1 := by
  simp [rise, deepens, h]

theorem rise_orelse {i : Nat} {n : Node} (h : orelse[i]? = some n) :
    rise (.branch span elif test body orelse) (body.length + i + 1) = if n.isElif then 0 else 1 := by
  cases hn : n.isElif <;> simp [rise, deepens, h, hn]

theorem costBelow_branch (k : Nat) : costBelow k (.branch span elif test body orelse) =
    cognitiveAt k test + total (body.map fun c => cognitiveAt (k + 1) c)
      + total (orelse.map fun c => cognitiveAt (k + if c.isElif then 0 else 1) c) := by
  have hbody : ∀ c ∈ body.zipIdx 1,
      cognitiveAt (k + rise (.branch span elif test body orelse) c.2) c.1 =
        cognitiveAt (k + 1) c.1 := by
    rintro ⟨c, i⟩ hc
    obtain ⟨hle, hget⟩ := List.mem_zipIdx_iff_le_and_getElem?_sub.mp hc
    obtain ⟨j, rfl⟩ := Nat.exists_eq_add_of_le' hle
    have hj : j < body.length := (List.getElem?_eq_some_iff.mp hget).1
    rw [rise_body hj]
  have horelse : ∀ c ∈ orelse.zipIdx (0 + 1 + body.length),
      cognitiveAt (k + rise (.branch span elif test body orelse) c.2) c.1 =
        cognitiveAt (k + if c.1.isElif then 0 else 1) c.1 := by
    rintro ⟨c, i⟩ hc
    obtain ⟨hle, hget⟩ := List.mem_zipIdx_iff_le_and_getElem?_sub.mp hc
    obtain ⟨j, rfl⟩ := Nat.exists_eq_add_of_le hle
    rw [Nat.add_sub_cancel_left] at hget
    have hi : 0 + 1 + body.length + j = body.length + j + 1 := by omega
    rw [hi, rise_orelse hget]
  rw [costBelow, children, List.zipIdx_cons, List.zipIdx_append, List.map_cons, List.map_append,
    total_cons, total_append, total_zipIdx (g := fun c => cognitiveAt (k + 1) c) hbody,
    total_zipIdx (g := fun c => cognitiveAt (k + if c.isElif then 0 else 1) c) horelse,
    Nat.add_assoc]
  rfl

end Branch

/-! ### The cost of a place -/

theorem total_succ_elif (k : Nat) (ns : List Node) :
    total (ns.map fun c => if c.isElif then 1 + cognitiveAt k c else cognitiveAt (k + 1) c) =
      ns.countP isElif + total (ns.map fun c => cognitiveAt (k + if c.isElif then 0 else 1) c) := by
  induction ns with
  | nil => rfl
  | cons n ns ih => cases hn : n.isElif <;> simp [hn, ih] <;> omega

/-- What a node costs itself at a level. -/
def ownCost (k : Nat) (n : Node) : Nat :=
  (if n.isControl then 1 + k else 0) + (n.elifBranches + n.handlerEntries)

/-- Where all children are treated alike, they sit one level deeper below a control structure. -/
theorem cost_of_uniform (k : Nat) {n : Node} (hrise : ∀ i, rise n i = if n.isControl then 1 else 0)
    (hown : n.elifBranches + n.handlerEntries = 0) :
    (if n.isControl then
      1 + k + total (n.children.attach.map fun ⟨c, _⟩ => cognitiveAt (k + 1) c)
    else total (n.children.attach.map fun ⟨c, _⟩ => cognitiveAt k c)) =
      ownCost k n + costBelow k n := by
  rw [costBelow_of_rise hrise, ownCost, hown]
  cases n.isControl <;> simp

theorem cognitiveAt_eq (k : Nat) (n : Node) : cognitiveAt k n = ownCost k n + costBelow k n := by
  cases n with
  | branch span elif test body orelse =>
    rw [cognitiveAt, costBelow_branch, total_succ_elif]
    simp only [ownCost, isControl, elifBranches, handlerEntries, if_true]
    omega
  | tryExcept span body handlers orelse final =>
    have hrise : ∀ i, rise (.tryExcept span body handlers orelse final) i = 1 := fun i => rfl
    rw [cognitiveAt, costBelow_of_rise hrise, total_map_const_add handlers 1]
    simp only [ownCost, isControl, elifBranches, handlerEntries, if_true, children, List.map_append,
      total_append]
    omega
  | _ =>
    rw [cognitiveAt]
    · exact cost_of_uniform k (fun _ => rfl) rfl
    all_goals simp

/-! ### The cost of a tree -/

theorem mem_placesIn_iff {n : Node} {p : Address × Node} :
    p ∈ placesIn n ↔ descendant? n p.1 = some p.2 := by
  obtain ⟨a, m⟩ := p
  rw [placesIn_eq, List.mem_cons, mem_places_iff]
  cases a with
  | nil => simp [nodeAt?, descendant?, eq_comm]
  | cons i a => simp [descendant?_of_ne_nil]

theorem map_snd_placesIn (n : Node) : (placesIn n).map Prod.snd = n.walk := by
  rw [placesIn_eq, List.map_cons, map_snd_places, walk_eq]

/-- A tree costs what its places cost, each at the level that the way down leads to. -/
theorem cognitiveAt_eq_total (k : Nat) (n : Node) :
    cognitiveAt k n = total ((placesIn n).map fun p => ownCost (k + level n p.1) p.2) := by
  induction n using induction_on_children generalizing k with
  | step n ih =>
    have hbelow : ∀ c ∈ n.children.zipIdx, cognitiveAt (k + rise n c.2) c.1 =
        total (((placesIn c.1).map (under c.2)).map fun p => ownCost (k + level n p.1) p.2) := by
      intro c hc
      have hn : n.children[c.2]? = some c.1 := List.mem_zipIdx_iff_getElem?.mp hc
      rw [ih c.1 (mem_of_mem_zipIdx hc), List.map_map]
      refine congrArg total (List.map_congr_left fun p _ => ?_)
      simp only [Function.comp_apply, under]
      rw [level_cons hn, Nat.add_assoc]
    rw [cognitiveAt_eq, costBelow, List.map_congr_left hbelow, placesIn_eq, List.map_cons,
      total_cons, places, total_map_flatMap]
    rfl

/-- The places of a tree where a control structure stands. -/
def controls (n : Node) : List (Address × Node) := (placesIn n).filter (·.2.isControl)

theorem length_controls (n : Node) : n.controls.length = n.walk.countP isControl := by
  rw [← map_snd_placesIn, List.countP_map, List.countP_eq_length_filter]
  rfl

theorem total_placesIn (w : Node → Nat) (n : Node) :
    total ((placesIn n).map fun p => w p.2) = total (n.walk.map w) := by
  rw [← map_snd_placesIn, List.map_map]
  rfl

theorem cognitiveAt_eq_controls (k : Nat) (n : Node) : cognitiveAt k n =
    total (n.controls.map fun p => 1 + (k + level n p.1))
      + total (n.walk.map elifBranches) + total (n.walk.map handlerEntries) := by
  have hcontrols : total ((placesIn n).map fun p =>
        if p.2.isControl then 1 + (k + level n p.1) else 0) =
      total (n.controls.map fun p => 1 + (k + level n p.1)) := by
    rw [controls, ← total_map_filter (p := (·.2.isControl)) fun p _ h => by simp [h]]
    refine congrArg total (List.map_congr_left fun p hp => ?_)
    rw [if_pos (List.mem_filter.mp hp).2]
  rw [cognitiveAt_eq_total]
  simp only [ownCost]
  rw [total_map_add, total_map_add, hcontrols, total_placesIn, total_placesIn, Nat.add_assoc]

/-- A tree that sits deeper costs as much more for each of its control structures. -/
theorem cognitiveAt_eq_add (k : Nat) (n : Node) :
    cognitiveAt k n = cognitiveAt 0 n + k * n.walk.countP isControl := by
  have hdeeper : total (n.controls.map fun p => 1 + (k + level n p.1)) =
      total (n.controls.map fun p => 1 + (0 + level n p.1)) + k * n.controls.length := by
    have hcosts : ∀ p ∈ n.controls, 1 + (k + level n p.1) = k + (1 + (0 + level n p.1)) :=
      fun p _ => by omega
    rw [List.map_congr_left hcosts, total_map_const_add, Nat.add_comm]
  rw [cognitiveAt_eq_controls, cognitiveAt_eq_controls, hdeeper, length_controls]
  omega

/-- Cognitive complexity is a sum over the control structures of a tree, each weighed by its level,
and over the branches that continue others and the handlers. -/
theorem cognitive_closed_form (n : Node) :
    n.cognitive = total (((placesIn n).filter (·.2.isControl)).map fun p => 1 + level n p.1)
      + total (n.walk.map elifBranches) + total (n.walk.map handlerEntries) ∧
    (placesIn n).map Prod.snd = n.walk ∧ (∀ p, p ∈ placesIn n ↔ descendant? n p.1 = some p.2) ∧
    ∀ k, cognitiveAt k n = cognitiveAt 0 n + k * n.walk.countP isControl := by
  refine ⟨?_, map_snd_placesIn n, fun p => mem_placesIn_iff, fun k => cognitiveAt_eq_add k n⟩
  rw [cognitive, cognitiveAt_eq_controls]
  simp only [Nat.zero_add]
  rfl

end QualityGate.Node
