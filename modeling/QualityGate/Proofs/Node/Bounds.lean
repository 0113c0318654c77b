import Mathlib.Tactic.Linarith
import QualityGate.Proofs.Node.Growth

/-! How cognitive complexity and nesting depth bound one another. Every control structure costs at
least one and at most the number of control structures on the way down to it, itself included, which
the nesting depth bounds. From below, the control structures on the deepest way down cost one, two,
three and so on, if every edge between them leads a level deeper: no branch continues another one,
and none of them stands in a test. -/
namespace QualityGate.Node

/-! ### Levels and nesting -/

theorem rise_le_weight (n : Node) (i : Nat) : rise n i ≤ n.weight := by
  have hcontrol : deepens n i → n.isControl := by
    cases n with
    | branch => exact fun _ => rfl
    | _ => exact id
  rw [rise, weight]
  split_ifs with hdeepens hnot
  · exact le_rfl
  · exact absurd (hcontrol hdeepens) hnot
  · exact Nat.zero_le _
  · exact le_rfl

/-- The edges that lead a level deeper leave different control structures on the way down. -/
theorem level_add_weight_le {n m : Node} {a : Address} (hm : descendant? n a = some m) :
    level n a + m.weight ≤ n.weight + nestingAt n a := by
  induction a generalizing n with
  | nil =>
    obtain rfl := Option.some.inj hm
    exact (Nat.add_comm _ _).le
  | cons i a ih =>
    obtain ⟨c, hc, hbelow⟩ := Option.bind_eq_some_iff.mp hm
    have hedge := rise_le_weight n i
    have hrest := ih hbelow
    rw [level_cons hc, nestingAt_cons hc]
    omega

theorem level_lt_height {n : Node} {p : Address × Node} (hp : p ∈ n.controls) :
    1 + (0 + level n p.1) ≤ n.height := by
  obtain ⟨hplace, hcontrol⟩ := List.mem_filter.mp hp
  have hm := mem_placesIn_iff.mp hplace
  have hlevel := level_add_weight_le hm
  have hnesting := nestingAt_le_nestingDepth hm
  rw [weight, if_pos hcontrol] at hlevel
  rw [height]
  omega

/-! ### Bounds by the number of control structures -/

theorem le_cognitive (n : Node) : n.walk.countP isControl + total (n.walk.map elifBranches)
    + total (n.walk.map handlerEntries) ≤ n.cognitive := by
  rw [cognitive, cognitiveAt_eq_controls, total_map_const_add, ← length_controls]
  omega

theorem cognitive_le (n : Node) : n.cognitive ≤ n.walk.countP isControl * n.height
    + total (n.walk.map elifBranches) + total (n.walk.map handlerEntries) := by
  have hcontrols : total (n.controls.map fun p => 1 + (0 + level n p.1)) ≤
      n.walk.countP isControl * n.height := by
    rw [← length_controls]
    exact total_map_le_mul fun p hp => level_lt_height hp
  rw [cognitive, cognitiveAt_eq_controls]
  omega

/-! ### The pyramid -/

def test? : Node → Option Node
  | branch _ _ test _ _ => some test
  | _ => none

/-- In a tree every edge leads a level deeper that could: no branch continues another one, and in
tests there are no control structures. -/
def IsStepped (n : Node) : Prop :=
  ∀ x ∈ n.walk, x.isElif = false ∧ ∀ t ∈ x.test?, ∀ y ∈ t.walk, y.isControl = false

variable {n c : Node}

theorem IsStepped.of_mem_children (h : IsStepped n) (hc : c ∈ n.children) : IsStepped c :=
  fun x hx => h x ((walk_sublist_of_mem_children hc).subset hx)

theorem rise_eq_weight {i : Nat} (hc : n.children[i]? = some c) (helif : c.isElif = false)
    (htest : n.test? ≠ some c) : rise n i = n.weight := by
  cases n with
  | branch span elif test body orelse =>
    cases i with
    | zero =>
      obtain rfl : test = c := by simpa [children] using hc
      exact absurd rfl htest
    | succ i =>
      by_cases hi : i < body.length
      · exact rise_body hi
      · obtain ⟨j, rfl⟩ := Nat.exists_eq_add_of_le (Nat.le_of_not_lt hi)
        have hj : orelse[j]? = some c := by
          rwa [children, List.getElem?_cons_succ, List.getElem?_append_right (by omega),
            Nat.add_sub_cancel_left] at hc
        rw [rise_orelse hj, helif]
        rfl
  | _ => rfl

/-- An edge to a child that holds a control structure leads out of a control structure a level
deeper. -/
theorem IsStepped.rise_eq {i : Nat} (h : IsStepped n) (hc : n.children[i]? = some c)
    (hheight : c.height ≠ 0) : rise n i = n.weight := by
  have hmem : c ∈ n.children := List.mem_of_getElem? hc
  have hself : ∀ m : Node, m ∈ m.walk := fun m => by
    rw [walk_eq]
    exact List.mem_cons_self
  refine rise_eq_weight hc (h.of_mem_children hmem c (hself c)).1 fun htest => hheight ?_
  exact height_eq_zero ((h n (hself n)).2 c htest)

/-- The control structures on the deepest way down cost one, two, three and so on, and each of them
as much more as the level that the way starts at. -/
theorem IsStepped.pyramid_le_cognitiveAt (h : IsStepped n) (k : Nat) :
    2 * (n.height * k) + n.height * (n.height + 1) ≤ 2 * cognitiveAt k n := by
  induction n using induction_on_children generalizing k with
  | step n ih =>
    have hown : n.weight * (k + 1) ≤ ownCost k n := by
      rw [weight, ownCost]
      split_ifs <;> omega
    have hbelow : 2 * (n.nestingDepth * (k + n.weight)) + n.nestingDepth * (n.nestingDepth + 1) ≤
        2 * costBelow k n := by
      by_cases hdepth : n.nestingDepth = 0
      · simp [hdepth]
      · obtain ⟨c, hc, hheight⟩ := exists_height_eq hdepth
        obtain ⟨i, hi⟩ := List.mem_iff_getElem?.mp hc
        have hrise : rise n i = n.weight := h.rise_eq hi (by omega)
        have hchild := cognitiveAt_le_costBelow hi k
        have hpyramid := ih c hc (h.of_mem_children hc) (k + n.weight)
        rw [hheight] at hpyramid
        rw [hrise] at hchild
        omega
    have hweight : n.weight = 0 ∨ n.weight = 1 := by
      rw [weight]
      split_ifs <;> simp
    rw [cognitiveAt_eq, height]
    rcases hweight with hw | hw <;> rw [hw] at hown hbelow ⊢ <;> linarith

/-- The cognitive complexity of a function lies between the number of its control structures and
their number times the nesting depth, both with one more for every branch that continues another one
and for every handler. The nesting depth is the largest number of control structures on a way down
from the function. Where no branch continues another one and tests hold no control structures, the
deepest way down alone costs one, two, three and so on. -/
theorem cognitive_between (span : Span) (head : FunctionHead) (body : List Node) :
    let f : Node := .functionDef span head body
    let controls := (walkAll body).countP isControl
    let elifs := total ((walkAll body).map elifBranches)
    let handlers := total ((walkAll body).map handlerEntries)
    let depth := f.nestingDepth
    controls + elifs + handlers ≤ f.cognitive ∧
    f.cognitive ≤ controls * depth + elifs + handlers ∧
    (∀ p ∈ placesIn f, (wayDown f p.1).countP isControl ≤ depth) ∧
    (∃ p ∈ placesIn f, (wayDown f p.1).countP isControl = depth) ∧
    ((∀ x ∈ walkAll body, x.isElif = false) →
      (∀ x ∈ walkAll body, ∀ t ∈ x.test?, ∀ y ∈ t.walk, y.isControl = false) →
      depth * (depth + 1) / 2 ≤ f.cognitive) := by
  intro f controls elifs handlers depth
  have hwalk : f.walk = f :: walkAll body := walk_eq f
  have hcontrols : f.walk.countP isControl = controls := by
    rw [hwalk, List.countP_cons_of_neg (by simp [f, isControl])]
  have helifs : total (f.walk.map elifBranches) = elifs := by
    rw [hwalk, List.map_cons, total_cons]
    exact Nat.zero_add _
  have hhandlers : total (f.walk.map handlerEntries) = handlers := by
    rw [hwalk, List.map_cons, total_cons]
    exact Nat.zero_add _
  have hheight : f.height = depth := Nat.zero_add _
  have hlower := le_cognitive f
  have hupper := cognitive_le f
  rw [hcontrols, helifs, hhandlers] at hlower hupper
  rw [hheight] at hupper
  refine ⟨hlower, hupper, fun p hp => nestingAt_le_nestingDepth (mem_placesIn_iff.mp hp),
    exists_nestingAt_eq f, fun hflat htests => ?_⟩
  have hstepped : IsStepped f := by
    rw [IsStepped, hwalk, List.forall_mem_cons]
    have htest : ∀ t ∈ f.test?, ∀ y ∈ t.walk, y.isControl = false := by simp [f, test?]
    exact ⟨⟨rfl, htest⟩, fun x hx => ⟨hflat x hx, htests x hx⟩⟩
  have hpyramid := hstepped.pyramid_le_cognitiveAt 0
  rw [hheight, Nat.mul_zero, Nat.mul_zero, Nat.zero_add] at hpyramid
  exact Nat.div_le_of_le_mul hpyramid

/-- A branch in a loop in a block, with a handler beside them that costs two more. -/
theorem cognitive_between_pyramid :
    let x : Node := .name ⟨1, 1⟩ "x"
    let inner : Node := .branch ⟨4, 5⟩ false x [x] [x]
    let body : List Node := [.withBlock ⟨2, 5⟩ false [x] [.loop ⟨3, 5⟩ .forEach [x, x] [inner] []],
      .tryExcept ⟨6, 9⟩ [x] [.handler ⟨8, 9⟩ (some x) none [x]] [] []]
    let f : Node := .functionDef ⟨1, 9⟩ ⟨"f", [], false⟩ body
    (∀ x ∈ walkAll body, x.isElif = false) ∧
      (∀ x ∈ walkAll body, ∀ t ∈ x.test?, ∀ y ∈ t.walk, y.isControl = false) ∧
      f.nestingDepth = 3 ∧ f.nestingDepth * (f.nestingDepth + 1) / 2 ≤ f.cognitive ∧
      f.cognitive = 8 := by
  intro x inner body f
  have hflat : ∀ x ∈ walkAll body, x.isElif = false := by decide +kernel
  have htests : ∀ x ∈ walkAll body, ∀ t ∈ x.test?, ∀ y ∈ t.walk, y.isControl = false := by
    decide +kernel
  obtain ⟨-, -, -, -, hpyramid⟩ := cognitive_between ⟨1, 9⟩ ⟨"f", [], false⟩ body
  exact ⟨hflat, htests, by decide +kernel, hpyramid hflat htests, by decide +kernel⟩

end QualityGate.Node
