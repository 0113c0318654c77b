import Mathlib.Data.List.Induction
import Mathlib.Data.List.Nodup
import Mathlib.Order.Bounds.Defs
import QualityGate.Proofs.Cst.Placement

/-! Chains of conditions as parts of a tree. A route says which side to take at every node on the
way down from a chain. The nodes with the operator of the chain that hang together with it are its
region, the largest part of this kind. The operands are the sides of its nodes that are outside of
it, and they come from left to right, also in the text. -/
namespace QualityGate.Python

/-! ### Routes -/

inductive Side where
  | left
  | right
deriving DecidableEq, Repr

def Side.field : Side → Field
  | left => .left
  | right => .right

/-- The way down to a node, by the side to take at every node. -/
abbrev Route := List Side

namespace Route

/-- Whether a route lies to the left of another one: where they part, it takes the left side. -/
def Precedes (a b : Route) : Prop := ∃ p : Route, p ++ [.left] <+: a ∧ p ++ [.right] <+: b

theorem Precedes.cons {a b : Route} (h : Precedes a b) (s : Side) :
    Precedes (s :: a) (s :: b) := by
  obtain ⟨p, ha, hb⟩ := h
  exact ⟨s :: p, by simpa using ha, by simpa using hb⟩

theorem precedes_of_sides (a b : Route) : Precedes (.left :: a) (.right :: b) :=
  ⟨[], by simp, by simp⟩

end Route

namespace Cst

variable {op : BoolOperator} {c d : Cst} {r : Route}

/-- The node at the end of a route. -/
def follow? : Cst → Route → Option Cst
  | c, [] => some c
  | c, s :: r => (c.child? s.field).bind (follow? · r)

/-- The nodes right below a condition with the sides that they are on, the left one first. -/
def branches (c : Cst) : List (Side × Cst) :=
  [Side.left, .right].filterMap fun s => (c.child? s.field).map (s, ·)

theorem mem_branches {b : Side × Cst} : b ∈ c.branches ↔ c.child? b.1.field = some b.2 := by
  obtain ⟨s, d⟩ := b
  cases s <;> simp [branches, Side.field]

theorem mem_children_of_mem_branches {b : Side × Cst} (h : b ∈ c.branches) : b.2 ∈ c.children :=
  mem_children_of_child? (mem_branches.mp h)

theorem map_snd_branches (c : Cst) : c.branches.map Prod.snd = c.sides := by
  rw [branches, sides, List.filterMap_cons, List.filterMap_cons, List.filterMap_nil,
    List.filterMap_cons, List.filterMap_cons, List.filterMap_nil]
  simp only [Side.field]
  cases c.child? .left <;> cases c.child? .right <;> rfl

/-- Of two branches the first one is on the left. -/
theorem pairwise_branches (c : Cst) :
    c.branches.Pairwise fun a b => a.1 = .left ∧ b.1 = .right := by
  rw [branches, List.pairwise_filterMap]
  simp

/-! ### Regions -/

/-- The routes to the nodes of a chain that hang together with its root and have the operator. -/
def region (op : BoolOperator) (c : Cst) : List Route :=
  if c.joins op then
    [] :: c.branches.attach.flatMap fun ⟨b, _⟩ => (region op b.2).map (b.1 :: ·)
  else []
termination_by sizeOf c
decreasing_by exact sizeOf_lt_of_mem_children (mem_children_of_mem_branches ‹_›)

/-- The operands of a chain with the routes to them, from left to right. -/
def operandPlaces (op : BoolOperator) (c : Cst) : List (Route × Cst) :=
  if c.joins op then
    c.branches.attach.flatMap fun ⟨b, _⟩ => (operandPlaces op b.2).map (Prod.map (b.1 :: ·) id)
  else [([], c)]
termination_by sizeOf c
decreasing_by exact sizeOf_lt_of_mem_children (mem_children_of_mem_branches ‹_›)

theorem region_eq (op : BoolOperator) (c : Cst) : c.region op =
    if c.joins op then [] :: c.branches.flatMap fun b => (b.2.region op).map (b.1 :: ·)
    else [] := by
  rw [region, List.flatMap_subtype (g := fun b => (region op b.2).map (b.1 :: ·)) fun _ _ => rfl,
    List.unattach_attach]

theorem operandPlaces_eq (op : BoolOperator) (c : Cst) : c.operandPlaces op =
    if c.joins op then
      c.branches.flatMap fun b => (b.2.operandPlaces op).map (Prod.map (b.1 :: ·) id)
    else [([], c)] := by
  rw [operandPlaces, List.flatMap_subtype
    (g := fun b => (operandPlaces op b.2).map (Prod.map (b.1 :: ·) id)) fun _ _ => rfl,
    List.unattach_attach]

theorem nil_mem_region : [] ∈ c.region op ↔ c.joins op := by
  rw [region_eq]
  split <;> simp [*]

theorem cons_mem_region {s : Side} : s :: r ∈ c.region op ↔
    c.joins op ∧ ∃ d, c.child? s.field = some d ∧ r ∈ d.region op := by
  rw [region_eq]
  split
  next hjoins =>
    simp only [List.mem_cons, reduceCtorEq, false_or, List.mem_flatMap, List.mem_map,
      List.cons.injEq, hjoins, true_and]
    constructor
    · rintro ⟨⟨t, d⟩, hd, r', hr, rfl, rfl⟩
      exact ⟨d, mem_branches.mp hd, hr⟩
    · rintro ⟨d, hd, hr⟩
      exact ⟨(s, d), mem_branches.mpr hd, r, hr, rfl, rfl⟩
  next hother => simp [hother]

theorem nil_mem_operandPlaces : ([], d) ∈ c.operandPlaces op ↔ c = d ∧ c.joins op = false := by
  rw [operandPlaces_eq]
  split <;> simp [*, eq_comm]

theorem cons_mem_operandPlaces {s : Side} : (s :: r, d) ∈ c.operandPlaces op ↔
    c.joins op ∧ ∃ e, c.child? s.field = some e ∧ (r, d) ∈ e.operandPlaces op := by
  rw [operandPlaces_eq]
  split
  next hjoins =>
    simp only [List.mem_flatMap, List.mem_map, hjoins, true_and]
    constructor
    · rintro ⟨⟨t, e⟩, he, ⟨r', d'⟩, hp, heq⟩
      obtain ⟨⟨rfl, rfl⟩, rfl⟩ := by simpa using heq
      exact ⟨e, mem_branches.mp he, hp⟩
    · rintro ⟨e, he, hp⟩
      exact ⟨(s, e), mem_branches.mpr he, (r, d), hp, rfl⟩
  next hother => simp [hother]

/-- A route stays in the region as long as every node on the way has the operator. -/
theorem mem_region_iff : r ∈ c.region op ↔ ∀ p, p <+: r → (c.follow? p).any (joins op) := by
  induction r generalizing c with
  | nil => simp [nil_mem_region, follow?]
  | cons s r ih =>
    rw [cons_mem_region]
    constructor
    · rintro ⟨hjoins, d, hd, hr⟩ p hp
      obtain rfl | ⟨q, rfl, hq⟩ := List.prefix_cons_iff.mp hp
      · simpa [follow?] using hjoins
      · simpa [follow?, hd] using ih.mp hr q hq
    · intro h
      have hfirst : ((c.child? s.field).bind (follow? · [])).any (joins op) := h [s] (by simp)
      obtain ⟨d, hd⟩ : ∃ d, c.child? s.field = some d := by
        cases hchild : c.child? s.field with
        | none => simp [hchild] at hfirst
        | some d => exact ⟨d, rfl⟩
      refine ⟨by simpa [follow?] using h [] List.nil_prefix, d, hd, ih.mpr fun p hp => ?_⟩
      simpa [follow?, hd] using h (s :: p) (List.cons_prefix_cons.mpr ⟨rfl, hp⟩)

/-- Routes from a chain to nodes that have the operator and hang together with its root. -/
structure IsTract (op : BoolOperator) (c : Cst) (S : Set Route) : Prop where
  joins : ∀ r ∈ S, (c.follow? r).any (joins op)
  above : ∀ r s, r ++ [s] ∈ S → r ∈ S

theorem IsTract.of_prefix {S : Set Route} (h : c.IsTract op S) {p : Route} (hp : p <+: r)
    (hr : r ∈ S) : p ∈ S := by
  obtain ⟨t, rfl⟩ := hp
  induction t using List.reverseRecOn with
  | nil => simpa using hr
  | append_singleton t s ih => exact ih (h.above _ s (by simpa using hr))

/-- No part of the chain that hangs together by the operator goes beyond the region. -/
theorem isGreatest_region (op : BoolOperator) (c : Cst) :
    IsGreatest {S | c.IsTract op S} {r | r ∈ c.region op} := by
  refine ⟨⟨fun r hr => ?_, fun r s hr => ?_⟩, fun S hS r hr => ?_⟩
  · exact mem_region_iff.mp hr r List.prefix_rfl
  · exact mem_region_iff.mpr fun p hp =>
      mem_region_iff.mp hr p (hp.trans (List.prefix_append r [s]))
  · exact mem_region_iff.mpr fun p hp => hS.joins p (hS.of_prefix hp hr)

/-- No node is counted twice. -/
theorem nodup_region (op : BoolOperator) (c : Cst) : (c.region op).Nodup := by
  induction c using induction_on_children with
  | step c ih =>
    rw [region_eq]
    split
    · refine List.nodup_cons.mpr ⟨by simp, List.nodup_flatMap.mpr ⟨fun b hb => ?_, ?_⟩⟩
      · have hbelow := ih b.2 (mem_children_of_mem_branches hb)
        exact hbelow.map fun _ _ => List.tail_eq_of_cons_eq
      · refine c.pairwise_branches.imp fun {a b} ⟨ha, hb⟩ => ?_
        simp [Function.onFun, List.disjoint_left, ha, hb]
    · exact List.nodup_nil

/-! ### Operands -/

theorem map_snd_operandPlaces (op : BoolOperator) (c : Cst) :
    (c.operandPlaces op).map Prod.snd = c.operands op := by
  rw [operands_eq_inOrder]
  induction c using induction_on_children with
  | step c ih =>
    rw [operandPlaces_eq, inOrder_eq]
    split
    · rw [← map_snd_branches, List.flatMap_map, List.map_flatMap]
      refine List.flatMap_congr fun b hb => ?_
      rw [← ih b.2 (mem_children_of_mem_branches hb), List.map_map]
      rfl
    · rfl

/-- An operand does not have the operator, and it is the chain or on a side of a node of the
region. -/
theorem mem_operandPlaces_iff : (r, d) ∈ c.operandPlaces op ↔ c.follow? r = some d ∧
    d.joins op = false ∧ (r = [] ∨ ∃ p ∈ c.region op, ∃ s, r = p ++ [s]) := by
  induction r generalizing c with
  | nil =>
    rw [nil_mem_operandPlaces]
    simp only [follow?, Option.some.injEq, true_or, and_true]
    exact and_congr_right fun heq => by rw [heq]
  | cons s r ih =>
    rw [cons_mem_operandPlaces]
    constructor
    · rintro ⟨hjoins, e, he, hr⟩
      obtain ⟨hd, hother, hside⟩ := ih.mp hr
      refine ⟨by simpa [follow?, he] using hd, hother, .inr ?_⟩
      rcases hside with rfl | ⟨p, hp, t, rfl⟩
      · exact ⟨[], nil_mem_region.mpr hjoins, s, rfl⟩
      · exact ⟨s :: p, cons_mem_region.mpr ⟨hjoins, e, he, hp⟩, t, rfl⟩
    · rintro ⟨hd, hother, hside⟩
      obtain ⟨e, he, hd⟩ := Option.bind_eq_some_iff.mp hd
      obtain ⟨p, hp, t, hr⟩ := hside.resolve_left (by simp)
      cases p with
      | nil =>
        obtain ⟨rfl, rfl⟩ := by simpa using hr
        exact ⟨nil_mem_region.mp hp, e, he, ih.mpr ⟨hd, hother, .inl rfl⟩⟩
      | cons u p =>
        obtain ⟨rfl, rfl⟩ := by simpa using hr
        obtain ⟨hjoins, e', he', hp⟩ := cons_mem_region.mp hp
        obtain rfl := Option.some.inj (he.symm.trans he')
        exact ⟨hjoins, e, he, ih.mpr ⟨hd, hother, .inr ⟨p, hp, t, rfl⟩⟩⟩

/-- The operands come from left to right. -/
theorem pairwise_precedes_operandPlaces (op : BoolOperator) (c : Cst) :
    (c.operandPlaces op).Pairwise fun p q => p.1.Precedes q.1 := by
  induction c using induction_on_children with
  | step c ih =>
    rw [operandPlaces_eq]
    split
    · refine List.pairwise_flatMap.mpr ⟨fun b hb => ?_, ?_⟩
      · have hbelow := ih b.2 (mem_children_of_mem_branches hb)
        exact List.pairwise_map.mpr (hbelow.imp fun h => h.cons b.1)
      · refine c.pairwise_branches.imp fun {a b} ⟨ha, hb⟩ x hx y hy => ?_
        obtain ⟨p, -, rfl⟩ := List.mem_map.mp hx
        obtain ⟨q, -, rfl⟩ := List.mem_map.mp hy
        simpa [ha, hb] using Route.precedes_of_sides p.1 q.1
    · exact List.pairwise_singleton ..

/-- Where no condition lacks a side, there is one operand more than there are nodes in the
region. -/
theorem length_operandPlaces (hsides : ∀ d ∈ c.nodes, d.kind = .booleanOperator →
      (d.child? .left).isSome ∧ (d.child? .right).isSome) :
    (c.operandPlaces op).length = (c.region op).length + 1 := by
  induction c using induction_on_children with
  | step c ih =>
    rw [operandPlaces_eq, region_eq]
    split
    next hjoins =>
      have hkind : c.kind = .booleanOperator := by
        rw [joins, Bool.and_eq_true, decide_eq_true_eq] at hjoins
        exact hjoins.1
      obtain ⟨hleft, hright⟩ := hsides c c.mem_nodes_self hkind
      obtain ⟨l, hl⟩ := Option.isSome_iff_exists.mp hleft
      obtain ⟨r, hr⟩ := Option.isSome_iff_exists.mp hright
      have hbranches : c.branches = [(.left, l), (.right, r)] := by
        simp [branches, Side.field, hl, hr]
      have hbelow : ∀ d ∈ c.children, (d.operandPlaces op).length = (d.region op).length + 1 :=
        fun d hd => ih d hd fun e he => hsides e (nodes_subset_of_mem_children hd he)
      have hlength := hbelow l (mem_children_of_child? hl)
      have hlength' := hbelow r (mem_children_of_child? hr)
      simp only [hbranches, List.flatMap_cons, List.flatMap_nil, List.append_nil,
        List.length_append, List.length_map, List.length_cons]
      omega
    next => rfl

/-- In a tree with places the operands stand in the chain, one behind the other. -/
theorem operands_in_order (h : ∀ d ∈ c.nodes, d.isPlaced) :
    (∀ d ∈ c.operands op, c.start ≤ d.start ∧ d.stop ≤ c.stop) ∧
      (c.operands op).Pairwise fun d e => d.stop ≤ e.start := by
  rw [operands_eq_inOrder]
  induction c using induction_on_children with
  | step c ih =>
    obtain ⟨-, hholds, -, hreads, -⟩ := isPlaced_iff.mp (h c c.mem_nodes_self)
    rw [inOrder_eq]
    split
    next hjoins =>
      have hsides : c.reads = c.sides := by
        rw [joins, Bool.and_eq_true, decide_eq_true_eq] at hjoins
        simp only [reads, hjoins.1, sides_eq]
      rw [hsides] at hreads
      have hbelow := fun d hd => ih d (mem_children_of_mem_sides hd) fun e he =>
        h e (nodes_subset_of_mem_children (mem_children_of_mem_sides hd) he)
      refine ⟨fun e he => ?_, List.pairwise_flatMap.mpr ⟨fun d hd => (hbelow d hd).2, ?_⟩⟩
      · obtain ⟨d, hd, he⟩ := List.mem_flatMap.mp he
        have houter := hholds d (mem_children_of_mem_sides hd)
        have hinner := (hbelow d hd).1 e he
        exact ⟨Position.le_trans houter.1 hinner.1, Position.le_trans hinner.2 houter.2⟩
      · refine (List.Pairwise.and_mem.mp hreads).imp ?_
        rintro d e ⟨hd, he, hde⟩ x hx y hy
        have hstop := ((hbelow d hd).1 x hx).2
        have hstart := ((hbelow e he).1 y hy).1
        exact Position.le_trans hstop (Position.le_trans hde hstart)
    next => exact ⟨by simp [Position.le_refl], List.pairwise_singleton ..⟩

end Cst

end QualityGate.Python
