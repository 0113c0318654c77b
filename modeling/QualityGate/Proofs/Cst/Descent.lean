import Mathlib.Data.List.Basic
import QualityGate.Python.Lowering
import QualityGate.Total

/-! Going down a concrete syntax tree. A tree has more nodes than what stands below it, and so
than the operands of a chain of conditions and the fields' values of a string, which may stand
several nodes further down. The operands are found with a stack: no step changes what will have
been found when the stack is empty, so they are those that recursion finds. -/
namespace QualityGate.Python.Cst

/-- Induction on a tree: what holds of a node when it holds of its children holds of
every node. -/
theorem induction_on_children {P : Cst → Prop} (step : ∀ c, (∀ d ∈ c.children, P d) → P c)
    (c : Cst) : P c :=
  step c fun d hd =>
    have := sizeOf_lt_of_mem_children hd
    induction_on_children step d
termination_by sizeOf c

/-! ### Number of nodes -/

theorem count_le_total {c : Cst} {cs : List Cst} (h : c ∈ cs) : c.count ≤ total (cs.map count) := by
  induction cs with
  | nil => simp at h
  | cons d cs ih =>
    rw [List.map_cons, total_cons]
    rcases List.mem_cons.mp h with rfl | h
    · omega
    · have := ih h
      omega

theorem total_count_filter_le (p : Cst → Bool) (cs : List Cst) :
    total ((cs.filter p).map count) ≤ total (cs.map count) := by
  induction cs with
  | nil => simp
  | cons c cs ih =>
    rw [List.filter_cons, List.map_cons, total_cons]
    split
    · rw [List.map_cons, total_cons]
      omega
    · omega

theorem count_lt_of_mem_children {c d : Cst} (h : d ∈ c.children) : d.count < c.count := by
  have := count_le_total h
  rw [count_eq c]
  omega

theorem count_lt_of_child? {c d : Cst} {f : Field} (h : c.child? f = some d) : d.count < c.count :=
  count_lt_of_mem_children (mem_children_of_child? h)

theorem count_lt_of_mem_parts {c d : Cst} (h : d ∈ c.parts) : d.count < c.count :=
  count_lt_of_mem_children (mem_children_of_mem_parts h)

theorem count_lt_of_part? {c d : Cst} {k : Kind} (h : c.part? k = some d) : d.count < c.count :=
  count_lt_of_mem_children (mem_children_of_part? h)

/-- The children in a role have together fewer nodes than their parent. -/
theorem total_count_childrenAs_lt (c : Cst) (f : Field) :
    total ((c.childrenAs f).map count) < c.count := by
  have := total_count_filter_le (·.field? = some f) c.children
  rw [count_eq c, childrenAs]
  omega

/-! ### Content -/

/-- The content of a node stops where that of its last child does that is no comment. -/
theorem contentEnd_eq (c : Cst) : c.contentEnd =
    (((c.children.filter fun d => !d.isComment).getLast?).map contentEnd).getD c.stop := by
  rw [contentEnd]
  split <;> simp [*]

/-! ### Operands -/

theorem mem_children_of_mem_sides {c d : Cst} (h : d ∈ c.sides) : d ∈ c.children := by
  obtain ⟨f, -, hd⟩ := List.mem_filterMap.mp h
  exact mem_children_of_child? hd

/-- The operands of a chain by recursion: those of its two sides, the left one first. -/
def inOrder (op : BoolOperator) (c : Cst) : List Cst :=
  if c.joins op then c.sides.attach.flatMap fun ⟨d, _⟩ => inOrder op d else [c]
termination_by sizeOf c
decreasing_by exact sizeOf_lt_of_mem_children (mem_children_of_mem_sides ‹_›)

theorem inOrder_eq (op : BoolOperator) (c : Cst) :
    c.inOrder op = if c.joins op then c.sides.flatMap (inOrder op) else [c] := by
  rw [inOrder]
  simp

namespace Flattening

variable {op : BoolOperator} {s s' : Flattening}

/-- What is found when all that is pending has been taken apart. -/
def listing (op : BoolOperator) (s : Flattening) : List Cst :=
  s.found.toList ++ s.pending.toList.reverse.flatMap (inOrder op)

theorem listing_ofLists (op : BoolOperator) (pending found : List Cst) :
    (ofLists pending found).listing op = found ++ pending.flatMap (inOrder op) := by
  simp [listing, ofLists]

/-- A step changes nothing about what will be found. -/
theorem listing_step (h : s.step? op = some s') : s'.listing op = s.listing op := by
  obtain ⟨pending, found, rfl⟩ := s.exists_ofLists
  cases pending with
  | nil => cases h
  | cons c pending =>
    rw [step?_cons] at h
    rw [listing_ofLists, List.flatMap_cons, inOrder_eq]
    split at h
    next hjoins =>
      obtain rfl := Option.some.inj h
      rw [listing_ofLists, List.flatMap_append, if_pos hjoins]
    next hother =>
      obtain rfl := Option.some.inj h
      rw [listing_ofLists, if_neg hother, List.append_assoc]

theorem listing_of_done (h : s.step? op = none) : s.listing op = s.found.toList := by
  obtain ⟨pending, found, rfl⟩ := s.exists_ofLists
  cases pending with
  | nil =>
    rw [listing_ofLists, List.flatMap_nil, List.append_nil]
    rfl
  | cons c pending =>
    rw [step?_cons] at h
    split at h <;> cases h

theorem toList_run (op : BoolOperator) (s : Flattening) : (s.run op).toList = s.listing op := by
  induction s using run.induct op with
  | case1 s hdone => rw [run_eq, hdone, listing_of_done hdone]
  | case2 s s' hstep ih => rw [run_eq, hstep, ← listing_step hstep, ← ih]

/-- Taking a chain apart comes to an end. -/
theorem wellFounded_step (op : BoolOperator) :
    WellFounded fun s' s : Flattening => s.step? op = some s' :=
  Subrelation.wf (fun h => weight_lt_of_step? h) (measure weight).wf

end Flattening

theorem operands_eq_inOrder (op : BoolOperator) (c : Cst) : c.operands op = c.inOrder op := by
  rw [operands, Flattening.toList_run]
  simp [Flattening.listing]

/-- The operands of a chain are those of its two sides. -/
theorem operands_eq (op : BoolOperator) (c : Cst) :
    c.operands op = if c.kind = .booleanOperator ∧ c.boolOperator = op then
      (c.child? .left).toList.flatMap (operands op) ++ (c.child? .right).toList.flatMap (operands op)
    else [c] := by
  have hinOrder : operands op = inOrder op := funext (operands_eq_inOrder op)
  rw [hinOrder, inOrder_eq, sides_eq, List.flatMap_append]
  simp only [joins, Bool.and_eq_true, decide_eq_true_eq]

theorem count_le_of_mem_operands {op : BoolOperator} {c d : Cst} (h : d ∈ c.operands op) :
    d.count ≤ c.count := by
  induction c using induction_on_children with
  | step c ih =>
    rw [operands_eq] at h
    split at h
    · simp only [List.mem_append, List.mem_flatMap, Option.mem_toList] at h
      obtain ⟨e, he, hd⟩ | ⟨e, he, hd⟩ := h
      all_goals
        have hchild := mem_children_of_child? he
        have hbelow := ih e hchild hd
        have hlt := count_lt_of_mem_children hchild
        omega
    · obtain rfl := List.mem_singleton.mp h
      exact Nat.le_refl _

/-- The operands of a chain have fewer nodes than the chain. -/
theorem count_lt_of_mem_operands {c d : Cst} (hk : c.kind = .booleanOperator)
    (h : d ∈ c.operands c.boolOperator) : d.count < c.count := by
  rw [operands_eq, if_pos ⟨hk, rfl⟩] at h
  simp only [List.mem_append, List.mem_flatMap, Option.mem_toList] at h
  obtain ⟨e, he, hd⟩ | ⟨e, he, hd⟩ := h
  all_goals
    have hle := count_le_of_mem_operands hd
    have hlt := count_lt_of_child? he
    omega

/-! ### Strings -/

theorem stringPieces_eq (source : Array Char) (c : Cst) :
    c.stringPieces source = c.parts.flatMap fun d =>
      match d.kind with
      | .string => stringPieces source d
      | .stringContent => [.inl (d.text source)]
      | .interpolation => ((d.child? .expression).map .inr).toList
      | _ => [] := by
  rw [stringPieces, List.flatMap_subtype (g := fun d => match d.kind with
      | .string => stringPieces source d
      | .stringContent => [.inl (d.text source)]
      | .interpolation => ((d.child? .expression).map .inr).toList
      | _ => []), List.unattach_attach]
  intro d hd
  rfl

/-- The values in the fields of a string or a row of strings. -/
def fieldValues (source : Array Char) (c : Cst) : List Cst :=
  (c.stringPieces source).filterMap Sum.getRight?

theorem fieldValues_eq (source : Array Char) (c : Cst) :
    c.fieldValues source = c.parts.flatMap fun d =>
      match d.kind with
      | .string => d.fieldValues source
      | .interpolation => (d.child? .expression).toList
      | _ => [] := by
  rw [fieldValues, stringPieces_eq, List.filterMap_flatMap]
  refine List.flatMap_congr fun d _ => ?_
  split <;> simp only [*]
  · rfl
  · rfl
  · cases d.child? .expression <;> rfl
  · rfl

/-- The fields' values of a string have fewer nodes than the string. -/
theorem count_lt_of_mem_stringPieces {source : Array Char} {c d : Cst}
    (h : .inr d ∈ c.stringPieces source) : d.count < c.count := by
  induction c using induction_on_children with
  | step c ih =>
    rw [stringPieces_eq, List.mem_flatMap] at h
    obtain ⟨e, he, h⟩ := h
    have hlt := count_lt_of_mem_parts he
    split at h
    · have := ih e (mem_children_of_mem_parts he) h
      omega
    · simp at h
    · simp only [Option.mem_toList, Option.map_eq_some_iff] at h
      obtain ⟨x, hx, heq⟩ := h
      obtain rfl := Sum.inr.inj heq
      have := count_lt_of_child? hx
      omega
    · simp at h

end QualityGate.Python.Cst
