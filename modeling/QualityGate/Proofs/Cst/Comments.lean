import Mathlib.Data.List.Basic
import QualityGate.Proofs.Cst.Shape

/-! Trees without their comments. Whatever is read of a node is the same without them: its lines
and its text, its parts and the children in a role, and what names, definitions, chains of
conditions and strings say. Only the first word of a definition, a loop or a block in contexts
is looked for among all children, and a role among all that have one. -/
namespace QualityGate.Python.Cst

/-- The tree without the comments below its root. -/
def withoutComments (c : Cst) : Cst :=
  .node c.kind c.field? c.start c.stop
    ((c.children.filter fun d => !d.isComment).attach.map fun ⟨d, _⟩ => withoutComments d)
termination_by sizeOf c
decreasing_by exact sizeOf_lt_of_mem_children (List.mem_filter.mp ‹_›).1

theorem withoutComments_eq (c : Cst) : c.withoutComments =
    .node c.kind c.field? c.start c.stop
      ((c.children.filter fun d => !d.isComment).map withoutComments) := by
  rw [withoutComments]
  simp

section Reading

variable (c : Cst)

@[simp] theorem kind_withoutComments : c.withoutComments.kind = c.kind := by
  rw [withoutComments_eq, kind]

@[simp] theorem field?_withoutComments : c.withoutComments.field? = c.field? := by
  rw [withoutComments_eq, field?]

@[simp] theorem start_withoutComments : c.withoutComments.start = c.start := by
  rw [withoutComments_eq, start]

@[simp] theorem stop_withoutComments : c.withoutComments.stop = c.stop := by
  rw [withoutComments_eq, stop]

theorem children_withoutComments : c.withoutComments.children =
    (c.children.filter fun d => !d.isComment).map withoutComments := by
  rw [withoutComments_eq, children]

@[simp] theorem isComment_withoutComments : c.withoutComments.isComment = c.isComment := by
  simp [isComment]

@[simp] theorem isNamed_withoutComments : c.withoutComments.isNamed = c.isNamed := by
  simp [isNamed]

@[simp] theorem text_withoutComments (source : Array Char) :
    c.withoutComments.text source = c.text source := by
  simp [text]

/-- No comment is left below the root. -/
theorem isComment_of_mem_nodes_withoutComments {d : Cst} (hc : c.isComment = false)
    (hd : d ∈ c.withoutComments.nodes) : d.isComment = false := by
  induction c using induction_on_children with
  | step c ih =>
    rw [nodes_eq, List.mem_cons, List.mem_flatMap] at hd
    rcases hd with rfl | ⟨e, he, hd⟩
    · rw [isComment_withoutComments, hc]
    · rw [children_withoutComments] at he
      obtain ⟨b, hb, rfl⟩ := List.mem_map.mp he
      obtain ⟨hmem, hb⟩ := List.mem_filter.mp hb
      exact ih b hmem (by simpa using hb) hd

/-- A test that does not look at comments passes the same children. -/
theorem filter_children_withoutComments {p : Cst → Bool}
    (hp : ∀ d ∈ c.children, p d.withoutComments = p d)
    (hcomment : ∀ d ∈ c.children, p d → d.isComment = false) :
    c.withoutComments.children.filter p = (c.children.filter p).map withoutComments := by
  rw [children_withoutComments, List.filter_map, List.filter_filter]
  refine congrArg _ (List.filter_congr fun d hd => ?_)
  rw [Function.comp_apply, hp d hd]
  cases hd' : p d with
  | false => rfl
  | true => rw [hcomment d hd hd']; rfl

@[simp] theorem parts_withoutComments :
    c.withoutComments.parts = c.parts.map withoutComments :=
  c.filter_children_withoutComments (by simp) (by simp)

/-- Parts that pass a test that does not look below them. -/
theorem filter_parts_withoutComments {p : Cst → Bool}
    (hp : ∀ d : Cst, p d.withoutComments = p d) :
    c.withoutComments.parts.filter p = (c.parts.filter p).map withoutComments := by
  rw [parts_withoutComments, List.filter_map]
  exact congrArg _ (List.filter_congr fun d _ => hp d)

theorem filterMap_parts_withoutComments {β : Type} {f : Cst → Option β}
    (hf : ∀ d ∈ c.parts, f d.withoutComments = f d) :
    c.withoutComments.parts.filterMap f = c.parts.filterMap f := by
  rw [parts_withoutComments, List.filterMap_map]
  exact List.filterMap_congr hf

/-- The last token that is no comment stays where it is. -/
@[simp] theorem contentEnd_withoutComments : c.withoutComments.contentEnd = c.contentEnd := by
  induction c using induction_on_children with
  | step c ih =>
    rw [contentEnd_eq, contentEnd_eq c, filter_children_withoutComments c (by simp) (by simp),
      List.getLast?_map, Option.map_map, stop_withoutComments]
    refine congrArg (Option.getD · _) (Option.map_congr fun d hd => ?_)
    exact ih d (List.mem_filter.mp (List.mem_of_getLast? hd)).1

@[simp] theorem span_withoutComments : c.withoutComments.span = c.span := by
  simp [span]

theorem part?_withoutComments (k : Kind) :
    c.withoutComments.part? k = (c.part? k).map withoutComments := by
  have hkind : (fun d : Cst => decide (d.kind = k)) ∘ withoutComments =
      fun d => decide (d.kind = k) := by
    funext d
    rw [Function.comp_apply, kind_withoutComments]
  rw [part?, part?, parts_withoutComments, List.find?_map, hkind]

@[simp] theorem names_withoutComments (source : Array Char) :
    c.withoutComments.names source = c.names source := by
  simp [names, List.filter_map, Function.comp_def]

@[simp] theorem splatName_withoutComments (source : Array Char) :
    c.withoutComments.splatName source = c.splatName source := by
  simp [splatName, Option.map_map, Function.comp_def]

@[simp] theorem isBytes_withoutComments (source : Array Char) :
    c.withoutComments.isBytes source = c.isBytes source := by
  induction c using induction_on_children with
  | step c ih =>
    rw [isBytes, isBytes, kind_withoutComments, parts_withoutComments, part?_withoutComments,
      List.head?_map]
    split
    · cases hhead : c.parts.head? with
      | none => rfl
      | some d => exact ih d (mem_children_of_mem_parts (List.mem_of_head? hhead))
    · simp [Option.any_map]

end Reading

/-! ### Trees that comments do not shape -/

/-- Whether the comments among the children of a node play no role, and none of them comes first
where the first word counts. -/
def keepsCommentsApart (c : Cst) : Bool :=
  (c.children.all fun d => !d.isComment || d.field?.isNone)
    && match c.kind with
      | .functionDefinition | .forStatement | .withStatement =>
        c.children.head?.all fun d => !d.isComment
      | _ => true

/-- Whether no comment of a tree plays a role or comes first where the first word counts. -/
def CommentsApart (c : Cst) : Prop := ∀ d ∈ c.nodes, d.keepsCommentsApart

namespace CommentsApart

variable {c d : Cst} (h : c.CommentsApart)
include h

theorem of_mem_nodes (hd : d ∈ c.nodes) : d.CommentsApart :=
  fun e he => h e (nodes_subset_of_mem_nodes hd he)

theorem of_mem_children (hd : d ∈ c.children) : d.CommentsApart :=
  h.of_mem_nodes (mem_nodes_of_mem_children hd)

theorem of_mem_parts (hd : d ∈ c.parts) : d.CommentsApart :=
  h.of_mem_children (mem_children_of_mem_parts hd)

theorem of_mem_childrenAs {f : Field} (hd : d ∈ c.childrenAs f) : d.CommentsApart :=
  h.of_mem_children (List.mem_filter.mp hd).1

theorem of_child? {f : Field} (hd : c.child? f = some d) : d.CommentsApart :=
  h.of_mem_children (mem_children_of_child? hd)

theorem of_part? {k : Kind} (hd : c.part? k = some d) : d.CommentsApart :=
  h.of_mem_children (mem_children_of_part? hd)

theorem keepsCommentsApart : c.keepsCommentsApart := h c c.mem_nodes_self

theorem childrenAs_withoutComments (f : Field) :
    c.withoutComments.childrenAs f = (c.childrenAs f).map withoutComments := by
  have hapart := h.keepsCommentsApart
  rw [Cst.keepsCommentsApart, Bool.and_eq_true, List.all_eq_true] at hapart
  refine c.filter_children_withoutComments (by simp) fun d hd hf => ?_
  rw [decide_eq_true_eq] at hf
  simpa [hf] using hapart.1 d hd

theorem child?_withoutComments (f : Field) :
    c.withoutComments.child? f = (c.child? f).map withoutComments := by
  have hall := h.childrenAs_withoutComments f
  rw [childrenAs, childrenAs] at hall
  rw [child?, child?, ← List.head?_filter, hall, List.head?_map, List.head?_filter]

theorem childText_withoutComments (source : Array Char) (f : Field) :
    c.withoutComments.childText source f = c.childText source f := by
  rw [childText, childText, h.child?_withoutComments, Option.map_map]
  simp [Function.comp_def]

theorem isAsync_withoutComments
    (hk : c.kind ∈ [.functionDefinition, .forStatement, .withStatement]) :
    c.withoutComments.isAsync = c.isAsync := by
  have hfirst : c.children.head?.all fun d => !d.isComment := by
    have hapart := h.keepsCommentsApart
    rw [Cst.keepsCommentsApart, Bool.and_eq_true] at hapart
    simp only [List.mem_cons, List.not_mem_nil, or_false] at hk
    rcases hk with hk | hk | hk <;> simpa only [hk] using hapart.2
  rw [isAsync, isAsync, children_withoutComments]
  cases hchildren : c.children with
  | nil => rfl
  | cons d ds =>
    have hd : (!d.isComment) = true := by simpa [hchildren] using hfirst
    rw [List.filter_cons, if_pos hd]
    simp

/-! ### Names and definitions -/

theorem dotted?_withoutComments (source : Array Char) :
    c.withoutComments.dotted? source = c.dotted? source := by
  induction c using induction_on_children with
  | step c ih =>
    rw [dotted?, dotted?, kind_withoutComments, h.child?_withoutComments, h.child?_withoutComments]
    split
    · simp
    · cases hobject : c.child? .object with
      | none => rfl
      | some object =>
        have hmem := mem_children_of_child? hobject
        cases c.child? .attribute with
        | none => rfl
        | some name => simp [ih object hmem (h.of_mem_children hmem)]
    · rfl

theorem trail_withoutComments (source : Array Char) :
    c.withoutComments.trail source = c.trail source := by
  induction c using induction_on_children with
  | step c ih =>
    rw [trail, trail, kind_withoutComments, h.child?_withoutComments, h.child?_withoutComments]
    split
    · cases hobject : c.child? .object with
      | none => simp [Option.map_map, Function.comp_def]
      | some object =>
        have hmem := mem_children_of_child? hobject
        simp [ih object hmem (h.of_mem_children hmem), Option.map_map, Function.comp_def]
    · simp

theorem callee_withoutComments (source : Array Char) :
    c.withoutComments.callee source = c.callee source := by
  rw [callee, callee, h.trail_withoutComments]

theorem modules_withoutComments (source : Array Char) :
    c.withoutComments.modules source = c.modules source := by
  rw [modules, modules, h.child?_withoutComments]
  cases c.child? .moduleName with
  | some m => simp
  | none =>
    refine c.filterMap_parts_withoutComments fun d hd => ?_
    rw [kind_withoutComments, text_withoutComments,
      (h.of_mem_parts hd).child?_withoutComments, Option.map_map]
    simp [Function.comp_def]

theorem parameter?_withoutComments (source : Array Char) :
    c.withoutComments.parameter? source = c.parameter? source := by
  induction c using induction_on_children with
  | step c ih =>
    rw [parameter?, parameter?, kind_withoutComments, text_withoutComments,
      h.childText_withoutComments, splatName_withoutComments, parts_withoutComments,
      List.head?_map]
    split <;> try rfl
    cases hhead : c.parts.head? with
    | none => rfl
    | some d =>
      have hmem := mem_children_of_mem_parts (List.mem_of_head? hhead)
      exact ih d hmem (h.of_mem_children hmem)

theorem functionHead_withoutComments (source : Array Char) (hk : c.kind = .functionDefinition) :
    c.withoutComments.functionHead source = c.functionHead source := by
  rw [functionHead, functionHead, h.childText_withoutComments,
    h.isAsync_withoutComments (by simp [hk]), h.child?_withoutComments]
  cases hp : c.child? .parameters with
  | none => rfl
  | some p =>
    have hparameters := p.filterMap_parts_withoutComments fun d hd =>
      ((h.of_child? hp).of_mem_parts hd).parameter?_withoutComments source
    simp only [Option.map_some, hparameters]

theorem classHead_withoutComments (source : Array Char) :
    c.withoutComments.classHead source = c.classHead source := by
  rw [classHead, classHead, h.childText_withoutComments, h.child?_withoutComments]
  cases hp : c.child? .superclasses with
  | none => rfl
  | some p =>
    have hbases := p.filterMap_parts_withoutComments fun d hd =>
      ((h.of_child? hp).of_mem_parts hd).dotted?_withoutComments source
    simp only [Option.map_some, hbases]

/-! ### Conditions and strings -/

theorem boolOperator_withoutComments : c.withoutComments.boolOperator = c.boolOperator := by
  rw [boolOperator, boolOperator, h.child?_withoutComments]
  simp [Option.any_map]

theorem operands_withoutComments (op : BoolOperator) :
    c.withoutComments.operands op = (c.operands op).map withoutComments := by
  induction c using induction_on_children with
  | step c ih =>
    have hside : ∀ f, (c.withoutComments.child? f).toList.flatMap (operands op) =
        ((c.child? f).toList.flatMap (operands op)).map withoutComments := by
      intro f
      rw [h.child?_withoutComments]
      cases hd : c.child? f with
      | none => rfl
      | some d =>
        have hmem := mem_children_of_child? hd
        simpa using ih d hmem (h.of_mem_children hmem)
    rw [operands_eq, operands_eq, kind_withoutComments, h.boolOperator_withoutComments, hside,
      hside]
    split
    · rw [List.map_append]
    · rfl

theorem stringPieces_withoutComments (source : Array Char) :
    c.withoutComments.stringPieces source =
      (c.stringPieces source).map (Sum.map id withoutComments) := by
  induction c using induction_on_children with
  | step c ih =>
    rw [stringPieces_eq, stringPieces_eq, parts_withoutComments, List.flatMap_map, List.map_flatMap]
    refine List.flatMap_congr fun d hd => ?_
    have hapart := h.of_mem_parts hd
    rw [kind_withoutComments, text_withoutComments, hapart.child?_withoutComments]
    split
    · exact ih d (mem_children_of_mem_parts hd) hapart
    · rfl
    · cases d.child? .expression <;> rfl
    · rfl

theorem fieldValues_withoutComments (source : Array Char) :
    c.withoutComments.fieldValues source = (c.fieldValues source).map withoutComments := by
  rw [fieldValues, fieldValues, h.stringPieces_withoutComments, List.filterMap_map,
    List.map_filterMap]
  exact List.filterMap_congr fun piece _ => by cases piece <;> rfl

end CommentsApart

end QualityGate.Python.Cst
