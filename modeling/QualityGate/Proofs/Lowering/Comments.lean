import QualityGate.Proofs.Cst.Comments
import QualityGate.Proofs.Lowering.Unlimited
import QualityGate.Python.Grammar.Module

/-! Lowering passes over comments. What a level makes of a subtree without its comments is what it
makes of the whole subtree, if what lies deeper is lowered alike; so without its comments a tree
is refused when it is with them, and else becomes the same statements on the same lines. -/
namespace QualityGate.Python

def Subtree.withoutComments : Subtree → Subtree
  | .whole c => .whole c.withoutComments
  | .elifChain clause rest => .elifChain clause.withoutComments (rest.map Cst.withoutComments)

/-- Whether no comment in a subtree plays a role or comes first where the first word counts. -/
def Subtree.CommentsApart : Subtree → Prop
  | .whole c => c.CommentsApart
  | .elifChain clause rest => clause.CommentsApart ∧ ∀ c ∈ rest, c.CommentsApart

namespace Lowering

variable {source : Array Char} {f g : Subtree → Option Node}

@[simp] theorem placeholder_withoutComments (c : Cst) :
    placeholder c.withoutComments = placeholder c := by
  simp [placeholder]

section Levels

variable (h : ∀ s : Subtree, s.CommentsApart → g s.withoutComments = f s)
include h

/-! ### Parts of a level -/

theorem all_withoutComments (cs : List Cst) (hcs : ∀ c ∈ cs, c.CommentsApart) :
    all g (cs.map Cst.withoutComments) = all f cs := by
  rw [all, List.mapM_map]
  exact Simulates.equality.mapM fun c hc => h (.whole c) (hcs c hc)

theorem parts_withoutComments {c : Cst} (hc : c.CommentsApart) :
    all g c.withoutComments.parts = all f c.parts := by
  rw [Cst.parts_withoutComments, all_withoutComments h _ fun d hd => hc.of_mem_parts hd]

/-- A child that is looked for in some way, or none. -/
theorem all_toList_withoutComments {o : Option Cst} (ho : ∀ c ∈ o, c.CommentsApart) :
    all g (o.map Cst.withoutComments).toList = all f o.toList := by
  cases o with
  | none => rfl
  | some c => exact all_withoutComments h [c] (by simpa using ho)

theorem child_withoutComments {c : Cst} (hc : c.CommentsApart) (field : Field) :
    child g c.withoutComments field = child f c field := by
  rw [child, child, hc.child?_withoutComments,
    all_toList_withoutComments h fun d hd => hc.of_child? hd]

theorem childOr_withoutComments {c : Cst} (hc : c.CommentsApart) (place : Cst) (field : Field) :
    childOr g c.withoutComments place.withoutComments field = childOr f c place field := by
  rw [childOr, childOr, hc.child?_withoutComments]
  cases hd : c.child? field with
  | none => rw [Option.map_none, placeholder_withoutComments]
  | some d => exact h (.whole d) (hc.of_child? hd)

theorem block_withoutComments {o : Option Cst} (ho : ∀ c ∈ o, c.CommentsApart) :
    block g (o.map Cst.withoutComments) = block f o := by
  cases o with
  | none => rfl
  | some c => exact parts_withoutComments h (ho c rfl)

theorem blockAs_withoutComments {c : Cst} (hc : c.CommentsApart) (field : Field) :
    block g (c.withoutComments.child? field) = block f (c.child? field) := by
  rw [hc.child?_withoutComments, block_withoutComments h fun d hd => hc.of_child? hd]

theorem blockIn_withoutComments {c : Cst} (hc : c.CommentsApart) :
    block g (c.withoutComments.part? .block) = block f (c.part? .block) := by
  rw [Cst.part?_withoutComments, block_withoutComments h fun d hd => hc.of_part? hd]

theorem otherwise_withoutComments {o : Option Cst} (ho : ∀ c ∈ o, c.CommentsApart) :
    otherwise g (o.map Cst.withoutComments) = otherwise f o := by
  cases o with
  | none => rfl
  | some c =>
    have hc := ho c rfl
    have hblock : (c.withoutComments.child? .body).or (c.withoutComments.part? .block) =
        ((c.child? .body).or (c.part? .block)).map Cst.withoutComments := by
      rw [hc.child?_withoutComments, Cst.part?_withoutComments]
      cases c.child? .body <;> rfl
    show block g ((c.withoutComments.child? .body).or (c.withoutComments.part? .block)) = _
    rw [hblock, block_withoutComments h]
    · rfl
    · intro d hd
      rcases Option.or_eq_some_iff.mp hd with hbody | ⟨-, hpart⟩
      · exact hc.of_child? hbody
      · exact hc.of_part? hpart

theorem alternatives_withoutComments {cs : List Cst} (hcs : ∀ c ∈ cs, c.CommentsApart) :
    alternatives g (cs.map Cst.withoutComments) = alternatives f cs := by
  cases cs with
  | nil => rfl
  | cons c rest =>
    obtain ⟨hc, hrest⟩ := List.forall_mem_cons.mp hcs
    have helif : g (.elifChain c.withoutComments (rest.map Cst.withoutComments)) =
        f (.elifChain c rest) := h (.elifChain c rest) ⟨hc, hrest⟩
    have hotherwise := otherwise_withoutComments h (o := some c) (by simpa using hc)
    rw [List.map_cons, alternatives, alternatives, Cst.kind_withoutComments, helif]
    rw [← hotherwise, Option.map_some]

theorem branch_withoutComments {c : Cst} {rest : List Cst} (hc : c.CommentsApart)
    (hrest : ∀ d ∈ rest, d.CommentsApart) (lines : Span) (isElif : Bool) :
    branch g lines isElif c.withoutComments (rest.map Cst.withoutComments) =
      branch f lines isElif c rest := by
  rw [branch, branch, childOr_withoutComments h hc, blockAs_withoutComments h hc,
    alternatives_withoutComments h hrest]

theorem loop_withoutComments {c : Cst} (hc : c.CommentsApart) (form : LoopForm)
    (header : List Field) : loop g c.withoutComments form header = loop f c form header := by
  have hheader : header.mapM (child g c.withoutComments) = header.mapM (child f c) :=
    Simulates.equality.mapM fun field _ => child_withoutComments h hc field
  rw [loop, loop, hheader, blockAs_withoutComments h hc, hc.child?_withoutComments,
    otherwise_withoutComments h fun d hd => hc.of_child? hd, Cst.span_withoutComments]

theorem tryExcept_withoutComments {c : Cst} (hc : c.CommentsApart) :
    tryExcept g c.withoutComments = tryExcept f c := by
  have hparts : ∀ p : Cst → Bool, ∀ d ∈ c.parts.filter p, d.CommentsApart := fun p d hd =>
    hc.of_mem_parts (List.mem_filter.mp hd).1
  have hothers : ((c.parts.filter (·.kind = .elseClause)).map Cst.withoutComments).mapM
      (fun d => otherwise g (some d)) =
        (c.parts.filter (·.kind = .elseClause)).mapM fun d => otherwise f (some d) := by
    rw [List.mapM_map]
    exact Simulates.equality.mapM fun d hd =>
      otherwise_withoutComments h (o := some d) (by simpa using hparts _ d hd)
  have hfinals : ((c.parts.filter (·.kind = .finallyClause)).map Cst.withoutComments).mapM
      (fun d => block g (d.part? .block)) =
        (c.parts.filter (·.kind = .finallyClause)).mapM fun d => block f (d.part? .block) := by
    rw [List.mapM_map]
    exact Simulates.equality.mapM fun d hd => blockIn_withoutComments h (hparts _ d hd)
  have hhandlers := all_withoutComments h _ (hparts fun d =>
    d.kind = .exceptClause || d.kind = .exceptGroupClause)
  rw [tryExcept, tryExcept, blockAs_withoutComments h hc,
    c.filter_parts_withoutComments (by simp), c.filter_parts_withoutComments (by simp),
    c.filter_parts_withoutComments (by simp), hhandlers, hothers, hfinals,
    Cst.span_withoutComments]

theorem caught_withoutComments {cs : List Cst} (hcs : ∀ c ∈ cs, c.CommentsApart) :
    caught source g (cs.map Cst.withoutComments) = caught source f cs := by
  cases cs with
  | nil => rfl
  | cons p rest =>
    obtain ⟨hp, -⟩ := List.forall_mem_cons.mp hcs
    have htypes := all_toList_withoutComments h (o := p.parts.head?) fun d hd =>
      hp.of_mem_parts (List.mem_of_head? hd)
    have htype : g (.whole p.withoutComments) = f (.whole p) := h (.whole p) hp
    rw [List.map_cons, caught, caught, Cst.kind_withoutComments, Cst.parts_withoutComments,
      List.head?_map, htypes, htype, hp.child?_withoutComments, List.head?_map, Option.map_map,
      Option.map_map]
    simp [Function.comp_def]

theorem handler_withoutComments {c : Cst} (hc : c.CommentsApart) :
    handler source g c.withoutComments = handler source f c := by
  rw [handler, handler, c.filter_parts_withoutComments (by simp),
    caught_withoutComments h fun d hd => hc.of_mem_parts (List.mem_filter.mp hd).1,
    blockIn_withoutComments h hc, Cst.span_withoutComments]

theorem withBlock_withoutComments {c : Cst} (hc : c.CommentsApart) (hk : c.kind = .withStatement) :
    withBlock g c.withoutComments = withBlock f c := by
  let items (c : Cst) : List Cst := ((c.part? .withClause).map Cst.parts).getD []
  let value (item : Cst) : Cst := (item.child? .value).getD item
  have hitems : items c.withoutComments = (items c).map Cst.withoutComments := by
    simp only [items, Cst.part?_withoutComments]
    cases c.part? .withClause <;> simp
  have hapart : ∀ item ∈ items c, item.CommentsApart := by
    intro item hitem
    simp only [items] at hitem
    cases hclause : c.part? .withClause with
    | none => simp [hclause] at hitem
    | some clause =>
      rw [hclause, Option.map_some, Option.getD_some] at hitem
      exact (hc.of_part? hclause).of_mem_parts hitem
  have hvalue : ∀ item, item.CommentsApart →
      value item.withoutComments = (value item).withoutComments ∧ (value item).CommentsApart := by
    intro item hitem
    simp only [value, hitem.child?_withoutComments]
    cases hchild : item.child? .value with
    | none => exact ⟨rfl, hitem⟩
    | some d => exact ⟨rfl, hitem.of_child? hchild⟩
  have hvalues : (items c.withoutComments).map value =
      ((items c).map value).map Cst.withoutComments := by
    rw [hitems, List.map_map, List.map_map]
    exact List.map_congr_left fun item hitem => (hvalue item (hapart item hitem)).1
  have hall : all g ((items c.withoutComments).map value) = all f ((items c).map value) := by
    rw [hvalues, all_withoutComments h _ fun d hd => ?_]
    obtain ⟨item, hitem, rfl⟩ := List.mem_map.mp hd
    exact (hvalue item (hapart item hitem)).2
  rw [withBlock, withBlock, blockAs_withoutComments h hc, hc.isAsync_withoutComments (by simp [hk]),
    Cst.span_withoutComments]
  exact congrArg (· >>= _) hall

theorem collected_withoutComments {c : Cst} (hc : c.CommentsApart) :
    collected g c.withoutComments = collected f c := by
  rw [collected, collected, hc.child?_withoutComments]
  cases hd : c.child? .body with
  | none => rfl
  | some d =>
    have hd := hc.of_child? hd
    have hall := all_withoutComments h [d] (by simpa using hd)
    rw [List.map_singleton] at hall
    simp only [Option.map_some, Cst.kind_withoutComments, child_withoutComments h hd, hall]

theorem addClause_withoutComments {c : Cst} (hc : c.CommentsApart) (gs : List (Generator Node)) :
    addClause g gs c.withoutComments = addClause f gs c := by
  have htests := all_toList_withoutComments h (o := c.parts.head?) fun d hd =>
    hc.of_mem_parts (List.mem_of_head? hd)
  have hsources := all_withoutComments h (c.childrenAs .right) fun d hd =>
    hc.of_mem_childrenAs hd
  unfold addClause
  rw [Cst.kind_withoutComments, child_withoutComments h hc,
    hc.childrenAs_withoutComments, hsources, Cst.parts_withoutComments, List.head?_map, htests]

theorem comprehension_withoutComments {c : Cst} (hc : c.CommentsApart) :
    comprehension g c.withoutComments = comprehension f c := by
  have hclauses : (c.parts.map Cst.withoutComments).foldlM (addClause g) [] =
      c.parts.foldlM (addClause f) [] := by
    rw [List.foldlM_map]
    exact Simulates.equality.foldlM (fun gs d hd =>
      addClause_withoutComments h (hc.of_mem_parts hd) gs) []
  rw [comprehension, comprehension, collected_withoutComments h hc, Cst.parts_withoutComments,
    hclauses, Cst.span_withoutComments]

theorem argument_withoutComments {c : Cst} (hc : c.CommentsApart) :
    argument g c.withoutComments = argument f c := by
  have hwhole : g (.whole c.withoutComments) = f (.whole c) := h (.whole c) hc
  rw [argument, argument, Cst.kind_withoutComments, childOr_withoutComments h hc, hwhole]

theorem arguments_withoutComments {o : Option Cst} (ho : ∀ c ∈ o, c.CommentsApart) :
    arguments g (o.map Cst.withoutComments) = arguments f o := by
  cases o with
  | none => rfl
  | some c =>
    have hc := ho c rfl
    have hall := all_withoutComments h [c] (by simpa using hc)
    have harguments : (c.parts.map Cst.withoutComments).mapM (argument g) =
        c.parts.mapM (argument f) := by
      rw [List.mapM_map]
      exact Simulates.equality.mapM fun d hd => argument_withoutComments h (hc.of_mem_parts hd)
    rw [List.map_singleton] at hall
    rw [Option.map_some, arguments, arguments, Cst.kind_withoutComments, Cst.parts_withoutComments,
      harguments, hall]

theorem call_withoutComments {c : Cst} (hc : c.CommentsApart) :
    call source g c.withoutComments = call source f c := by
  have hcallee : ((c.withoutComments.child? .function).map (Cst.callee source)) =
      (c.child? .function).map (Cst.callee source) := by
    rw [hc.child?_withoutComments, Option.map_map]
    exact Option.map_congr fun d hd => (hc.of_child? hd).callee_withoutComments source
  rw [call, call, hcallee, childOr_withoutComments h hc, hc.child?_withoutComments .arguments,
    arguments_withoutComments h fun d hd => hc.of_child? hd, Cst.span_withoutComments]

theorem raise_withoutComments {c : Cst} (hc : c.CommentsApart) :
    raise g c.withoutComments = raise f c := by
  have hraised : c.withoutComments.parts.find? (·.field? != some .cause) =
      (c.parts.find? (·.field? != some .cause)).map Cst.withoutComments := by
    have hrole : (fun d : Cst => d.field? != some .cause) ∘ Cst.withoutComments =
        fun d => d.field? != some .cause := by
      funext d
      rw [Function.comp_apply, Cst.field?_withoutComments]
    rw [Cst.parts_withoutComments, List.find?_map, hrole]
  have hall := all_toList_withoutComments h (o := c.parts.find? (·.field? != some .cause))
    fun d hd => hc.of_mem_parts (List.mem_of_find?_eq_some hd)
  rw [raise, raise, hraised, hall, child_withoutComments h hc, Cst.span_withoutComments]

theorem string_withoutComments {c : Cst} (hc : c.CommentsApart) :
    string source g c.withoutComments = string source f c := by
  have hfields := hc.fieldValues_withoutComments source
  have hall : all g (c.withoutComments.fieldValues source) = all f (c.fieldValues source) := by
    rw [hfields, all_withoutComments h _ fun d hd =>
      hc.of_mem_nodes (Cst.mem_nodes_of_mem_fieldValues hd)]
  have hempty : (c.withoutComments.fieldValues source).isEmpty = (c.fieldValues source).isEmpty := by
    rw [hfields, List.isEmpty_map]
  have hcontent : (c.withoutComments.stringPieces source).filterMap Sum.getLeft? =
      (c.stringPieces source).filterMap Sum.getLeft? := by
    rw [hc.stringPieces_withoutComments, List.filterMap_map]
    exact List.filterMap_congr fun piece _ => by cases piece <;> rfl
  rw [Cst.fieldValues, Cst.fieldValues] at hall hempty
  unfold string
  dsimp only
  rw [hall, hempty, hcontent, Cst.isBytes_withoutComments, Cst.span_withoutComments]

theorem other_withoutComments {c : Cst} (hc : c.CommentsApart) :
    other g c.withoutComments = other f c := by
  rw [other, other, parts_withoutComments h hc, Cst.span_withoutComments]

/-- Around one expression, as without comments, nothing is left. -/
theorem only_withoutComments {c : Cst} (hc : c.CommentsApart) :
    (match c.withoutComments.parts with
      | [only] => g (.whole only)
      | _ => other g c.withoutComments) =
    match c.parts with
      | [only] => f (.whole only)
      | _ => other f c := by
  have hother := other_withoutComments h hc
  rw [Cst.parts_withoutComments]
  match hparts : c.parts with
  | [] => exact hother
  | [d] => exact h (.whole d) (hc.of_mem_parts (by simp [hparts]))
  | _ :: _ :: _ => exact hother

theorem await_withoutComments {c : Cst} (hc : c.CommentsApart) :
    (match c.withoutComments.parts with
      | value :: _ => do return .await c.span (← g (.whole value))
      | [] => return placeholder c) =
    (match c.parts with
      | value :: _ => do return .await c.span (← f (.whole value))
      | [] => return placeholder c : Option Node) := by
  rw [Cst.parts_withoutComments]
  match hparts : c.parts with
  | [] => rfl
  | value :: _ =>
    have hvalue : g (.whole value.withoutComments) = f (.whole value) :=
      h (.whole value) (hc.of_mem_parts (by simp [hparts]))
    rw [List.map_cons]
    dsimp only
    rw [hvalue]

/-! ### Whole levels -/

theorem whole_withoutComments {c : Cst} (hc : c.CommentsApart) :
    whole source g c.withoutComments = whole source f c := by
  unfold whole
  rw [Cst.kind_withoutComments]
  -- Names, constants and statements without expressions are read off the node alone.
  split <;> try simp only [placeholder_withoutComments, Cst.span_withoutComments,
    Cst.text_withoutComments, Cst.names_withoutComments, hc.modules_withoutComments]
  · rw [blockAs_withoutComments h hc, hc.functionHead_withoutComments source ‹_›]
  · rw [blockAs_withoutComments h hc, hc.classHead_withoutComments]
  · rw [hc.child?_withoutComments]
    cases hd : c.child? .definition with
    | none => exact other_withoutComments h hc
    | some d => exact h (.whole d) (hc.of_child? hd)
  · rw [hc.childrenAs_withoutComments,
      branch_withoutComments h hc fun d hd => hc.of_mem_childrenAs hd]
  · rw [hc.isAsync_withoutComments (by simp [*]), loop_withoutComments h hc]
  · exact loop_withoutComments h hc _ _
  · exact tryExcept_withoutComments h hc
  · exact handler_withoutComments h hc
  · exact handler_withoutComments h hc
  · exact withBlock_withoutComments h hc ‹_›
  · rw [hc.boolOperator_withoutComments, hc.operands_withoutComments,
      all_withoutComments h _ fun d hd => hc.of_mem_nodes (Cst.mem_nodes_of_mem_operands hd)]
  · exact comprehension_withoutComments h hc
  · exact comprehension_withoutComments h hc
  · exact comprehension_withoutComments h hc
  · exact comprehension_withoutComments h hc
  · exact call_withoutComments h hc
  · rw [hc.dotted?_withoutComments, child_withoutComments h hc]
  · exact raise_withoutComments h hc
  · exact await_withoutComments h hc
  · exact only_withoutComments h hc
  · exact only_withoutComments h hc
  · exact string_withoutComments h hc
  · exact string_withoutComments h hc
  · rw [parts_withoutComments h hc]
  · rw [parts_withoutComments h hc]
  · exact other_withoutComments h hc

theorem level_withoutComments {t : Subtree} (ht : t.CommentsApart) :
    level source g t.withoutComments = level source f t := by
  cases t with
  | whole c => exact whole_withoutComments h ht
  | elifChain c rest =>
    obtain ⟨hc, hrest⟩ := ht
    have hlast : (((rest.map Cst.withoutComments).getLast?).getD c.withoutComments).span =
        ((rest.getLast?).getD c).span := by
      rw [List.getLast?_map]
      cases rest.getLast? <;> simp
    show branch g ⟨c.withoutComments.span.first, _⟩ true _ _ = _
    rw [hlast, Cst.span_withoutComments, branch_withoutComments h hc hrest]
    rfl

end Levels

/-- Within any number of levels a subtree becomes the same without its comments. -/
theorem lower_withoutComments (source : Array Char) (limit : Nat) {t : Subtree}
    (ht : t.CommentsApart) :
    lower source limit t.withoutComments = lower source limit t := by
  induction limit generalizing t with
  | zero => rfl
  | succ limit ih => exact level_withoutComments (fun s hs => ih hs) ht

/-- Comments do not matter to the statements of a tree, nor to whether it has any: a tree that has
no comment left gives the same. -/
theorem statements_withoutComments (source : Array Char) {c : Cst} (hc : c.CommentsApart) :
    statements source c.withoutComments = statements source c ∧
      (c.isComment = false → ∀ d ∈ c.withoutComments.nodes, d.isComment = false) :=
  ⟨parts_withoutComments (fun _ hs => lower_withoutComments source maxLevels hs) hc,
    fun hroot _ hd => c.isComment_of_mem_nodes_withoutComments hroot hd⟩

/-- Comments behind a header, between arguments, around a handler and at the end of a block. -/
theorem statements_withoutComments_handler :
    let text := "try:  # a\n    # b\n    f(x,  # c\n      y)\n# d\nexcept E:\n    pass\n    # e\n"
    ∃ c body, Cst.ofSource? text = some c ∧ c.nodes.countP Cst.isComment = 5 ∧
      statements text.toList.toArray c = some body ∧
      statements text.toList.toArray c.withoutComments = some body ∧
      ∀ d ∈ c.withoutComments.nodes, d.isComment = false := by
  intro text
  have hapart : (Cst.ofSource? text).any fun c =>
      (statements text.toList.toArray c).isSome && c.nodes.countP Cst.isComment = 5 &&
        c.nodes.all Cst.keepsCommentsApart && !c.isComment := by decide +kernel
  obtain ⟨c, hc, h⟩ := (Option.any_eq_true ..).mp hapart
  simp only [Bool.and_eq_true, decide_eq_true_eq, List.all_eq_true, Bool.not_eq_true'] at h
  obtain ⟨⟨⟨hsome, hcount⟩, hnodes⟩, hroot⟩ := h
  obtain ⟨body, hbody⟩ := Option.isSome_iff_exists.mp hsome
  obtain ⟨hsame, hnone⟩ := statements_withoutComments text.toList.toArray hnodes
  exact ⟨c, body, hc, hcount, hbody, hsame.trans hbody, hnone hroot⟩

end Lowering

end QualityGate.Python
