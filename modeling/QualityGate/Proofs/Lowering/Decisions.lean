import QualityGate.Proofs.Lowering.Counting
import QualityGate.Python.Grammar.Module

/-! Lowering keeps the decision points of a tree: every one that is counted in the concrete tree
is counted once in the lowered one, however its chains of conditions are grouped and its filters
are handed to the clauses before them. Only where a line continuation comes first in a node of
which the first part is read, that part is read in place of what stands behind it. -/
namespace QualityGate.Python.Lowering

/-! ### Comprehensions -/

/-- The decision points of the clauses of a comprehension, their own and those below them. -/
def clausePoints (gs : List (Generator Node)) : Nat :=
  total (gs.map fun g =>
    1 + g.filters.length + total (g.header.map Node.decisions)
      + total (g.filters.map Node.decisions))

theorem decisions_comprehension (lines : Span) (element : List Node)
    (gs : List (Generator Node)) : (Node.comprehension lines element gs).decisions =
      total (element.map Node.decisions) + clausePoints gs := by
  have hnodes : total (gs.map fun g => 1 + g.filters.length)
      + total ((Node.clauseNodes gs).map Node.decisions) = clausePoints gs := by
    induction gs with
    | nil => rfl
    | cons g gs ih =>
      simp only [clausePoints, Node.clauseNodes, List.map_cons, total_cons, List.map_append,
        total_append] at ih ⊢
      omega
  rw [Node.decisions_eq]
  simp only [Node.decisionPoints, Node.children, List.map_append, total_append]
  omega

section Levels

variable {source : Array Char} {f : Subtree → Option Node}
  (hf : ∀ s : Subtree, s.IsSound → Yields (f s) fun n => n.decisions = s.decisions)
include hf

theorem counts_collected {c : Cst} (hc : c.Regular) (hk : c.isComprehension) :
    Counts (collected f c) (total ((c.childrenAs .body).map Cst.decisions)) := by
  rw [Cst.childrenAs_eq_toList (hc.atMostOne_body hk), collected]
  cases hbody : c.child? .body with
  | none => exact .pure rfl
  | some d =>
    have hd := hc.isWhole_of_child? (by decide) hbody
    dsimp only
    split
    · rename_i hpair
      have hshape := hd.1.isShaped
      simp only [Cst.isShaped, hpair, Bool.and_eq_true] at hshape
      obtain ⟨⟨hplays, hkey⟩, hvalue⟩ := hshape
      have hsum := hd.1.decisions_of_roles (n := 0)
        (by simp [Cst.decisionsAt, Cst.followed, hpair]) (by decide) hplays
      refine (counts_child hf hd.1 (by decide) hkey).bind fun keys hkeys =>
        (counts_child hf hd.1 (by decide) hvalue).bind fun values hvalues => .pure ?_
      simp only [List.map_cons, List.map_nil, total_cons, total_nil] at hsum
      simp only [List.map_append, total_append, hkeys, hvalues, Option.toList_some,
        List.map_singleton, total_singleton, hsum]
      omega
    · exact counts_all hf _ (by simpa using hd)

/-- One more clause adds its own point and those below it. -/
theorem yields_addClause_decisions {c : Cst} {gs : List (Generator Node)} (hc : c.Regular)
    (hclause : c.isClause) (hopen : gs ≠ [] ∨ c.kind = .forInClause)
    (hplain : c.kind = .ifClause → c.startsPlainly fun _ => true) :
    Yields (addClause f gs c) fun gs' =>
      gs' ≠ [] ∧ clausePoints gs' = clausePoints gs + (1 + c.decisions) := by
  have hkind : c.kind ≠ .ifStatement := by
    intro hif
    simp [Cst.isClause, hif] at hclause
  by_cases hfor : c.kind = .forInClause
  · have hshape := hc.isShaped
    simp only [Cst.isShaped, hfor, Bool.and_eq_true] at hshape
    simp only [addClause, hfor]
    refine (counts_child hf hc (by decide) hshape.2).bind fun targets htargets =>
      (counts_all hf (c.childrenAs .right) fun d hd => hc.isWhole_of_mem_children hkind
        (List.mem_filter.mp hd).1).bind fun sources hsources => .pure ⟨by simp, ?_⟩
    rw [hc.decisions_of_forInClause hfor]
    simp only [clausePoints, List.map_cons, total_cons, List.length_nil, List.map_nil, total_nil,
      List.map_append, total_append, htargets, hsources]
    omega
  · have hif : c.kind = .ifClause := by simpa [Cst.isClause, hfor] using hclause
    obtain ⟨d, hd, hown⟩ := hc.decisions_of_ifClause hif (hplain hif)
    cases gs with
    | nil => simp [hfor] at hopen
    | cons g gs =>
      simp only [addClause, hif]
      refine (yields_all_decisions hf c.parts.head?.toList fun e he =>
        hc.isWhole_of_mem_children hkind (Cst.mem_children_of_mem_parts
          (List.mem_of_head? (Option.mem_toList.mp he)))).bind
            fun tests htests => .pure ⟨by simp, ?_⟩
      obtain ⟨hlength, htotal⟩ := htests
      rw [hd, Option.toList_some] at hlength htotal
      rw [List.map_singleton, total_singleton] at htotal
      simp only [clausePoints, List.map_cons, total_cons, List.length_append, hlength,
        List.length_singleton, List.map_append, total_append, htotal, hown]
      omega

/-- The clauses of a comprehension, the first of which is over a source, add what each of them
adds; other parts add nothing. -/
theorem yields_clauses_decisions {cs : List Cst} {gs : List (Generator Node)}
    (hcs : ∀ c ∈ cs, c.Regular ∧ (c.kind = .ifClause → c.startsPlainly fun _ => true))
    (hopen : gs ≠ [] ∨ (cs.find? Cst.isClause).all (·.kind = .forInClause)) :
    Yields (cs.foldlM (addClause f) gs) fun gs' => clausePoints gs' =
      clausePoints gs + total (cs.map fun c => if c.isClause then 1 + c.decisions else 0) := by
  -- A filter never comes first: there is a source before it, or the next clause is one.
  induction cs generalizing gs with
  | nil => exact .pure rfl
  | cons c cs ih =>
    obtain ⟨hc, hplain⟩ := hcs c (by simp)
    have hcs : ∀ d ∈ cs, d.Regular ∧ (d.kind = .ifClause → d.startsPlainly fun _ => true) :=
      fun d hd => hcs d (by simp [hd])
    rw [List.foldlM_cons, List.map_cons, total_cons]
    cases hclause : c.isClause with
    | true =>
      have hstart : gs ≠ [] ∨ c.kind = .forInClause := by simpa [hclause] using hopen
      refine (yields_addClause_decisions hf hc hclause hstart hplain).bind fun gs' hgs' =>
        (ih hcs (.inl hgs'.1)).mono fun gs'' hgs'' => ?_
      rw [hgs'', hgs'.2, if_pos rfl]
      omega
    | false =>
      have hkept : addClause f gs c = pure gs := by
        unfold addClause
        split <;> simp_all [Cst.isClause]
      rw [hkept, pure_bind]
      refine (ih hcs ?_).mono fun gs' hgs' => by rw [hgs']; simp
      simpa [hclause] using hopen

theorem yields_comprehension_decisions {c : Cst} (hc : c.Regular) (hk : c.isComprehension) :
    Yields (comprehension f c) fun n => n.decisions = c.decisions := by
  rw [hc.decisions_of_comprehension hk]
  refine (counts_collected hf hc hk).bind fun element helement =>
    (yields_clauses_decisions hf (fun d hd => ⟨hc.of_mem_parts hd, fun hif =>
      hc.startsPlainly_of_ifClause hk (Cst.mem_children_of_mem_parts hd) hif⟩)
        (.inr (hc.comprehension_opens hk))).bind fun clauses hclauses => .pure ?_
  have hreverse : clausePoints clauses.reverse = clausePoints clauses := total_map_reverse _ _
  rw [decisions_comprehension, helement, hreverse, hclauses, clausePoints]
  simp

/-! ### Calls -/

theorem yields_argument_decisions {c : Cst} (hc : c.IsWhole) :
    Yields (argument f c) fun n => n.decisions = c.decisions := by
  unfold argument
  split
  · rename_i hk
    have hshape := hc.1.isShaped
    simp only [Cst.isShaped, hk, Bool.and_eq_true] at hshape
    obtain ⟨⟨hplays, hname⟩, hvalue⟩ := hshape
    have hsum := hc.1.decisions_of_roles (n := 0) (by simp [Cst.decisionsAt, Cst.followed, hk])
      (by decide) hplays
    simp only [List.map_cons, List.map_nil, total_cons, total_nil,
      hc.1.total_childrenAs_of_areAs_identifier hname, Nat.zero_add, Nat.add_zero] at hsum
    rw [hsum]
    exact yields_childOr_decisions hf hc.1 c (by decide) hvalue
  · exact hf (.whole c) hc

theorem counts_arguments {o : Option Cst} (ho : ∀ d ∈ o, d.IsWhole) :
    Counts (arguments f o) (total (o.toList.map Cst.decisions)) := by
  cases o with
  | none => exact .pure rfl
  | some d =>
    have hd := ho d rfl
    rw [arguments]
    split
    · rename_i hlist
      rw [Option.toList_some, List.map_singleton, total_singleton,
        Cst.decisions_of_children (n := 0) (by simp [Cst.decisionsAt, Cst.followed, hlist]),
        Nat.zero_add, ← hd.1.total_parts]
      refine (Yields.total_mapM (f := argument f) fun a ha => yields_argument_decisions hf ?_).mono
        fun ns hns => hns.2
      exact hd.1.isWhole_of_mem_children (by simp [hlist]) (Cst.mem_children_of_mem_parts ha)
    · exact counts_all hf _ (by simpa using hd)

theorem yields_call_decisions {c : Cst} (hc : c.Regular) (hk : c.kind = .call) :
    Yields (call source f c) fun n => n.decisions = c.decisions := by
  have hshape := hc.isShaped
  simp only [Cst.isShaped, hk, Bool.and_eq_true] at hshape
  obtain ⟨⟨hplays, hfunction⟩, harguments⟩ := hshape
  have hsum := hc.decisions_of_roles (n := 0) (by simp [Cst.decisionsAt, Cst.followed, hk])
    (by decide) hplays
  simp only [List.map_cons, List.map_nil, total_cons, total_nil] at hsum
  rw [hsum, Cst.childrenAs_eq_toList harguments]
  refine (counts_arguments hf fun d hd => hc.isWhole_of_child? (by decide) hd).bind
    fun arguments harguments =>
      (yields_childOr_decisions hf hc c (by decide) hfunction).bind fun func hfunc => .pure ?_
  rw [Node.decisions_eq]
  simp only [Node.decisionPoints, Node.children, List.map_cons, total_cons, hfunc, harguments]
  omega

/-! ### Whole levels -/

/-- A node of which only its parts matter. -/
theorem yields_other_decisions {c : Cst} (hc : c.IsWhole) (hk : c.kind ≠ .ifStatement)
    (hown : c.decisionsAt = 0 ∧ c.followed = c.children) :
    Yields (other f c) fun n => n.decisions = c.decisions := by
  refine (counts_parts hf hc.1 hk).bind fun ns hns => .pure ?_
  rw [Node.decisions_eq, Cst.decisions_of_children hown, ← hns]
  rfl

/-- A node around one expression. -/
theorem yields_only_decisions {c : Cst} (hc : c.IsWhole) (hk : c.kind ≠ .ifStatement)
    (hown : c.decisionsAt = 0 ∧ c.followed = c.children) :
    Yields (match c.parts with
      | [only] => f (.whole only)
      | _ => other f c) fun n => n.decisions = c.decisions := by
  split
  · rename_i d hparts
    have hmem : d ∈ c.children := Cst.mem_children_of_mem_parts (by simp [hparts])
    have hsum := hc.1.total_parts
    rw [hparts, List.map_singleton, total_singleton] at hsum
    rw [Cst.decisions_of_children hown, Nat.zero_add, ← hsum]
    exact hf (.whole d) (hc.1.isWhole_of_mem_children hk hmem)
  · exact yields_other_decisions hf hc hk hown

theorem yields_ifStatement_decisions {c : Cst} (hc : c.Regular) (hk : c.kind = .ifStatement) :
    Yields (branch f c.span false c (c.childrenAs .alternative)) fun n =>
      n.decisions = c.decisions := by
  have hshape := hc.isShaped
  simp only [Cst.isShaped, hk, Bool.and_eq_true] at hshape
  obtain ⟨⟨⟨hplays, hcondition⟩, hblock⟩, halternatives⟩ := hshape
  have hsum := hc.decisions_of_roles (n := 1) (by simp [Cst.decisionsAt, Cst.followed, hk])
    (by decide) hplays
  simp only [List.map_cons, List.map_nil, total_cons, total_nil] at hsum
  have hrest : ∀ d ∈ c.childrenAs .alternative, d.Regular := fun d hd =>
    hc.of_mem_children (List.mem_filter.mp hd).1
  refine (yields_branch_decisions hf hc hcondition hblock hrest halternatives _ false).mono
    fun n hn => ?_
  rw [hn, hsum]
  omega

theorem yields_forStatement_decisions {c : Cst} (hc : c.Regular) (hk : c.kind = .forStatement) :
    Yields (loop f c (if c.isAsync then .asyncForEach else .forEach) [.left, .right]) fun n =>
      n.decisions = c.decisions := by
  have hshape := hc.isShaped
  simp only [Cst.isShaped, hk, Bool.and_eq_true] at hshape
  obtain ⟨⟨⟨⟨⟨hplays, hleft⟩, hright⟩, hblock⟩, hone⟩, helse⟩ := hshape
  have hsum := hc.decisions_of_roles (n := if c.isAsync then 0 else 1)
    (by simp [Cst.decisionsAt, Cst.followed, hk]) (by decide) hplays
  simp only [List.map_cons, List.map_nil, total_cons, total_nil] at hsum
  refine (yields_loop_decisions hf hc _ (by simp [hleft, hright]) hblock hone helse).mono
    fun n hn => ?_
  rw [hn, hsum]
  cases c.isAsync <;>
    simp only [List.map_cons, List.map_nil, total_cons, total_nil, if_true, reduceCtorEq, if_false,
      Bool.false_eq_true] <;> omega

theorem yields_whileStatement_decisions {c : Cst} (hc : c.Regular) (hk : c.kind = .whileStatement) :
    Yields (loop f c .whileTrue [.condition]) fun n => n.decisions = c.decisions := by
  have hshape := hc.isShaped
  simp only [Cst.isShaped, hk, Bool.and_eq_true] at hshape
  obtain ⟨⟨⟨⟨hplays, hcondition⟩, hblock⟩, hone⟩, helse⟩ := hshape
  have hsum := hc.decisions_of_roles (n := 1) (by simp [Cst.decisionsAt, Cst.followed, hk])
    (by decide) hplays
  simp only [List.map_cons, List.map_nil, total_cons, total_nil] at hsum
  refine (yields_loop_decisions hf hc _ (by simp [hcondition]) hblock hone helse).mono
    fun n hn => ?_
  rw [hn, hsum]
  simp only [List.map_cons, List.map_nil, total_cons, total_nil, reduceCtorEq, if_false]
  omega

theorem yields_booleanOperator_decisions {c : Cst} (hc : c.Regular)
    (hk : c.kind = .booleanOperator) :
    Yields (do return Node.boolOp c.span c.boolOperator (← all f (c.operands c.boolOperator)))
      fun n => n.decisions = c.decisions := by
  have hoperands := hc.total_operands c.boolOperator
  have hown := Cst.decisions_of_children (c := c) (n := 1)
    (by simp [Cst.decisionsAt, Cst.followed, hk])
  refine (yields_all_decisions hf _ fun d hd =>
    hc.isWhole_of_mem_operands c.boolOperator (by simp [hk]) hd).bind fun values hvalues => .pure ?_
  obtain ⟨hlength, htotal⟩ := hvalues
  rw [Node.decisions_eq]
  simp only [Node.decisionPoints, Node.children, hlength, htotal]
  cases hlist : c.operands c.boolOperator with
  | nil =>
    rw [hlist] at hoperands
    simp at hoperands
  | cons d rest =>
    rw [hlist] at hoperands
    simp only [List.length_cons] at hoperands ⊢
    omega

theorem yields_string_decisions {c : Cst} (hc : c.Regular)
    (hk : c.kind = .string ∨ c.kind = .concatenatedString) :
    Yields (string source f c) fun n => n.decisions = c.decisions := by
  have hsum := hc.total_fieldValues source hk
  unfold string
  dsimp only
  split
  · refine (counts_all hf (c.fieldValues source) fun d hd =>
      hc.isWhole_of_mem_fieldValues hd).bind fun fields hfields => .pure ?_
    rw [Node.decisions_eq, ← hsum, ← hfields]
    exact Nat.zero_add _
  · rename_i hempty
    have hnone : c.fieldValues source = [] := by simpa [Cst.fieldValues] using hempty
    have hzero : c.decisions = 0 := by rw [← hsum, hnone]; rfl
    split
    all_goals exact .pure (by rw [Node.decisions_eq, hzero]; rfl)

theorem yields_tuple_decisions {c : Cst} (hc : c.Regular)
    (hk : c.kind = .tuple ∨ c.kind = .expressionList) :
    Yields (do return Node.tuple c.span (← all f c.parts)) fun n => n.decisions = c.decisions := by
  obtain ⟨hown, hkind⟩ : (c.decisionsAt = 0 ∧ c.followed = c.children) ∧
      c.kind ≠ .ifStatement := by
    rcases hk with hk | hk <;> simp [Cst.decisionsAt, Cst.followed, hk]
  refine (counts_parts hf hc hkind).bind fun items hitems => .pure ?_
  rw [Node.decisions_eq, Cst.decisions_of_children hown, ← hitems]
  rfl

/-- Of a definition only the body counts. -/
theorem yields_definition_decisions {c : Cst} {make : List Node → Node} (hc : c.Regular)
    (hk : c.kind = .functionDefinition ∨ c.kind = .classDefinition)
    (hmake : ∀ ns, (make ns).decisionPoints = 0 ∧ (make ns).children = ns) :
    Yields (do return make (← block f (c.child? .body))) fun n => n.decisions = c.decisions := by
  have hshape := hc.isShaped
  obtain ⟨hblock, hown⟩ : c.blockAs .body ∧
      c.decisions = total ((c.childrenAs .body).map Cst.decisions) := by
    rw [Cst.decisions_eq]
    rcases hk with hk | hk
    all_goals
      simp only [Cst.isShaped, hk] at hshape
      exact ⟨hshape, by simp [Cst.decisionsAt, Cst.followed, hk]⟩
  refine (counts_blockAs hf hc hblock).bind fun body hbody => .pure ?_
  rw [Node.decisions_eq, (hmake body).1, (hmake body).2, hbody, hown, Nat.zero_add]

theorem yields_whole_decisions {c : Cst} (hc : c.IsWhole) :
    Yields (whole source f c) fun n => n.decisions = c.decisions := by
  have hregular := hc.1
  have hshape := hregular.isShaped
  have hleaf : ∀ n : Node, n.decisionPoints = 0 → n.children = [] → c.decisions = 0 →
      Yields (pure n) fun n => n.decisions = c.decisions := by
    intro n hpoints hchildren hc
    rw [hc]
    refine .pure ?_
    rw [Node.decisions_eq, hpoints, hchildren]
    rfl
  unfold whole
  split <;> try exact hleaf _ rfl rfl (hregular.decisions_of_leaf (by simp [*]))
  · exact yields_definition_decisions hf hregular (.inl ‹_›) fun _ => ⟨rfl, rfl⟩
  · exact yields_definition_decisions hf hregular (.inr ‹_›) fun _ => ⟨rfl, rfl⟩
  · rename_i hk
    simp only [Cst.isShaped, hk, decide_eq_true_eq] at hshape
    obtain ⟨d, hd, hdefinitions⟩ := Cst.exists_child?_of_length hshape
    have hown : c.decisions = d.decisions := by
      rw [Cst.decisions_eq]
      simp [Cst.decisionsAt, Cst.followed, hk, hdefinitions]
    rw [hd, hown]
    exact hf (.whole d) (hregular.isWhole_of_child? (by decide) hd)
  · exact yields_ifStatement_decisions hf hregular ‹_›
  · exact yields_forStatement_decisions hf hregular ‹_›
  · exact yields_whileStatement_decisions hf hregular ‹_›
  · exact yields_tryExcept_decisions hf hregular ‹_›
  · exact yields_handler_decisions hf hregular (by simp [Cst.isHandler, *])
  · exact yields_handler_decisions hf hregular (by simp [Cst.isHandler, *])
  · exact yields_withBlock_decisions hf hregular ‹_›
  · exact yields_booleanOperator_decisions hf hregular ‹_›
  · exact yields_comprehension_decisions hf hregular (by simp [Cst.isComprehension, *])
  · exact yields_comprehension_decisions hf hregular (by simp [Cst.isComprehension, *])
  · exact yields_comprehension_decisions hf hregular (by simp [Cst.isComprehension, *])
  · exact yields_comprehension_decisions hf hregular (by simp [Cst.isComprehension, *])
  · exact yields_call_decisions hf hregular ‹_›
  · rename_i hk
    split
    · rename_i name hname
      exact hleaf _ rfl rfl (hregular.decisions_of_dotted? (by rw [hname]; rfl))
    · simp only [Cst.isShaped, hk, Bool.and_eq_true] at hshape
      refine (counts_child hf hregular (by decide) hshape.1.2).bind fun object hobject => .pure ?_
      rw [Node.decisions_eq, hregular.decisions_of_attribute hk, ← hobject]
      exact Nat.zero_add _
  · exact yields_raise_decisions hf hregular ‹_›
  · rename_i hk
    have hown := hregular.decisions_of_await hk
    split
    · rename_i value rest hparts
      have hvalue := hregular.isWhole_of_mem_children (by simp [hk])
        (Cst.mem_children_of_mem_parts (by simp [hparts] : value ∈ c.parts))
      refine (hf (.whole value) hvalue).bind fun n hn => .pure ?_
      rw [Node.decisions_eq]
      simpa [Node.decisionPoints, Node.children, hown, hparts] using hn
    · rename_i hparts
      exact hleaf _ rfl rfl (by simp [hown, hparts])
  · exact yields_only_decisions hf hc (by simp [*]) (by simp [Cst.decisionsAt, Cst.followed, *])
  · exact yields_only_decisions hf hc (by simp [*]) (by simp [Cst.decisionsAt, Cst.followed, *])
  · exact yields_string_decisions hf hregular (.inl ‹_›)
  · exact yields_string_decisions hf hregular (.inr ‹_›)
  · exact yields_tuple_decisions hf hregular (.inl ‹_›)
  · exact yields_tuple_decisions hf hregular (.inr ‹_›)
  · refine yields_other_decisions hf hc ‹_› ?_
    have helif := hc.2
    unfold Cst.decisionsAt Cst.followed
    constructor <;> split <;> first | rfl | contradiction

theorem yields_level_decisions {t : Subtree} (ht : t.IsSound) :
    Yields (level source f t) fun n => n.decisions = t.decisions := by
  cases t with
  | whole c => exact yields_whole_decisions hf ht
  | elifChain c rest =>
    obtain ⟨hc, hk, hrest, halternatives⟩ := ht
    have hshape := hc.isShaped
    simp only [Cst.isShaped, hk, Bool.and_eq_true] at hshape
    obtain ⟨⟨hplays, hcondition⟩, hblock⟩ := hshape
    have hsum := hc.decisions_of_roles (n := 1) (by simp [Cst.decisionsAt, Cst.followed, hk])
      (by decide) hplays
    simp only [List.map_cons, List.map_nil, total_cons, total_nil] at hsum
    refine (yields_branch_decisions hf hc hcondition hblock hrest halternatives _ true).mono
      fun n hn => ?_
    rw [hn, Subtree.decisions, hsum]
    omega

end Levels

/-- Lowering keeps the decision points, within any number of levels that is enough. -/
theorem decisions_of_lower {source : Array Char} {limit : Nat} {t : Subtree} (ht : t.IsSound) :
    Yields (lower source limit t) fun n => n.decisions = t.decisions := by
  -- What a level leaves to `descend` is lowered within one level less.
  induction limit generalizing t with
  | zero => exact fun n hn => by simp [lower] at hn
  | succ limit ih => exact yields_level_decisions (fun s hs => ih hs) ht

/-- In a tree of the grammar, in which no line continuation stands where only the first part of
a node is read, every decision point is counted once. -/
theorem decisions_statements {source : Array Char} {c : Cst} {body : List Node}
    (hmodule : c.kind = .construct) (hformed : ∀ d ∈ c.nodes, d.isFormed)
    (hunbroken : ∀ d ∈ c.nodes, d.isUnbroken) (hbody : statements source c = some body) :
    total ((Node.walkAll body).map Node.decisionPoints) = c.decisions := by
  have hc : c.Regular := fun d hd => ⟨hformed d hd, hunbroken d hd⟩
  rw [Node.total_walkAll,
    Cst.decisions_of_children (n := 0) (by simp [Cst.decisionsAt, Cst.followed, hmodule]),
    Nat.zero_add]
  exact counts_parts (fun s hs => decisions_of_lower hs) hc (by simp [hmodule]) body hbody

/-- A chain of conditions with parentheses, a handler with a name and a filter. -/
theorem decisions_statements_handler :
    let text := "try:\n    f(a and (b and c))\nexcept E as e:\n    [v for v in x if v]\n"
    ∃ c body, Cst.ofSource? text = some c ∧ statements text.toList.toArray c = some body ∧
      total ((Node.walkAll body).map Node.decisionPoints) = c.decisions ∧ c.decisions = 5 := by
  intro text
  have hregular : (Cst.ofSource? text).any fun c =>
      (statements text.toList.toArray c).isSome && c.kind = .construct &&
        c.nodes.all (fun d => d.isFormed && d.isUnbroken) && c.decisions = 5 := by decide +kernel
  obtain ⟨c, hc, h⟩ := (Option.any_eq_true ..).mp hregular
  simp only [Bool.and_eq_true, decide_eq_true_eq, List.all_eq_true] at h
  obtain ⟨⟨⟨hsome, hmodule⟩, hnodes⟩, hcount⟩ := h
  obtain ⟨body, hbody⟩ := Option.isSome_iff_exists.mp hsome
  exact ⟨c, body, hc, hbody, decisions_statements hmodule (fun d hd => (hnodes d hd).1)
    (fun d hd => (hnodes d hd).2) hbody, hcount⟩

/-- Where a line continuation comes first behind `await`, it is taken for what is awaited, and
the decision points of the expression behind it are lost. -/
theorem decisions_lost_behind_await :
    let text := "async def f():\n    await \\\n        g(a and b)\n"
    ∃ c body, Cst.ofSource? text = some c ∧ statements text.toList.toArray c = some body ∧
      (∀ d ∈ c.nodes, d.isFormed) ∧
      total ((Node.walkAll body).map Node.decisionPoints) = 0 ∧ c.decisions = 1 := by
  intro text
  have hlost : (Cst.ofSource? text).any fun c =>
      (statements text.toList.toArray c).any (fun body =>
        total ((Node.walkAll body).map Node.decisionPoints) = 0) &&
        c.nodes.all Cst.isFormed && c.decisions = 1 := by decide +kernel
  obtain ⟨c, hc, h⟩ := (Option.any_eq_true ..).mp hlost
  simp only [Bool.and_eq_true, decide_eq_true_eq, List.all_eq_true] at h
  obtain ⟨⟨hany, hnodes⟩, hcount⟩ := h
  obtain ⟨body, hbody, hzero⟩ := (Option.any_eq_true ..).mp hany
  exact ⟨c, body, hc, hbody, hnodes, of_decide_eq_true hzero, hcount⟩

end QualityGate.Python.Lowering
