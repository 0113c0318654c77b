import QualityGate.Proofs.Cst.Descent

/-! What the grammar says of the nodes of a tree: which roles the children of a node play, how
many may play one, and of what kind they are. Tokens, comments and line continuations may stand
anywhere and have nothing below them; the other children of a node are its members. -/
namespace QualityGate.Python.Cst

/-- A node and everything below it, each node before its children. -/
def nodes (c : Cst) : List Cst := c :: c.children.attach.flatMap fun ⟨d, _⟩ => nodes d
termination_by sizeOf c
decreasing_by exact sizeOf_lt_of_mem_children ‹_›

theorem nodes_eq (c : Cst) : c.nodes = c :: c.children.flatMap nodes := by
  rw [nodes]
  simp

theorem mem_nodes_self (c : Cst) : c ∈ c.nodes := by
  rw [nodes_eq]
  exact List.mem_cons_self

theorem nodes_subset_of_mem_children {c d e : Cst} (h : d ∈ c.children) (he : e ∈ d.nodes) :
    e ∈ c.nodes := by
  rw [nodes_eq]
  exact List.mem_cons_of_mem _ (List.mem_flatMap.mpr ⟨d, h, he⟩)

theorem mem_nodes_of_mem_children {c d : Cst} (h : d ∈ c.children) : d ∈ c.nodes :=
  nodes_subset_of_mem_children h d.mem_nodes_self

theorem nodes_subset_of_mem_nodes {c d e : Cst} (h : d ∈ c.nodes) (he : e ∈ d.nodes) :
    e ∈ c.nodes := by
  induction c using induction_on_children with
  | step c ih =>
    rw [nodes_eq, List.mem_cons, List.mem_flatMap] at h
    rcases h with rfl | ⟨b, hb, hd⟩
    · exact he
    · exact nodes_subset_of_mem_children hb (ih b hb hd)

theorem mem_nodes_of_mem_operands {op : BoolOperator} {c d : Cst} (h : d ∈ c.operands op) :
    d ∈ c.nodes := by
  induction c using induction_on_children with
  | step c ih =>
    rw [operands_eq] at h
    split at h
    · simp only [List.mem_append, List.mem_flatMap, Option.mem_toList] at h
      obtain ⟨e, he, hd⟩ | ⟨e, he, hd⟩ := h
      all_goals
        have hmem := mem_children_of_child? he
        exact nodes_subset_of_mem_children hmem (ih e hmem hd)
    · obtain rfl := List.mem_singleton.mp h
      exact d.mem_nodes_self

theorem mem_nodes_of_mem_fieldValues {source : Array Char} {c d : Cst}
    (h : d ∈ c.fieldValues source) : d ∈ c.nodes := by
  induction c using induction_on_children with
  | step c ih =>
    rw [fieldValues_eq, List.mem_flatMap] at h
    obtain ⟨e, he, h⟩ := h
    have hmem := mem_children_of_mem_parts he
    split at h
    · exact nodes_subset_of_mem_children hmem (ih e hmem h)
    · have hchild := mem_children_of_child? (Option.mem_toList.mp h)
      exact nodes_subset_of_mem_children hmem (mem_nodes_of_mem_children hchild)
    · simp at h

/-! ### Members -/

/-- Whether a node is a token, a comment or a line continuation. -/
def isBare (c : Cst) : Bool := !c.isNamed || c.isComment || c.kind = .lineContinuation

/-- The children that are no tokens, comments or line continuations. -/
def members (c : Cst) : List Cst := c.children.filter fun d => !d.isBare

/-- Members are the parts that continue no line. -/
theorem members_eq (c : Cst) : c.members = c.parts.filter (·.kind != .lineContinuation) := by
  rw [members, parts, List.filter_filter]
  refine List.filter_congr fun d _ => ?_
  rw [isBare, Bool.eq_iff_iff]
  simp [and_comm]

theorem mem_members_of_part? {c d : Cst} {k : Kind} (h : c.part? k = some d)
    (hk : k ≠ .lineContinuation) : d ∈ c.members := by
  have hd : d.kind = k := by simpa using List.find?_some h
  rw [members_eq]
  exact List.mem_filter.mpr ⟨List.mem_of_find?_eq_some h, by simp [hd, hk]⟩

/-- At most one node that passes a test is the first one that does. -/
theorem filter_eq_toList {cs : List Cst} {p : Cst → Bool} (h : cs.countP p ≤ 1) :
    cs.filter p = (cs.find? p).toList := by
  rw [List.countP_eq_length_filter] at h
  rw [← List.head?_filter]
  match hcs : cs.filter p with
  | [] => rfl
  | [d] => rfl
  | d :: e :: rest => simp [hcs] at h

/-- Members of a kind are the parts of it. -/
theorem filter_kind_members (c : Cst) {k : Kind} (hk : k ≠ .lineContinuation) :
    c.members.filter (·.kind = k) = c.parts.filter (·.kind = k) := by
  rw [members_eq, List.filter_filter]
  refine List.filter_congr fun d _ => ?_
  by_cases hd : d.kind = k
  · simp [hd, hk]
  · simp [hd]

theorem filter_kind_members_eq_toList {c : Cst} {k : Kind} (hk : k ≠ .lineContinuation)
    (h : c.members.countP (·.kind = k) ≤ 1) :
    c.members.filter (·.kind = k) = (c.part? k).toList := by
  rw [filter_eq_toList h, ← List.head?_filter, filter_kind_members c hk, List.head?_filter, part?]

/-! ### Roles -/

/-- Whether every member plays one of some roles. -/
def plays (c : Cst) (fs : List Field) : Bool :=
  c.members.all fun d => fs.any fun f => d.field? = some f

theorem exists_field?_of_plays {c d : Cst} {fs : List Field} (h : c.plays fs) (hd : d ∈ c.members) :
    ∃ f ∈ fs, d.field? = some f := by
  simpa [plays] using List.all_eq_true.mp h d hd

/-- Where a role is all that members play, a block is only found in it. -/
theorem child?_or_part? {c : Cst} {f : Field} (h : c.plays [f]) :
    (c.child? f).or (c.part? .block) = c.child? f := by
  cases hpart : c.part? .block with
  | none => rw [Option.or_none]
  | some d =>
    obtain ⟨g, hg, hrole⟩ := exists_field?_of_plays h (mem_members_of_part? hpart (by decide))
    obtain rfl := List.mem_singleton.mp hg
    have hsome : (c.child? g).isSome :=
      List.find?_isSome.mpr ⟨d, mem_children_of_part? hpart, by simp [hrole]⟩
    obtain ⟨e, he⟩ := Option.isSome_iff_exists.mp hsome
    rw [he, Option.some_or]

def atMostOne (c : Cst) (f : Field) : Bool := (c.childrenAs f).length ≤ 1

theorem childrenAs_eq_toList {c : Cst} {f : Field} (h : c.atMostOne f) :
    c.childrenAs f = (c.child? f).toList := by
  rw [atMostOne, decide_eq_true_eq, childrenAs, ← List.countP_eq_length_filter] at h
  exact filter_eq_toList h

theorem exists_child?_of_length {c : Cst} {f : Field} (h : (c.childrenAs f).length = 1) :
    ∃ d, c.child? f = some d ∧ c.childrenAs f = [d] := by
  obtain ⟨d, hd⟩ := List.length_eq_one_iff.mp h
  exact ⟨d, by rw [child?, ← List.head?_filter, ← childrenAs, hd]; rfl, hd⟩

/-- Whether the children in a role are of some kind. -/
def areAs (c : Cst) (f : Field) (k : Kind) : Bool := (c.childrenAs f).all (·.kind = k)

theorem field?_of_child? {c d : Cst} {f : Field} (h : c.child? f = some d) : d.field? = some f := by
  simpa using List.find?_some h

theorem kind_of_child? {c d : Cst} {f : Field} {k : Kind} (h : c.areAs f k)
    (hd : c.child? f = some d) : d.kind = k := by
  have hmem : d ∈ c.childrenAs f :=
    List.mem_filter.mpr ⟨mem_children_of_child? hd, by simp [field?_of_child? hd]⟩
  simpa using List.all_eq_true.mp h d hmem

/-- Whether a role is played by one block at most. -/
def blockAs (c : Cst) (f : Field) : Bool := c.atMostOne f && c.areAs f .block

theorem kind_of_blockAs {c d : Cst} {f : Field} (h : c.blockAs f) (hd : d ∈ c.children)
    (hf : d.field? = some f) : d.kind = .block := by
  rw [blockAs, Bool.and_eq_true] at h
  have hmem : d ∈ c.childrenAs f := List.mem_filter.mpr ⟨hd, by simp [hf]⟩
  simpa using List.all_eq_true.mp h.2 d hmem

def isClause (c : Cst) : Bool := c.kind = .forInClause || c.kind = .ifClause

def isComprehension (c : Cst) : Bool :=
  c.kind = .listComprehension || c.kind = .setComprehension || c.kind = .dictionaryComprehension
    || c.kind = .generatorExpression

def isHandler (c : Cst) : Bool := c.kind = .exceptClause || c.kind = .exceptGroupClause

/-- Whether clauses may stand behind a branch: any number of `elif` and then one `else` at
most. -/
def areAlternatives : List Cst → Bool
  | [] => true
  | c :: rest =>
    if c.kind = .elifClause then areAlternatives rest
    else c.kind = .elseClause && rest.isEmpty

/-- Whether a node is one value and the alias behind it. -/
def namesValue (c : Cst) : Bool :=
  c.members.countP (·.field? != some .alias) ≤ 1
    && c.parts.head?.all fun d => !d.isBare && d.field? != some .alias

theorem filter_alias_members {c : Cst} (h : c.namesValue) :
    c.members.filter (·.field? != some .alias) = c.parts.head?.toList := by
  rw [namesValue, Bool.and_eq_true, decide_eq_true_eq] at h
  obtain ⟨hone, hfirst⟩ := h
  rw [filter_eq_toList hone]
  cases hparts : c.parts with
  | nil => rw [members_eq, hparts]; rfl
  | cons d rest =>
    rw [hparts, List.head?_cons, Option.all_some, Bool.and_eq_true] at hfirst
    have hline : (d.kind != .lineContinuation) = true := by
      cases hk : d.kind <;> simp_all [isBare]
    rw [members_eq, hparts, List.filter_cons, if_pos hline, List.find?_cons, hfirst.2]
    rfl

/-- Whether a node's children are in the roles, and of the kinds, that the grammar gives to
them. -/
def isShaped (c : Cst) : Bool :=
  match c.kind with
  | .token _ | .comment | .lineContinuation => c.children.isEmpty
  | .identifier | .integer | .float | .trueLiteral | .falseLiteral | .noneLiteral | .ellipsis
  | .passStatement => c.members.isEmpty
  | .functionDefinition | .classDefinition => c.blockAs .body
  | .decoratedDefinition => (c.childrenAs .definition).length = 1
  | .ifStatement =>
    c.plays [.condition, .consequence, .alternative] && c.atMostOne .condition
      && c.blockAs .consequence && areAlternatives (c.childrenAs .alternative)
  | .elifClause =>
    c.plays [.condition, .consequence] && c.atMostOne .condition && c.blockAs .consequence
  | .elseClause => c.plays [.body] && c.blockAs .body
  | .forStatement =>
    c.plays [.left, .right, .body, .alternative] && c.atMostOne .left && c.atMostOne .right
      && c.blockAs .body && c.atMostOne .alternative && c.areAs .alternative .elseClause
  | .whileStatement =>
    c.plays [.condition, .body, .alternative] && c.atMostOne .condition
      && c.blockAs .body && c.atMostOne .alternative && c.areAs .alternative .elseClause
  | .tryStatement =>
    c.blockAs .body
      && (c.members.all fun d => d.field? = some .body || d.isHandler || d.kind = .elseClause
        || d.kind = .finallyClause)
      && c.members.countP (·.kind = .elseClause) ≤ 1
      && c.members.countP (·.kind = .finallyClause) ≤ 1
  | .exceptClause | .exceptGroupClause =>
    c.members.countP (·.kind = .block) ≤ 1
      && (c.members.find? (·.kind != .block)).all fun d => d.kind != .asPattern || d.namesValue
  | .finallyClause => c.members.all (·.kind = .block) && c.members.length ≤ 1
  | .withStatement =>
    c.blockAs .body && (c.members.all fun d => d.field? = some .body || d.kind = .withClause)
      && c.members.countP (·.kind = .withClause) ≤ 1
  | .withClause => c.members.all (·.kind = .withItem)
  | .withItem => c.plays [.value] && c.atMostOne .value
  | .raiseStatement =>
    c.atMostOne .cause && c.members.countP (·.field? != some .cause) ≤ 1
  | .booleanOperator =>
    c.plays [.left, .right] && (c.childrenAs .left).length = 1 && (c.childrenAs .right).length = 1
  | .listComprehension | .setComprehension | .dictionaryComprehension | .generatorExpression =>
    c.atMostOne .body && (c.members.all fun d => (d.field? = some .body) != d.isClause)
      && (c.parts.find? isClause).all (·.kind = .forInClause)
  | .pair => c.plays [.key, .value] && c.atMostOne .key && c.atMostOne .value
  | .forInClause => c.plays [.left, .right] && c.atMostOne .left
  | .ifClause => c.members.length = 1
  | .call => c.plays [.function, .arguments] && c.atMostOne .function && c.atMostOne .arguments
  | .keywordArgument => c.plays [.name, .value] && c.areAs .name .identifier && c.atMostOne .value
  | .attribute =>
    c.plays [.object, .attribute] && c.atMostOne .object && c.areAs .attribute .identifier
  | .await => c.members.length ≤ 1
  | .interpolation => c.atMostOne .expression
  | _ => true

/-- Whether a node is as the grammar has it; an `elif` stands behind a branch only. -/
def isFormed (c : Cst) : Bool :=
  c.isShaped && c.children.all fun d =>
    d.kind != .elifClause || (c.kind = .ifStatement && d.field? = some .alternative)

/-! ### Line continuations -/

/-- Whether the first part that passes a test, if there is one, is no line continuation. -/
def startsPlainly (c : Cst) (p : Cst → Bool) : Bool :=
  (c.parts.find? p).all (·.kind != .lineContinuation)

/-- Whether a node of which only the first part is read does not start with a line
continuation. -/
def isUnbroken (c : Cst) : Bool :=
  match c.kind with
  | .await => c.startsPlainly fun _ => true
  | .raiseStatement => c.startsPlainly (·.field? != some .cause)
  | .exceptClause | .exceptGroupClause => c.startsPlainly (·.kind != .block)
  | .listComprehension | .setComprehension | .dictionaryComprehension | .generatorExpression =>
    c.children.all fun d => d.kind != .ifClause || d.startsPlainly fun _ => true
  | _ => true

/-- What comes first is a member then. -/
theorem find?_members {c : Cst} {p : Cst → Bool} (h : c.startsPlainly p) :
    c.members.find? p = c.parts.find? p := by
  rw [startsPlainly] at h
  rw [members_eq]
  generalize c.parts = cs at h ⊢
  induction cs with
  | nil => rfl
  | cons d ds ih =>
    cases hp : p d with
    | true =>
      rw [List.find?_cons_of_pos hp, Option.all_some] at h
      rw [List.filter_cons, if_pos h, List.find?_cons_of_pos hp, List.find?_cons_of_pos hp]
    | false =>
      have hp : ¬p d = true := by simp [hp]
      rw [List.find?_cons_of_neg hp] at h ⊢
      rw [← ih h, List.filter_cons]
      split
      · exact List.find?_cons_of_neg hp
      · rfl

end QualityGate.Python.Cst
