import QualityGate.Proofs.Cst.Decisions

/-! Sums of decision points in trees of the grammar. Whatever is no member counts nothing, so the
points below a node are those of its members, class by class or role by role; and for every kind
of node that is not read as a whole, they are those of the children that are read. -/
namespace QualityGate.Python.Cst

/-- Whether all nodes of a tree are as the grammar has them, and none of which only the first
part is read starts with a line continuation. -/
def Regular (c : Cst) : Prop := ∀ d ∈ c.nodes, d.isFormed ∧ d.isUnbroken

namespace Regular

variable {c d : Cst} (h : c.Regular)
include h

theorem of_mem_children (hd : d ∈ c.children) : d.Regular :=
  fun e he => h e (nodes_subset_of_mem_children hd he)

theorem of_mem_parts (hd : d ∈ c.parts) : d.Regular :=
  h.of_mem_children (mem_children_of_mem_parts hd)

theorem isUnbroken : c.isUnbroken := (h c c.mem_nodes_self).2

theorem isShaped : c.isShaped := by
  have hformed := (h c c.mem_nodes_self).1
  rw [isFormed, Bool.and_eq_true] at hformed
  exact hformed.1

/-- Where a clause for another condition stands. -/
theorem kind_of_elif (hd : d ∈ c.children) (hk : d.kind = .elifClause) :
    c.kind = .ifStatement ∧ d.field? = some .alternative := by
  have hformed := (h c c.mem_nodes_self).1
  rw [isFormed, Bool.and_eq_true, List.all_eq_true] at hformed
  simpa [hk] using hformed.2 d hd

/-! ### Sums over children -/

theorem decisions_of_isBare (hb : c.isBare) : c.decisions = 0 := by
  have hshape := h.isShaped
  obtain ⟨hat, hbelow⟩ : c.decisionsAt = 0 ∧ c.followed = [] := by
    unfold isBare isNamed isComment at hb
    unfold Cst.isShaped at hshape
    cases hk : c.kind <;> simp_all [decisionsAt, followed]
  rw [decisions_eq, hat, hbelow]
  rfl

theorem decisions_of_not_member (hd : d ∈ c.children) (hm : (!d.isBare) = false) :
    d.decisions = 0 :=
  (h.of_mem_children hd).decisions_of_isBare (by simpa using hm)

theorem decisions_of_not_part (hd : d ∈ c.children) (hp : (d.isNamed && !d.isComment) = false) :
    d.decisions = 0 := by
  refine (h.of_mem_children hd).decisions_of_isBare ?_
  cases hn : d.isNamed <;> simp_all [isBare]

theorem total_members : total (c.members.map decisions) = total (c.children.map decisions) :=
  total_map_filter fun _ => h.decisions_of_not_member

theorem total_parts : total (c.parts.map decisions) = total (c.children.map decisions) :=
  total_map_filter fun _ => h.decisions_of_not_part

theorem total_filter_members (p : Cst → Bool) :
    total ((c.members.filter p).map decisions) = total ((c.children.filter p).map decisions) :=
  total_map_filter_filter p fun _ => h.decisions_of_not_member

theorem total_filter_parts (p : Cst → Bool) :
    total ((c.parts.filter p).map decisions) = total ((c.children.filter p).map decisions) :=
  total_map_filter_filter p fun _ => h.decisions_of_not_part

/-- Where every member is in just one of some classes, the sum may be taken class by class. -/
theorem total_classes (ps : List (Cst → Bool)) (hps : ∀ d ∈ c.members,
      d.decisions = total (ps.map fun p => if p d then d.decisions else 0)) :
    total (c.children.map decisions) =
      total (ps.map fun p => total ((c.children.filter p).map decisions)) :=
  total_map_classes ps fun d hd => by
    by_cases hm : d ∈ c.members
    · exact hps d hm
    · rw [h.decisions_of_not_member hd (by simpa [members, hd] using hm)]
      exact (total_map_eq_zero fun p _ => by simp).symm

/-- Where the members play some roles, the sum may be taken role by role. -/
theorem decisions_of_roles {fs : List Field} {n : Nat}
    (hown : c.decisionsAt = n ∧ c.followed = c.children) (hfs : fs.Nodup) (hplays : c.plays fs) :
    c.decisions = n + total (fs.map fun f => total ((c.childrenAs f).map decisions)) := by
  rw [decisions_of_children hown,
    h.total_classes (fs.map fun f (d : Cst) => decide (d.field? = some f)), List.map_map]
  · rfl
  · intro d hd
    obtain ⟨f, hf, hrole⟩ := exists_field?_of_plays hplays hd
    rw [List.map_map]
    refine Eq.symm ((total_map_single hfs hf fun g _ hg => ?_).trans ?_)
    · simp [hrole, Ne.symm hg]
    · simp [hrole]

end Regular

/-- Whether a node may be lowered on its own: a clause for another condition may not. -/
def IsWhole (c : Cst) : Prop := c.Regular ∧ c.kind ≠ .elifClause

namespace Regular

variable {c d : Cst} (h : c.Regular)
include h

theorem isWhole_of_mem_children (hk : c.kind ≠ .ifStatement) (hd : d ∈ c.children) : d.IsWhole :=
  ⟨h.of_mem_children hd, fun helif => hk (h.kind_of_elif hd helif).1⟩

theorem isWhole_of_child? {f : Field} (hf : f ≠ .alternative) (hd : c.child? f = some d) :
    d.IsWhole := by
  have hmem := mem_children_of_child? hd
  refine ⟨h.of_mem_children hmem, fun helif => hf ?_⟩
  simpa [field?_of_child? hd] using (h.kind_of_elif hmem helif).2

/-! ### Sums of nodes of a kind -/

theorem decisions_of_members_nil (hat : c.decisionsAt = 0) (hbelow : c.followed = c.children)
    (hm : c.members = []) : c.decisions = 0 := by
  rw [decisions_eq, hat, hbelow, ← h.total_members, hm]
  rfl

/-- Names, constants, imports and statements about names hold no decision. -/
theorem decisions_of_leaf (hk : c.kind ∈ [.identifier, .integer, .float, .trueLiteral,
      .falseLiteral, .noneLiteral, .ellipsis, .passStatement, .importStatement,
      .importFromStatement, .globalStatement, .nonlocalStatement]) : c.decisions = 0 := by
  have hshape := h.isShaped
  simp only [List.mem_cons, List.not_mem_nil, or_false] at hk
  obtain hk | hk | hk | hk | hk | hk | hk | hk | hk | hk | hk | hk := hk
  iterate 8
    simp only [Cst.isShaped, hk, List.isEmpty_iff] at hshape
    exact h.decisions_of_members_nil (by simp [decisionsAt, hk]) (by simp [followed, hk]) hshape
  all_goals
    rw [decisions_eq]
    simp [decisionsAt, followed, hk]

theorem total_childrenAs_of_areAs_identifier {f : Field} (hf : c.areAs f .identifier) :
    total ((c.childrenAs f).map decisions) = 0 :=
  total_map_eq_zero fun d hd => by
    have hk : d.kind = .identifier := by simpa using List.all_eq_true.mp hf d hd
    exact (h.of_mem_children (List.mem_filter.mp hd).1).decisions_of_leaf (by simp [hk])

/-- An attribute holds the decisions of what it belongs to. -/
theorem decisions_of_attribute (hk : c.kind = .attribute) :
    c.decisions = total ((c.childrenAs .object).map decisions) := by
  have hshape := h.isShaped
  simp only [Cst.isShaped, hk, Bool.and_eq_true] at hshape
  have hsum := h.decisions_of_roles (n := 0) (by simp [decisionsAt, followed, hk]) (by decide)
    hshape.1.1
  have hname := h.total_childrenAs_of_areAs_identifier hshape.2
  simpa [hname] using hsum

/-- Names in a row hold no decision. -/
theorem decisions_of_dotted? {source : Array Char} (hd : (c.dotted? source).isSome) :
    c.decisions = 0 := by
  induction c using induction_on_children with
  | step c ih =>
    rw [dotted?] at hd
    split at hd
    · exact h.decisions_of_leaf (by simp [*])
    · rename_i hk
      split at hd
      · rename_i object name hobject hname
        have hshape := h.isShaped
        simp only [Cst.isShaped, hk, Bool.and_eq_true] at hshape
        have hmem := mem_children_of_child? hobject
        rw [h.decisions_of_attribute hk, childrenAs_eq_toList hshape.1.2, hobject]
        simpa using ih object hmem (h.of_mem_children hmem) (by simpa using hd)
      · simp at hd
    · simp at hd

/-- The operands of a chain, together with the chain's own decisions, hold the decisions of
the chain. -/
theorem total_operands (op : BoolOperator) :
    total ((c.operands op).map decisions) + (c.operands op).length = c.decisions + 1 := by
  induction c using induction_on_children with
  | step c ih =>
    rw [operands_eq]
    split
    · rename_i hc
      have hshape := h.isShaped
      simp only [Cst.isShaped, hc.1, Bool.and_eq_true, decide_eq_true_eq] at hshape
      obtain ⟨⟨hplays, hleft⟩, hright⟩ := hshape
      obtain ⟨l, hl, hleft⟩ := exists_child?_of_length hleft
      obtain ⟨r, hr, hright⟩ := exists_child?_of_length hright
      have hlmem := mem_children_of_child? hl
      have hrmem := mem_children_of_child? hr
      have hsum := h.decisions_of_roles (n := 1) (by simp [decisionsAt, followed, hc.1])
        (by decide) hplays
      have ihl := ih l hlmem (h.of_mem_children hlmem)
      have ihr := ih r hrmem (h.of_mem_children hrmem)
      simp only [List.map_cons, List.map_nil, hleft, hright, total_cons, total_nil] at hsum
      simp only [hl, hr, Option.toList_some, List.flatMap_cons, List.flatMap_nil, List.append_nil,
        List.map_append, total_append, List.length_append]
      omega
    · simp

/-- The operands of a chain may be lowered on their own. -/
theorem isWhole_of_mem_operands (op : BoolOperator) (hk : c.kind ≠ .elifClause)
    (hd : d ∈ c.operands op) : d.IsWhole := by
  induction c using induction_on_children with
  | step c ih =>
    rw [operands_eq] at hd
    split at hd
    · simp only [List.mem_append, List.mem_flatMap, Option.mem_toList] at hd
      obtain ⟨e, he, hd⟩ | ⟨e, he, hd⟩ := hd
      all_goals
        have hmem := mem_children_of_child? he
        have hwhole := h.isWhole_of_child? (by decide) he
        exact ih e hmem hwhole.1 hwhole.2 hd
    · obtain rfl := List.mem_singleton.mp hd
      exact ⟨h, hk⟩

/-! ### Sums of statements and clauses -/

theorem decisions_of_tryStatement (hk : c.kind = .tryStatement) :
    c.decisions = total ((c.childrenAs .body).map decisions)
      + total ((c.parts.filter isHandler).map decisions)
      + total ((c.parts.filter (·.kind = .elseClause)).map decisions)
      + total ((c.parts.filter (·.kind = .finallyClause)).map decisions) := by
  have hshape := h.isShaped
  simp only [Cst.isShaped, hk, Bool.and_eq_true] at hshape
  obtain ⟨⟨⟨hblock, hmembers⟩, -⟩, -⟩ := hshape
  have hown := decisions_of_children (c := c) (n := 0) (by simp [decisionsAt, followed, hk])
  rw [hown, h.total_filter_parts, h.total_filter_parts, h.total_filter_parts,
    h.total_classes [fun d => decide (d.field? = some .body), isHandler,
      fun d => decide (d.kind = .elseClause), fun d => decide (d.kind = .finallyClause)]]
  · simp only [List.map_cons, List.map_nil, total_cons, total_nil, childrenAs]
    omega
  · intro d hd
    have hclass := List.all_eq_true.mp hmembers d hd
    by_cases hbody : d.field? = some .body
    · have hkind := kind_of_blockAs hblock (List.mem_filter.mp hd).1 hbody
      simp [hbody, isHandler, hkind]
    · simp only [hbody, decide_false, Bool.false_or, Bool.or_eq_true, decide_eq_true_eq] at hclass
      obtain (hclass | hclass) | hclass := hclass
      · have hkinds : d.kind ≠ .elseClause ∧ d.kind ≠ .finallyClause := by
          constructor <;> intro hkind <;> simp [isHandler, hkind] at hclass
        simp [hbody, hclass, hkinds]
      · simp [hbody, isHandler, hclass]
      · simp [hbody, isHandler, hclass]

theorem decisions_of_finallyClause (hk : c.kind = .finallyClause) :
    c.decisions = total ((c.part? .block).toList.map decisions) := by
  have hshape := h.isShaped
  simp only [Cst.isShaped, hk, Bool.and_eq_true, decide_eq_true_eq] at hshape
  obtain ⟨hblocks, hlength⟩ := hshape
  have hown := decisions_of_children (c := c) (n := 0) (by simp [decisionsAt, followed, hk])
  have hfilter : c.members.filter (·.kind = .block) = c.members :=
    List.filter_eq_self.mpr (List.all_eq_true.mp hblocks)
  have hone : c.members.countP (·.kind = .block) ≤ 1 :=
    Nat.le_trans List.countP_le_length hlength
  rw [hown, Nat.zero_add, ← h.total_members, ← filter_kind_members_eq_toList (by decide) hone,
    hfilter]

theorem decisions_of_withStatement (hk : c.kind = .withStatement) :
    c.decisions = (if c.isAsync then 0 else 1)
      + total ((c.part? .withClause).toList.map decisions)
      + total ((c.childrenAs .body).map decisions) := by
  have hshape := h.isShaped
  simp only [Cst.isShaped, hk, Bool.and_eq_true, decide_eq_true_eq] at hshape
  obtain ⟨⟨hblock, hmembers⟩, hone⟩ := hshape
  have hown := decisions_of_children (c := c) (n := if c.isAsync then 0 else 1)
    (by simp [decisionsAt, followed, hk])
  rw [hown, ← filter_kind_members_eq_toList (by decide) hone, h.total_filter_members,
    h.total_classes [fun d => decide (d.kind = .withClause),
      fun d => decide (d.field? = some .body)]]
  · simp only [List.map_cons, List.map_nil, total_cons, total_nil, childrenAs]
    omega
  · intro d hd
    have hclass := List.all_eq_true.mp hmembers d hd
    by_cases hbody : d.field? = some .body
    · have hkind := kind_of_blockAs hblock (List.mem_filter.mp hd).1 hbody
      simp [hbody, hkind]
    · simp only [hbody, decide_false, Bool.false_or, decide_eq_true_eq] at hclass
      simp [hbody, hclass]

/-- The contexts' values hold the decisions of the contexts. -/
theorem total_withItems (hk : c.kind = .withClause) :
    total ((c.parts.map fun item => (item.child? .value).getD item).map decisions) =
      c.decisions := by
  have hshape := h.isShaped
  simp only [Cst.isShaped, hk] at hshape
  have hown := decisions_of_children (c := c) (n := 0) (by simp [decisionsAt, followed, hk])
  rw [hown, Nat.zero_add, ← h.total_parts, List.map_map]
  congr 1
  refine List.map_congr_left fun d hd => ?_
  cases hvalue : d.child? .value with
  | none => simp [hvalue]
  | some value =>
    have hregular := h.of_mem_parts hd
    have hitem : d.kind = .withItem := by
      by_cases hline : d.kind = .lineContinuation
      · have hnothing := hregular.isShaped
        simp only [Cst.isShaped, hline, List.isEmpty_iff] at hnothing
        simp [child?, hnothing] at hvalue
      · have hmem : d ∈ c.members := by
          rw [members_eq]
          exact List.mem_filter.mpr ⟨hd, by simp [hline]⟩
        simpa using List.all_eq_true.mp hshape d hmem
    have hshape := hregular.isShaped
    simp only [Cst.isShaped, hitem, Bool.and_eq_true] at hshape
    have hsum := hregular.decisions_of_roles (n := 0) (by simp [decisionsAt, followed, hitem])
      (by decide) hshape.1
    rw [List.map_singleton, total_singleton, childrenAs_eq_toList hshape.2, hvalue] at hsum
    simp [hvalue, hsum]

/-- A handler catches what its first part says, or the value that an alias stands behind. -/
theorem caughtIn_eq (hk : c.isHandler) :
    c.caughtIn = match c.parts.find? (·.kind != .block) with
      | none => []
      | some d => if d.kind = .asPattern then d.parts.head?.toList else [d] := by
  have hshape := h.isShaped
  have hunbroken := h.isUnbroken
  obtain ⟨hplain, hvalue⟩ : c.startsPlainly (·.kind != .block) ∧
      (c.members.find? (·.kind != .block)).all fun d => d.kind != .asPattern || d.namesValue := by
    rw [isHandler, Bool.or_eq_true, decide_eq_true_eq, decide_eq_true_eq] at hk
    rcases hk with hk | hk
    all_goals
      simp only [Cst.isShaped, hk, Bool.and_eq_true] at hshape
      simp only [Cst.isUnbroken, hk] at hunbroken
      exact ⟨hunbroken, hshape.2⟩
  rw [caughtIn, find?_members hplain]
  rw [find?_members hplain] at hvalue
  cases hfirst : c.parts.find? (·.kind != .block) with
  | none => rfl
  | some d =>
    rw [hfirst, Option.all_some] at hvalue
    dsimp only
    split
    · rename_i hpattern
      exact filter_alias_members (by simpa [hpattern] using hvalue)
    · rfl

theorem decisions_of_handler (hk : c.isHandler) :
    c.decisions = 1 + total (c.caughtIn.map decisions)
      + total ((c.part? .block).toList.map decisions) := by
  have hshape := h.isShaped
  rw [decisions_eq]
  rw [isHandler, Bool.or_eq_true, decide_eq_true_eq, decide_eq_true_eq] at hk
  rcases hk with hk | hk
  all_goals
    simp only [Cst.isShaped, hk, Bool.and_eq_true, decide_eq_true_eq] at hshape
    simp only [decisionsAt, followed, hk, List.map_append, total_append,
      filter_kind_members_eq_toList (by decide : Kind.block ≠ .lineContinuation) hshape.1]
    omega

theorem decisions_of_raiseStatement (hk : c.kind = .raiseStatement) :
    c.decisions = total ((c.parts.find? (·.field? != some .cause)).toList.map decisions)
      + total ((c.childrenAs .cause).map decisions) := by
  have hshape := h.isShaped
  have hplain := h.isUnbroken
  simp only [Cst.isShaped, hk, Bool.and_eq_true, decide_eq_true_eq] at hshape
  simp only [Cst.isUnbroken, hk] at hplain
  have hown := decisions_of_children (c := c) (n := 0) (by simp [decisionsAt, followed, hk])
  rw [hown, ← find?_members hplain, ← filter_eq_toList hshape.2, h.total_filter_members,
    h.total_classes [fun d => d.field? != some .cause, fun d => decide (d.field? = some .cause)]]
  · simp only [List.map_cons, List.map_nil, total_cons, total_nil, childrenAs]
    omega
  · intro d _
    by_cases hcause : d.field? = some .cause <;> simp [hcause]

/-- Of a node with one member that starts with it, only that one counts. -/
theorem total_of_one_member (hone : c.members.length ≤ 1) (hplain : c.startsPlainly fun _ => true) :
    c.members = c.parts.head?.toList ∧
      total (c.children.map decisions) = total (c.parts.head?.toList.map decisions) := by
  have hmembers : c.members = c.parts.head?.toList := by
    have hfilter : c.members.filter (fun _ => true) = c.members :=
      List.filter_eq_self.mpr fun _ _ => rfl
    have htrue : c.members.countP (fun _ => true) ≤ 1 := Nat.le_trans List.countP_le_length hone
    rw [← hfilter, filter_eq_toList htrue, find?_members hplain]
    cases c.parts <;> rfl
  rw [← h.total_members, hmembers]
  exact ⟨rfl, rfl⟩

theorem decisions_of_await (hk : c.kind = .await) :
    c.decisions = total (c.parts.head?.toList.map decisions) := by
  have hone := h.isShaped
  have hplain := h.isUnbroken
  simp only [Cst.isShaped, hk, decide_eq_true_eq] at hone
  simp only [Cst.isUnbroken, hk] at hplain
  rw [← (h.total_of_one_member hone hplain).2, decisions_eq]
  simp [decisionsAt, followed, hk]

/-! ### Sums of comprehensions -/

theorem decisions_of_ifClause (hk : c.kind = .ifClause) (hplain : c.startsPlainly fun _ => true) :
    ∃ d, c.parts.head? = some d ∧ c.decisions = d.decisions := by
  have hone := h.isShaped
  simp only [Cst.isShaped, hk, decide_eq_true_eq] at hone
  obtain ⟨hmembers, hsum⟩ := h.total_of_one_member (Nat.le_of_eq hone) hplain
  cases hfirst : c.parts.head? with
  | none => simp [hmembers, hfirst] at hone
  | some d =>
    refine ⟨d, rfl, ?_⟩
    rw [hfirst, Option.toList_some, List.map_singleton, total_singleton] at hsum
    rw [← hsum, decisions_eq]
    simp [decisionsAt, followed, hk]

theorem decisions_of_forInClause (hk : c.kind = .forInClause) :
    c.decisions = total ((c.childrenAs .left).map decisions)
      + total ((c.childrenAs .right).map decisions) := by
  have hshape := h.isShaped
  simp only [Cst.isShaped, hk, Bool.and_eq_true] at hshape
  have hsum := h.decisions_of_roles (n := 0) (by simp [decisionsAt, followed, hk]) (by decide)
    hshape.1
  simpa using hsum

/-- The first clause of a comprehension is over a source. -/
theorem comprehension_opens (hk : c.isComprehension) :
    (c.parts.find? isClause).all (·.kind = .forInClause) := by
  have hshape := h.isShaped
  simp only [isComprehension, Bool.or_eq_true, decide_eq_true_eq] at hk
  obtain ((hk | hk) | hk) | hk := hk
  all_goals
    simp only [Cst.isShaped, hk, Bool.and_eq_true] at hshape
    exact hshape.2

/-- No filter of a comprehension starts with a line continuation. -/
theorem startsPlainly_of_ifClause (hk : c.isComprehension) (hd : d ∈ c.children)
    (hif : d.kind = .ifClause) : d.startsPlainly fun _ => true := by
  have hplain := h.isUnbroken
  simp only [isComprehension, Bool.or_eq_true, decide_eq_true_eq] at hk
  obtain ((hk | hk) | hk) | hk := hk
  all_goals
    simp only [Cst.isUnbroken, hk] at hplain
    simpa [hif] using List.all_eq_true.mp hplain d hd

theorem atMostOne_body (hk : c.isComprehension) : c.atMostOne .body := by
  have hshape := h.isShaped
  simp only [isComprehension, Bool.or_eq_true, decide_eq_true_eq] at hk
  obtain ((hk | hk) | hk) | hk := hk
  all_goals
    simp only [Cst.isShaped, hk, Bool.and_eq_true] at hshape
    exact hshape.1.1

theorem decisions_of_comprehension (hk : c.isComprehension) :
    c.decisions = total ((c.childrenAs .body).map decisions)
      + total (c.parts.map fun d => if d.isClause then 1 + d.decisions else 0) := by
  have hshape := h.isShaped
  obtain ⟨hown, hmembers⟩ : c.decisions =
      c.children.countP isClause + total (c.children.map decisions) ∧
      c.members.all fun d => decide (d.field? = some .body) != d.isClause := by
    simp only [isComprehension, Bool.or_eq_true, decide_eq_true_eq] at hk
    rw [decisions_eq]
    obtain ((hk | hk) | hk) | hk := hk
    all_goals
      simp only [Cst.isShaped, hk, Bool.and_eq_true] at hshape
      simp only [decisionsAt, followed, hk, true_and]
      exact hshape.1.2
  have hclauses : total (c.parts.map fun d => if d.isClause then 1 + d.decisions else 0) =
      total (c.children.map fun d => if d.isClause then 1 + d.decisions else 0) :=
    total_map_filter fun d _ hd => by
      cases hkind : d.kind <;> simp_all [isClause, isNamed, isComment]
  rw [hown, hclauses, total_map_succ_of,
    h.total_classes [fun d => decide (d.field? = some .body), isClause]]
  · simp only [List.map_cons, List.map_nil, total_cons, total_nil, childrenAs]
    omega
  · intro d hd
    have hclass := List.all_eq_true.mp hmembers d hd
    cases hclause : d.isClause <;> simp_all

/-! ### Strings -/

/-- The fields' values hold the decisions of the string. -/
theorem total_fieldValues (source : Array Char)
    (hk : c.kind = .string ∨ c.kind = .concatenatedString) :
    total ((c.fieldValues source).map decisions) = c.decisions := by
  induction c using induction_on_children with
  | step c ih =>
    have hown : c.decisions = total (c.stringValues.map decisions) := by
      rw [decisions_eq]
      rcases hk with hk | hk <;> simp [decisionsAt, followed, hk]
    rw [hown, fieldValues_eq, stringValues, total_map_flatMap, total_map_flatMap, parts,
      total_map_filter]
    · congr 1
      refine List.map_congr_left fun d hd => ?_
      have hregular := h.of_mem_children hd
      split
      · rename_i hstring
        simpa [hstring] using ih d hd hregular (.inl hstring)
      · rename_i hfield
        have hshape := hregular.isShaped
        simp only [Cst.isShaped, hfield] at hshape
        simp only [childrenAs_eq_toList hshape, *]
      · simp only [*]
    · intro d _ hd
      split <;> simp_all [isNamed, isComment]

/-- The fields' values may be lowered on their own. -/
theorem isWhole_of_mem_fieldValues {source : Array Char} (hd : d ∈ c.fieldValues source) :
    d.IsWhole := by
  induction c using induction_on_children with
  | step c ih =>
    rw [fieldValues_eq] at hd
    obtain ⟨e, he, hd⟩ := List.mem_flatMap.mp hd
    have hmem := mem_children_of_mem_parts he
    have hregular := h.of_mem_children hmem
    split at hd
    · exact ih e hmem hregular hd
    · exact hregular.isWhole_of_child? (by decide) (Option.mem_toList.mp hd)
    · simp at hd

end Regular

end QualityGate.Python.Cst
