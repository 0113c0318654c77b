import QualityGate.Proofs.Cst.Shape

/-! Where the nodes of a tree stand. A node's place holds the places of its children, which follow
each other in the text, and so do the children that are read of a node one role after the other.
Then the lines of a node hold those of its children, and nodes that follow each other share at
most one line. -/
namespace QualityGate.Python

/-! ### Places in reading order -/

namespace Position

instance : LE Position := ⟨fun p q => p.row < q.row ∨ p.row = q.row ∧ p.column ≤ q.column⟩

theorem le_def {p q : Position} :
    p ≤ q ↔ p.row < q.row ∨ p.row = q.row ∧ p.column ≤ q.column := Iff.rfl

instance : DecidableLE Position := fun _ _ => inferInstanceAs (Decidable (_ ∨ _))

theorem le_refl (p : Position) : p ≤ p := .inr ⟨rfl, Nat.le_refl _⟩

theorem le_trans {p q r : Position} (hpq : p ≤ q) (hqr : q ≤ r) : p ≤ r := by
  rw [le_def] at *
  omega

theorem row_le {p q : Position} (h : p ≤ q) : p.row ≤ q.row := by
  rw [le_def] at h
  omega

/-- The last line that has a character in front of a place. -/
def lastLine (p : Position) : Nat := if p.column = 0 then p.row else p.row + 1

theorem lastLine_le (p : Position) : p.lastLine ≤ p.row + 1 := by
  unfold lastLine
  split <;> omega

theorem lastLine_mono {p q : Position} (h : p ≤ q) : p.lastLine ≤ q.lastLine := by
  rw [le_def] at h
  unfold lastLine
  split <;> split <;> omega

end Position

namespace Cst

/-- Whether nodes stand one behind the other. -/
def areInOrder (cs : List Cst) : Bool := cs.Pairwise fun c d => c.stop ≤ d.start

/-- The children that are read of a node one role after the other, in the grammar's order. -/
def reads (c : Cst) : List Cst :=
  match c.kind with
  | .ifStatement =>
    (c.child? .condition).toList ++ (c.child? .consequence).toList ++ c.childrenAs .alternative
  | .elifClause => (c.child? .condition).toList ++ (c.child? .consequence).toList
  | .forStatement =>
    (c.child? .left).toList ++ (c.child? .right).toList ++ (c.child? .body).toList
      ++ (c.child? .alternative).toList
  | .whileStatement =>
    (c.child? .condition).toList ++ (c.child? .body).toList ++ (c.child? .alternative).toList
  | .tryStatement =>
    (c.child? .body).toList ++ c.parts.filter isHandler
      ++ c.parts.filter (·.kind = .elseClause) ++ c.parts.filter (·.kind = .finallyClause)
  | .exceptClause | .exceptGroupClause =>
    (c.parts.find? (·.kind != .block)).toList ++ (c.part? .block).toList
  | .withStatement => (c.part? .withClause).toList ++ (c.child? .body).toList
  | .raiseStatement =>
    (c.parts.find? (·.field? != some .cause)).toList ++ (c.child? .cause).toList
  | .booleanOperator => (c.child? .left).toList ++ (c.child? .right).toList
  | .listComprehension | .setComprehension | .dictionaryComprehension | .generatorExpression =>
    (c.child? .body).toList ++ c.parts.filter isClause
  | .forInClause => (c.child? .left).toList ++ c.childrenAs .right
  | .pair => (c.child? .key).toList ++ (c.child? .value).toList
  | .call => (c.child? .function).toList ++ (c.child? .arguments).toList
  | _ => []

/-- Whether a node holds its children, one behind the other, and those that are read of it come
in the grammar's order; comments play no role. -/
def isPlaced (c : Cst) : Bool :=
  c.start ≤ c.stop && c.children.all (fun d => c.start ≤ d.start && d.stop ≤ c.stop)
    && areInOrder c.children && areInOrder c.reads
    && c.children.all fun d => !d.isComment || d.field?.isNone

theorem isPlaced_iff {c : Cst} : c.isPlaced ↔ c.start ≤ c.stop ∧
    (∀ d ∈ c.children, c.start ≤ d.start ∧ d.stop ≤ c.stop) ∧
    (c.children.Pairwise fun d e => d.stop ≤ e.start) ∧
    (c.reads.Pairwise fun d e => d.stop ≤ e.start) ∧
    ∀ d ∈ c.children, d.isComment → d.field? = none := by
  simp only [isPlaced, areInOrder, Bool.and_eq_true, List.all_eq_true, decide_eq_true_eq, and_assoc]
  simp [Decidable.imp_iff_not_or]

/-- Whether a node is no empty leaf at the beginning of a line. -/
def isSolid (c : Cst) : Bool :=
  !(c.children.isEmpty && c.start.row = c.stop.row && c.stop.column = 0)

/-- Whether all nodes of a tree are placed and none is an empty leaf at the beginning of a line. -/
def Settled (c : Cst) : Prop := ∀ d ∈ c.nodes, d.isPlaced ∧ d.isSolid

/-- What comes before the last one of nodes in order, or is it. -/
theorem eq_or_rel_of_getLast? {cs : List Cst} {R : Cst → Cst → Prop} (h : cs.Pairwise R)
    {c d : Cst} (hc : c ∈ cs) (hd : cs.getLast? = some d) : c = d ∨ R c d := by
  obtain ⟨before, rfl⟩ := List.getLast?_eq_some_iff.mp hd
  rcases List.mem_append.mp hc with hc | hc
  · exact .inr ((List.pairwise_append.mp h).2.2 c hc d List.mem_cons_self)
  · exact .inl (List.mem_singleton.mp hc)

namespace Settled

variable {c d : Cst} (h : c.Settled)
include h

theorem of_mem_nodes (hd : d ∈ c.nodes) : d.Settled :=
  fun e he => h e (nodes_subset_of_mem_nodes hd he)

theorem of_mem_children (hd : d ∈ c.children) : d.Settled :=
  h.of_mem_nodes (mem_nodes_of_mem_children hd)

theorem of_mem_parts (hd : d ∈ c.parts) : d.Settled :=
  h.of_mem_children (mem_children_of_mem_parts hd)

theorem of_child? {f : Field} (hd : c.child? f = some d) : d.Settled :=
  h.of_mem_children (mem_children_of_child? hd)

theorem start_le_stop : c.start ≤ c.stop := (isPlaced_iff.mp (h c c.mem_nodes_self).1).1

theorem holds (hd : d ∈ c.children) : c.start ≤ d.start ∧ d.stop ≤ c.stop :=
  (isPlaced_iff.mp (h c c.mem_nodes_self).1).2.1 d hd

theorem children_in_order : c.children.Pairwise fun d e => d.stop ≤ e.start :=
  (isPlaced_iff.mp (h c c.mem_nodes_self).1).2.2.1

theorem reads_in_order : c.reads.Pairwise fun d e => d.stop ≤ e.start :=
  (isPlaced_iff.mp (h c c.mem_nodes_self).1).2.2.2.1

theorem isComment_of_field? {f : Field} (hd : d ∈ c.children) (hf : d.field? = some f) :
    d.isComment = false := by
  by_contra hcomment
  have hnone := (isPlaced_iff.mp (h c c.mem_nodes_self).1).2.2.2.2 d hd (by simpa using hcomment)
  simp [hnone] at hf

/-- A node is not empty at the beginning of a line, as no leaf below it is. -/
theorem not_empty : ¬(c.start.row = c.stop.row ∧ c.stop.column = 0) := by
  induction c using induction_on_children with
  | step c ih =>
    rintro ⟨hrow, hcolumn⟩
    cases hchildren : c.children with
    | nil =>
      have hsolid := (h c c.mem_nodes_self).2
      simp [isSolid, hchildren, hrow, hcolumn] at hsolid
    | cons d ds =>
      have hd : d ∈ c.children := by simp [hchildren]
      obtain ⟨hstart, hstop⟩ := h.holds hd
      have hbetween := (h.of_mem_children hd).start_le_stop
      rw [Position.le_def] at hstart hstop hbetween
      exact ih d hd (h.of_mem_children hd) ⟨by omega, by omega⟩

/-! ### Lines -/

theorem contentEnd_le_stop : c.contentEnd ≤ c.stop := by
  induction c using induction_on_children with
  | step c ih =>
    rw [contentEnd_eq]
    cases hlast : (c.children.filter fun d => !d.isComment).getLast? with
    | none => exact Position.le_refl _
    | some d =>
      have hd := (List.mem_filter.mp (List.mem_of_getLast? hlast)).1
      exact Position.le_trans (ih d hd (h.of_mem_children hd)) (h.holds hd).2

theorem start_le_contentEnd : c.start ≤ c.contentEnd := by
  induction c using induction_on_children with
  | step c ih =>
    rw [contentEnd_eq]
    cases hlast : (c.children.filter fun d => !d.isComment).getLast? with
    | none => exact h.start_le_stop
    | some d =>
      have hd := (List.mem_filter.mp (List.mem_of_getLast? hlast)).1
      exact Position.le_trans (h.holds hd).1 (ih d hd (h.of_mem_children hd))

/-- A node whose content stops at the beginning of a line starts on a line before it. -/
theorem row_lt_of_column (hcolumn : c.contentEnd.column = 0) : c.start.row < c.contentEnd.row := by
  induction c using induction_on_children with
  | step c ih =>
    rw [contentEnd_eq] at hcolumn ⊢
    cases hlast : (c.children.filter fun d => !d.isComment).getLast? with
    | none =>
      rw [hlast] at hcolumn
      have hempty := h.not_empty
      have hrow := Position.row_le h.start_le_stop
      simp only [Option.map_none, Option.getD_none] at hcolumn ⊢
      omega
    | some d =>
      rw [hlast] at hcolumn
      have hd := (List.mem_filter.mp (List.mem_of_getLast? hlast)).1
      have hrow := Position.row_le (h.holds hd).1
      have hbelow := ih d hd (h.of_mem_children hd) hcolumn
      simp only [Option.map_some, Option.getD_some]
      omega

theorem contentEnd_mono (hd : d ∈ c.children) (hcontent : d.isComment = false) :
    d.contentEnd ≤ c.contentEnd := by
  have hmem : d ∈ c.children.filter fun d => !d.isComment :=
    List.mem_filter.mpr ⟨hd, by simp [hcontent]⟩
  rw [c.contentEnd_eq]
  cases hlast : (c.children.filter fun d => !d.isComment).getLast? with
  | none =>
    rw [List.getLast?_eq_none_iff.mp hlast] at hmem
    simp at hmem
  | some e =>
    have he := (List.mem_filter.mp (List.mem_of_getLast? hlast)).1
    have horder := h.children_in_order.filter fun d => !d.isComment
    rcases eq_or_rel_of_getLast? horder hmem hlast with rfl | hbefore
    · exact Position.le_refl _
    · exact Position.le_trans (h.of_mem_children hd).contentEnd_le_stop
        (Position.le_trans hbefore (h.of_mem_children he).start_le_contentEnd)

theorem span_last : c.span.last = c.contentEnd.lastLine := by
  have hcolumn := h.row_lt_of_column
  unfold span Position.lastLine
  by_cases hzero : c.contentEnd.column = 0
  · simp [hzero, hcolumn hzero]
  · simp [hzero]

theorem span_first_le_last : c.span.first ≤ c.span.last := by
  have hrow := Position.row_le h.start_le_contentEnd
  have hcolumn := h.row_lt_of_column
  have hfirst : c.span.first = c.start.row + 1 := rfl
  rw [h.span_last, hfirst, Position.lastLine]
  split <;> omega

theorem span_last_le : c.span.last ≤ c.stop.row + 1 := by
  rw [h.span_last]
  exact Nat.le_trans (Position.lastLine_mono h.contentEnd_le_stop) (Position.lastLine_le _)

/-- Of nodes that follow each other, the second one starts no earlier than the first one ends. -/
theorem span_last_le_first (hcd : c.stop ≤ d.start) : c.span.last ≤ d.span.first := by
  have hrow := Position.row_le hcd
  have hlast := h.span_last_le
  have hfirst : d.span.first = d.start.row + 1 := rfl
  omega

/-- A node's lines hold those of its children, comments apart. -/
theorem span_holds (hd : d ∈ c.children) (hcontent : d.isComment = false) :
    c.span.first ≤ d.span.first ∧ d.span.last ≤ c.span.last := by
  constructor
  · have hrow := Position.row_le (h.holds hd).1
    simp only [span]
    omega
  · rw [(h.of_mem_children hd).span_last, h.span_last]
    exact Position.lastLine_mono (h.contentEnd_mono hd hcontent)

end Settled

/-! ### Runs of lines -/

/-- Whether nodes have lines from a first to a last one, each no earlier than those before it. -/
structure Runs (first last : Nat) (cs : List Cst) : Prop where
  within : ∀ c ∈ cs, first ≤ c.span.first ∧ c.span.last ≤ last
  follows : cs.Pairwise fun c d => c.span.last ≤ d.span.first

namespace Runs

variable {first last : Nat} {cs ds : List Cst}

theorem sublist (h : Runs first last ds) (hsub : cs.Sublist ds) : Runs first last cs where
  within c hc := h.within c (hsub.subset hc)
  follows := h.follows.sublist hsub

theorem mono {first' last' : Nat} (h : Runs first last cs) (hfirst : first' ≤ first)
    (hlast : last ≤ last') : Runs first' last' cs where
  within c hc := by
    have := h.within c hc
    omega
  follows := h.follows

/-- Between two runs in a row there is a line where the first one ends and the second starts. -/
theorem exists_between (h : Runs first last (cs ++ ds)) :
    ∃ mid, Runs first mid cs ∧ Runs mid last ds := by
  obtain ⟨hcs, hds, hcross⟩ := List.pairwise_append.mp h.follows
  have hmid : ∃ mid, (∀ c ∈ cs, c.span.last ≤ mid) ∧ ∀ d ∈ ds, mid ≤ d.span.first := by
    clear h hcs
    induction cs with
    | nil => exact ⟨0, by simp, by simp⟩
    | cons c cs ih =>
      obtain ⟨mid, hcs, hds⟩ := ih fun c hc => hcross c (List.mem_cons_of_mem _ hc)
      refine ⟨max mid c.span.last, fun b hb => ?_, fun d hd => ?_⟩
      · rcases List.mem_cons.mp hb with rfl | hb
        · exact Nat.le_max_right _ _
        · exact Nat.le_trans (hcs b hb) (Nat.le_max_left _ _)
      · exact Nat.max_le.mpr ⟨hds d hd, hcross c List.mem_cons_self d hd⟩
  obtain ⟨mid, hlast, hfirst⟩ := hmid
  exact ⟨mid, ⟨fun c hc => ⟨(h.within c (List.mem_append_left _ hc)).1, hlast c hc⟩, hcs⟩,
    ⟨fun d hd => ⟨hfirst d hd, (h.within d (List.mem_append_right _ hd)).2⟩, hds⟩⟩

/-- What stands on the lines of the nodes of a run is a run. -/
theorem flatMap {g : Cst → List Cst} (h : Runs first last cs)
    (hg : ∀ c ∈ cs, Runs c.span.first c.span.last (g c)) : Runs first last (cs.flatMap g) where
  within d hd := by
    obtain ⟨c, hc, hd⟩ := List.mem_flatMap.mp hd
    have hcd := (hg c hc).within d hd
    have hown := h.within c hc
    omega
  follows := by
    rw [List.pairwise_flatMap]
    refine ⟨fun c hc => (hg c hc).follows, ?_⟩
    refine (List.Pairwise.and_mem.mp h.follows).imp fun {c d} ⟨hc, hd, hcd⟩ a ha b hb => ?_
    have hfirst := ((hg c hc).within a ha).2
    have hlast := ((hg d hd).within b hb).1
    omega

/-- The first node of a run gives way to what stands on its lines. -/
theorem replace_head {c : Cst} (h : Runs first last (c :: cs))
    (hds : Runs c.span.first c.span.last ds) : Runs first last (ds ++ cs) where
  within d hd := by
    rcases List.mem_append.mp hd with hd | hd
    · have hin := hds.within d hd
      have hown := h.within c List.mem_cons_self
      omega
    · exact h.within d (List.mem_cons_of_mem _ hd)
  follows := by
    obtain ⟨hc, hcs⟩ := List.pairwise_cons.mp h.follows
    refine List.pairwise_append.mpr ⟨hds.follows, hcs, fun d hd e he => ?_⟩
    exact Nat.le_trans (hds.within d hd).2 (hc e he)

end Runs

/-- Whether a node is a child of another one and no comment. -/
def IsContentOf (d c : Cst) : Prop := d ∈ c.children ∧ d.isComment = false

theorem isContentOf_of_mem_parts {c d : Cst} (hd : d ∈ c.parts) : d.IsContentOf c := by
  obtain ⟨hmem, hnamed⟩ := List.mem_filter.mp hd
  rw [Bool.and_eq_true] at hnamed
  exact ⟨hmem, by simpa using hnamed.2⟩

namespace Settled

variable {c d : Cst} (h : c.Settled)
include h

theorem isContentOf_of_mem_childrenAs {f : Field} (hd : d ∈ c.childrenAs f) : d.IsContentOf c := by
  obtain ⟨hmem, hrole⟩ := List.mem_filter.mp hd
  exact ⟨hmem, h.isComment_of_field? hmem (of_decide_eq_true hrole)⟩

theorem isContentOf_of_child? {f : Field} (hd : c.child? f = some d) : d.IsContentOf c :=
  ⟨mem_children_of_child? hd, h.isComment_of_field? (mem_children_of_child? hd) (field?_of_child? hd)⟩

theorem isContentOf_of_mem_reads (hd : d ∈ c.reads) : d.IsContentOf c := by
  have hrole : ∀ f, ∀ d ∈ (c.child? f).toList, d.IsContentOf c := fun f d hd =>
    h.isContentOf_of_child? (Option.mem_toList.mp hd)
  have hroles : ∀ f, ∀ d ∈ c.childrenAs f, d.IsContentOf c := fun f d hd =>
    h.isContentOf_of_mem_childrenAs hd
  have hfilter : ∀ p : Cst → Bool, ∀ d ∈ c.parts.filter p, d.IsContentOf c := fun p d hd =>
    isContentOf_of_mem_parts (List.mem_filter.mp hd).1
  have hfind : ∀ p : Cst → Bool, ∀ d ∈ (c.parts.find? p).toList, d.IsContentOf c := fun p d hd =>
    isContentOf_of_mem_parts (List.mem_of_find?_eq_some (Option.mem_toList.mp hd))
  have happend : ∀ {cs ds : List Cst}, (∀ d ∈ cs, d.IsContentOf c) → (∀ d ∈ ds, d.IsContentOf c) →
      ∀ d ∈ cs ++ ds, d.IsContentOf c := fun hcs hds d hd =>
    (List.mem_append.mp hd).elim (hcs d) (hds d)
  suffices ∀ d ∈ c.reads, d.IsContentOf c from this d hd
  unfold reads
  split
  · exact happend (happend (hrole _) (hrole _)) (hroles _)
  · exact happend (hrole _) (hrole _)
  · exact happend (happend (happend (hrole _) (hrole _)) (hrole _)) (hrole _)
  · exact happend (happend (hrole _) (hrole _)) (hrole _)
  · exact happend (happend (happend (hrole _) (hfilter _)) (hfilter _)) (hfilter _)
  · exact happend (hfind _) (hfind _)
  · exact happend (hfind _) (hfind _)
  · exact happend (hfind _) (hrole _)
  · exact happend (hfind _) (hrole _)
  · exact happend (hrole _) (hrole _)
  · exact happend (hrole _) (hfilter _)
  · exact happend (hrole _) (hfilter _)
  · exact happend (hrole _) (hfilter _)
  · exact happend (hrole _) (hfilter _)
  · exact happend (hrole _) (hroles _)
  · exact happend (hrole _) (hrole _)
  · exact happend (hrole _) (hrole _)
  · simp

/-- Children in order are a run on the lines of their parent, comments apart. -/
theorem runs {cs : List Cst} (hcs : ∀ d ∈ cs, d.IsContentOf c)
    (horder : cs.Pairwise fun d e => d.stop ≤ e.start) : Runs c.span.first c.span.last cs where
  within d hd := h.span_holds (hcs d hd).1 (hcs d hd).2
  follows := (List.Pairwise.and_mem.mp horder).imp fun ⟨hd, _, hde⟩ =>
    (h.of_mem_children (hcs _ hd).1).span_last_le_first hde

theorem runs_parts : Runs c.span.first c.span.last c.parts :=
  h.runs (fun _ hd => isContentOf_of_mem_parts hd) (h.children_in_order.sublist List.filter_sublist)

theorem runs_reads : Runs c.span.first c.span.last c.reads :=
  h.runs (fun _ hd => h.isContentOf_of_mem_reads hd) h.reads_in_order

/-- One child, if it is there, is a run. -/
theorem runs_toList {o : Option Cst} (ho : ∀ d ∈ o, d.IsContentOf c) :
    Runs c.span.first c.span.last o.toList := by
  cases o with
  | none => exact h.runs (by simp) (by simp)
  | some d => exact h.runs (by simpa using ho) (by simp)

theorem runs_child? (f : Field) : Runs c.span.first c.span.last (c.child? f).toList :=
  h.runs_toList fun _ hd => h.isContentOf_of_child? hd

theorem runs_part? (k : Kind) : Runs c.span.first c.span.last (c.part? k).toList :=
  h.runs_toList fun _ hd => isContentOf_of_mem_parts (List.mem_of_find?_eq_some hd)

theorem runs_head? : Runs c.span.first c.span.last c.parts.head?.toList :=
  h.runs_toList fun _ hd => isContentOf_of_mem_parts (List.mem_of_head? hd)

/-- The operands of a chain of conditions stand on its lines. -/
theorem runs_operands (op : BoolOperator) : Runs c.span.first c.span.last (c.operands op) := by
  induction c using induction_on_children with
  | step c ih =>
    rw [operands_eq]
    split
    · rename_i hk
      have hreads : c.reads = (c.child? .left).toList ++ (c.child? .right).toList := by
        simp only [reads, hk.1]
      rw [← List.flatMap_append, ← hreads]
      refine h.runs_reads.flatMap fun d hd => ?_
      have hmem := (h.isContentOf_of_mem_reads hd).1
      exact ih d hmem (h.of_mem_children hmem)
    · exact ⟨by simp, by simp⟩

/-- The fields' values of a string stand on its lines. -/
theorem runs_fieldValues (source : Array Char) :
    Runs c.span.first c.span.last (c.fieldValues source) := by
  induction c using induction_on_children with
  | step c ih =>
    rw [fieldValues_eq]
    refine h.runs_parts.flatMap fun d hd => ?_
    have hsettled := h.of_mem_parts hd
    split
    · exact ih d (mem_children_of_mem_parts hd) hsettled
    · exact hsettled.runs_child? _
    · exact ⟨by simp, by simp⟩

end Settled

end Cst

end QualityGate.Python
