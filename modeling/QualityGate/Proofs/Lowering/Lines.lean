import QualityGate.Proofs.Cst.Placement
import QualityGate.Proofs.Lowering.Children
import QualityGate.Proofs.Rule.Lines
import QualityGate.Python.Grammar.Module

/-! The lines of lowered trees. What is read of a node in turn stands in the text in that order,
so the nodes that it becomes fill the lines of the node. An `elif` reaches as far as the clauses
behind it, and a placeholder stands on all lines of the node that it is a child of. -/
namespace QualityGate.Python

/-- The nodes whose lines a subtree stands on. -/
def Subtree.places : Subtree → List Cst
  | .whole c => [c]
  | .elifChain clause rest => clause :: rest

/-- Whether the nodes of a subtree are settled. -/
def Subtree.Settled : Subtree → Prop
  | .whole c => c.Settled
  | .elifChain clause rest =>
    clause.Settled ∧ clause.kind = .elifClause ∧ ∀ d ∈ rest, d.Settled

namespace Lowering

/-- Whether nodes fill all lines that places are a run on. -/
def Occupy (cs : List Cst) (ns : List Node) : Prop :=
  ∀ first last, Cst.Runs first last cs → Node.Fills first last ns

namespace Occupy

variable {cs ds : List Cst} {ns ms : List Node} {c : Cst} {n : Node}

theorem nil : Occupy cs [] := fun _ _ _ => .nil

theorem append (hns : Occupy cs ns) (hms : Occupy ds ms) : Occupy (cs ++ ds) (ns ++ ms) := by
  intro first last h
  obtain ⟨mid, hcs, hds⟩ := h.exists_between
  refine (hns first last (h.sublist (List.sublist_append_left cs ds))).append
    (hms first last (h.sublist (List.sublist_append_right cs ds))) fun n hn m hm => ?_
  have hlast := ((hns first mid hcs).within n hn).2
  have hfirst := ((hms mid last hds).within m hm).1
  omega

theorem sublist (h : Occupy cs ns) (hsub : cs.Sublist ds) : Occupy ds ns :=
  fun first last hds => h first last (hds.sublist hsub)

/-- Places inside a node are part of its place. -/
theorem inside (h : Occupy ds ns) (hds : Cst.Runs c.span.first c.span.last ds) :
    Occupy [c] ns := by
  intro first last hc
  obtain ⟨hfirst, hlast⟩ := hc.within c List.mem_cons_self
  exact h first last (hds.mono hfirst hlast)

/-- A node on the lines of a place, which its children fill. -/
theorem singleton (hc : c.Settled) (hspan : n.span = c.span)
    (hchildren : Node.Fills c.span.first c.span.last n.children) : Occupy [c] [n] := by
  intro first last h
  obtain ⟨hfirst, hlast⟩ := h.within c List.mem_cons_self
  exact .singleton (by rw [hspan]; exact hc.span_first_le_last) (by rwa [hspan])
    (by rwa [hspan]) (by rwa [hspan])

theorem childless (hc : c.Settled) (hspan : n.span = c.span) (hn : n.children = []) :
    Occupy [c] [n] :=
  singleton hc hspan (by rw [hn]; exact .nil)

/-- What stands for a child that may be missing, in front of other nodes. -/
theorem fills_cons {o : Option Cst} {place : Cst} {first last : Nat}
    (hn : Occupy o.toList [n] ∨ n = placeholder place) (hms : Occupy ds ms)
    (hruns : Cst.Runs first last (o.toList ++ ds)) (hplace : place.Settled)
    (hfirst : place.span.first = first) (hlast : place.span.last ≤ last) :
    Node.Fills first last (n :: ms) := by
  rcases hn with hn | rfl
  · exact hn.append hms first last hruns
  · have hms := hms first last (hruns.sublist (List.sublist_append_right _ _))
    exact hms.cons_childless rfl hplace.span_first_le_last hfirst hlast

end Occupy

/-- Whether a node has given lines and its children fill them. -/
structure StandsOn (lines : Span) (n : Node) : Prop where
  span : n.span = lines
  children : Node.Fills lines.first lines.last n.children

theorem StandsOn.occupy {c : Cst} {n : Node} (hc : c.Settled) (h : StandsOn c.span n) :
    Occupy [c] [n] :=
  .singleton hc h.span h.children

/-- The lines of an `elif`, from its own first one to the last one of the clauses behind it. -/
def chainLines (clause : Cst) (rest : List Cst) : Span :=
  ⟨clause.span.first, ((rest.getLast?).getD clause).span.last⟩

/-- The clauses of an `elif` in a run are a run on its own lines. -/
theorem runs_chainLines {clause : Cst} {rest : List Cst} {first last : Nat}
    (hclause : clause.Settled) (hrest : ∀ d ∈ rest, d.Settled)
    (h : Cst.Runs first last (clause :: rest)) :
    Cst.Runs (chainLines clause rest).first (chainLines clause rest).last (clause :: rest) ∧
      (chainLines clause rest).last ≤ last := by
  have hsettled : ∀ d ∈ clause :: rest, d.Settled := List.forall_mem_cons.mpr ⟨hclause, hrest⟩
  have hlast : (clause :: rest).getLast? = some ((rest.getLast?).getD clause) := by
    rw [List.getLast?_cons]
  have hclauses := List.pairwise_cons.mp h.follows
  refine ⟨⟨fun d hd => ⟨?_, ?_⟩, h.follows⟩, (h.within _ (List.mem_of_getLast? hlast)).2⟩
  · show clause.span.first ≤ d.span.first
    rcases List.mem_cons.mp hd with rfl | hd
    · exact Nat.le_refl _
    · exact Nat.le_trans hclause.span_first_le_last (hclauses.1 d hd)
  · show d.span.last ≤ ((rest.getLast?).getD clause).span.last
    rcases Cst.eq_or_rel_of_getLast? h.follows hd hlast with rfl | hbefore
    · exact Nat.le_refl _
    · exact Nat.le_trans hbefore
        (hsettled _ (List.mem_of_getLast? hlast)).span_first_le_last

section Levels

variable {source : Array Char} {f : Subtree → Option Node}
  (hf : ∀ s : Subtree, s.Settled → Yields (f s) fun n => Occupy s.places [n])
include hf

/-! ### Parts of a level -/

omit hf in
theorem yields_mapM_occupy {g : Cst → Option Node} (cs : List Cst)
    (hg : ∀ c ∈ cs, Yields (g c) fun n => Occupy [c] [n]) : Yields (cs.mapM g) (Occupy cs) := by
  induction cs with
  | nil => exact .pure .nil
  | cons c cs ih =>
    rw [List.mapM_cons]
    exact (hg c List.mem_cons_self).bind fun n hn =>
      (ih fun d hd => hg d (List.mem_cons_of_mem _ hd)).bind fun ns hns => .pure (hn.append hns)

theorem yields_all_occupy (cs : List Cst) (hcs : ∀ c ∈ cs, c.Settled) :
    Yields (all f cs) (Occupy cs) :=
  yields_mapM_occupy cs fun c hc => hf (.whole c) (hcs c hc)

/-- Nodes in the places of what they are reached from. -/
theorem yields_all_inside (cs : List Cst) (g : Cst → Cst) (hg : ∀ c ∈ cs, (g c).Settled ∧
    Cst.Runs c.span.first c.span.last [g c]) : Yields (all f (cs.map g)) (Occupy cs) := by
  rw [all, List.mapM_map]
  refine yields_mapM_occupy cs fun c hc => ?_
  obtain ⟨hsettled, hinside⟩ := hg c hc
  exact (hf (.whole (g c)) hsettled).mono fun n hn => hn.inside hinside

theorem yields_parts_occupy {c : Cst} (hc : c.Settled) : Yields (all f c.parts) (Occupy [c]) :=
  (yields_all_occupy hf _ fun _ hd => hc.of_mem_parts hd).mono fun _ hns => hns.inside hc.runs_parts

theorem yields_child_occupy {c : Cst} (hc : c.Settled) (field : Field) :
    Yields (child f c field) (Occupy (c.child? field).toList) :=
  yields_all_occupy hf _ fun _ hd => hc.of_child? (Option.mem_toList.mp hd)

theorem yields_block_occupy {o : Option Cst} (ho : ∀ c ∈ o, c.Settled) :
    Yields (block f o) (Occupy o.toList) := by
  cases o with
  | none => exact .pure .nil
  | some c => exact yields_parts_occupy hf (ho c rfl)

theorem yields_blockAs_occupy {c : Cst} (hc : c.Settled) (field : Field) :
    Yields (block f (c.child? field)) (Occupy (c.child? field).toList) :=
  yields_block_occupy hf fun _ hd => hc.of_child? hd

theorem yields_blockIn_occupy {c : Cst} (hc : c.Settled) :
    Yields (block f (c.part? .block)) (Occupy (c.part? .block).toList) :=
  yields_block_occupy hf fun _ hd => hc.of_mem_children (Cst.mem_children_of_part? hd)

theorem yields_otherwise_occupy {o : Option Cst} (ho : ∀ c ∈ o, c.Settled) :
    Yields (otherwise f o) (Occupy o.toList) := by
  cases o with
  | none => exact .pure .nil
  | some c =>
    have hc := ho c rfl
    have hblock : ∀ d ∈ (c.child? .body).or (c.part? .block), d.IsContentOf c := by
      intro d hd
      rcases Option.or_eq_some_iff.mp hd with hbody | ⟨-, hpart⟩
      · exact hc.isContentOf_of_child? hbody
      · exact Cst.isContentOf_of_mem_parts (List.mem_of_find?_eq_some hpart)
    exact (yields_block_occupy hf fun d hd => hc.of_mem_children (hblock d hd).1).mono
      fun ns hns => hns.inside (hc.runs_toList hblock)

theorem yields_alternatives_occupy {cs : List Cst} (hcs : ∀ c ∈ cs, c.Settled) :
    Yields (alternatives f cs) (Occupy cs) := by
  cases cs with
  | nil => exact .pure .nil
  | cons c rest =>
    obtain ⟨hc, hrest⟩ := List.forall_mem_cons.mp hcs
    rw [alternatives]
    split
    · exact (hf (.elifChain c rest) ⟨hc, ‹_›, hrest⟩).bind fun n hn => .pure hn
    · have hfirst : [c].Sublist (c :: rest) := (List.nil_sublist rest).cons_cons c
      exact (yields_otherwise_occupy hf (o := some c) (by simpa using hc)).mono
        fun ns hns => hns.sublist hfirst

theorem yields_childOr_occupy {c : Cst} (hc : c.Settled) (place : Cst) (field : Field) :
    Yields (childOr f c place field) fun n =>
      Occupy (c.child? field).toList [n] ∨ n = placeholder place := by
  unfold childOr
  split
  · rename_i d hd
    rw [hd]
    exact (hf (.whole d) (hc.of_child? hd)).mono fun n hn => .inl hn
  · exact .pure (.inr rfl)

/-! ### Statements -/

theorem yields_branch_standsOn {c : Cst} {rest : List Cst} {lines : Span} (isElif : Bool)
    (hc : c.Settled) (hrest : ∀ d ∈ rest, d.Settled)
    (hruns : Cst.Runs lines.first lines.last
      ((c.child? .condition).toList ++ (c.child? .consequence).toList ++ rest))
    (hfirst : c.span.first = lines.first) (hlast : c.span.last ≤ lines.last) :
    Yields (branch f lines isElif c rest) (StandsOn lines) := by
  refine (yields_childOr_occupy hf hc c .condition).bind fun test htest =>
    (yields_blockAs_occupy hf hc .consequence).bind fun body hbody =>
      (yields_alternatives_occupy hf hrest).bind fun orelse horelse => .pure ⟨rfl, ?_⟩
  rw [List.append_assoc] at hruns
  exact Occupy.fills_cons htest (hbody.append horelse) hruns hc hfirst hlast

theorem yields_header_occupy {c : Cst} (hc : c.Settled) (header : List Field) :
    Yields (header.mapM (child f c)) fun nss =>
      Occupy (header.flatMap fun field => (c.child? field).toList) nss.flatten := by
  induction header with
  | nil => exact .pure .nil
  | cons field header ih =>
    rw [List.mapM_cons]
    exact (yields_child_occupy hf hc field).bind fun ns hns => ih.bind fun nss hnss =>
      .pure (hns.append hnss)

theorem yields_loop_standsOn {c : Cst} (hc : c.Settled) (form : LoopForm) {header : List Field}
    (hreads : c.reads = header.flatMap (fun field => (c.child? field).toList)
      ++ (c.child? .body).toList ++ (c.child? .alternative).toList) :
    Yields (loop f c form header) (StandsOn c.span) :=
  (yields_header_occupy hf hc header).bind fun _ hheaders =>
    (yields_blockAs_occupy hf hc .body).bind fun _ hbody =>
      (yields_otherwise_occupy hf fun _ hd => hc.of_child? hd).bind fun _ horelse =>
        .pure ⟨rfl, (hheaders.append hbody).append horelse _ _ (hreads ▸ hc.runs_reads)⟩

omit hf in
/-- Of the statements of several clauses, the last ones are kept. -/
theorem yields_last_occupy {g : Cst → Option (List Node)} (cs : List Cst)
    (hg : ∀ c ∈ cs, Yields (g c) (Occupy [c])) :
    Yields (cs.mapM g) fun nss => Occupy cs (nss.getLast?.getD []) := by
  induction cs with
  | nil => exact .pure .nil
  | cons c cs ih =>
    rw [List.mapM_cons]
    refine (hg c List.mem_cons_self).bind fun ns hns =>
      (ih fun d hd => hg d (List.mem_cons_of_mem _ hd)).bind fun nss hnss => .pure ?_
    cases nss with
    | nil => exact hns.sublist ((List.nil_sublist cs).cons_cons c)
    | cons ms nss =>
      rw [List.getLast?_cons_cons]
      exact hnss.sublist (List.sublist_cons_self c cs)

theorem yields_tryExcept_standsOn {c : Cst} (hc : c.Settled) (hk : c.kind = .tryStatement) :
    Yields (tryExcept f c) (StandsOn c.span) := by
  have hparts : ∀ p : Cst → Bool, ∀ d ∈ c.parts.filter p, d.Settled := fun p d hd =>
    hc.of_mem_parts (List.mem_filter.mp hd).1
  have hreads : c.reads = (c.child? .body).toList ++ c.parts.filter Cst.isHandler
      ++ c.parts.filter (·.kind = .elseClause) ++ c.parts.filter (·.kind = .finallyClause) := by
    simp only [Cst.reads, hk]
  have hothers : ∀ d ∈ c.parts.filter (·.kind = .elseClause),
      Yields (otherwise f (some d)) (Occupy [d]) := fun d hd =>
    yields_otherwise_occupy hf (o := some d) (by simpa using hparts _ d hd)
  have hfinals : ∀ d ∈ c.parts.filter (·.kind = .finallyClause),
      Yields (block f (d.part? .block)) (Occupy [d]) := by
    intro d hd
    have hd := hparts _ d hd
    exact (yields_blockIn_occupy hf hd).mono fun ns hns => hns.inside (hd.runs_part? _)
  refine (yields_blockAs_occupy hf hc .body).bind fun body hbody =>
    (yields_all_occupy hf _ (hparts Cst.isHandler)).bind fun handlers hhandlers =>
      (yields_last_occupy _ hothers).bind fun others hothers =>
        (yields_last_occupy _ hfinals).bind fun finals hfinals => .pure ⟨rfl, ?_⟩
  exact ((hbody.append hhandlers).append hothers).append hfinals _ _ (hreads ▸ hc.runs_reads)

/-- The first of the nodes that one child may become. -/
theorem yields_first_occupy {o : Option Cst} (ho : ∀ c ∈ o, c.Settled) :
    Yields (all f o.toList) fun ns => Occupy o.toList ns.head?.toList := by
  cases o with
  | none => exact .pure .nil
  | some c =>
    rw [Option.toList_some, all, List.mapM_cons]
    exact (hf (.whole c) (ho c rfl)).bind fun n hn => .pure hn

theorem yields_caught_occupy {cs : List Cst} (hcs : ∀ c ∈ cs, c.Settled) :
    Yields (caught source f cs) fun p => Occupy cs.head?.toList p.1.toList := by
  cases cs with
  | nil => exact .pure .nil
  | cons p rest =>
    have hp := hcs p List.mem_cons_self
    rw [caught]
    split
    · exact (yields_first_occupy hf fun d hd => hp.of_mem_parts (List.mem_of_head? hd)).bind
        fun types htypes => .pure (htypes.inside hp.runs_head?)
    · exact (hf (.whole p) hp).bind fun type htype => .pure htype

theorem yields_handler_standsOn {c : Cst} (hc : c.Settled) (hk : c.isHandler) :
    Yields (handler source f c) (StandsOn c.span) := by
  have hreads : c.reads = (c.parts.filter (·.kind != .block)).head?.toList ++
      (c.part? .block).toList := by
    rw [Cst.isHandler, Bool.or_eq_true, decide_eq_true_eq, decide_eq_true_eq] at hk
    rcases hk with hk | hk <;> simp only [Cst.reads, hk, List.head?_filter]
  exact (yields_caught_occupy hf fun d hd => hc.of_mem_parts (List.mem_filter.mp hd).1).bind
    fun _ htype => (yields_blockIn_occupy hf hc).bind fun _ hbody =>
      .pure ⟨rfl, htype.append hbody _ _ (hreads ▸ hc.runs_reads)⟩

theorem yields_withBlock_standsOn {c : Cst} (hc : c.Settled) (hk : c.kind = .withStatement) :
    Yields (withBlock f c) (StandsOn c.span) := by
  have hreads : c.reads = (c.part? .withClause).toList ++ (c.child? .body).toList := by
    simp only [Cst.reads, hk]
  have hvalue : ∀ item : Cst, item.Settled → ((item.child? .value).getD item).Settled ∧
      Cst.Runs item.span.first item.span.last [(item.child? .value).getD item] := by
    intro item hitem
    cases hd : item.child? .value with
    | none =>
      rw [Option.getD_none]
      exact ⟨hitem, ⟨by simp, by simp⟩⟩
    | some d =>
      have hruns := hitem.runs_child? .value
      rw [hd] at hruns
      exact ⟨hitem.of_child? hd, hruns⟩
  have hitems : Yields (all f ((((c.part? .withClause).map Cst.parts).getD []).map fun item =>
      (item.child? .value).getD item)) (Occupy (c.part? .withClause).toList) := by
    cases hclause : c.part? .withClause with
    | none => exact .pure .nil
    | some clause =>
      have hclause := hc.of_mem_children (Cst.mem_children_of_part? hclause)
      exact (yields_all_inside hf clause.parts _ fun item hitem =>
        hvalue item (hclause.of_mem_parts hitem)).mono fun ns hns => hns.inside hclause.runs_parts
  exact hitems.bind fun _ hitems => (yields_blockAs_occupy hf hc .body).bind fun _ hbody =>
    .pure ⟨rfl, hitems.append hbody _ _ (hreads ▸ hc.runs_reads)⟩

theorem yields_raise_standsOn {c : Cst} (hc : c.Settled) (hk : c.kind = .raiseStatement) :
    Yields (raise f c) (StandsOn c.span) := by
  have hreads : c.reads = (c.parts.find? (·.field? != some .cause)).toList ++
      (c.child? .cause).toList := by
    simp only [Cst.reads, hk]
  exact (yields_first_occupy hf fun d hd => hc.of_mem_parts (List.mem_of_find?_eq_some hd)).bind
    fun raised hraised => (yields_first_occupy hf fun d hd => hc.of_child? hd).bind
      fun cause hcause => .pure ⟨rfl, hraised.append hcause _ _ (hreads ▸ hc.runs_reads)⟩

/-! ### Expressions -/

theorem yields_collected_occupy {c : Cst} (hc : c.Settled) :
    Yields (collected f c) (Occupy (c.child? .body).toList) := by
  unfold collected
  cases hd : c.child? .body with
  | none => exact .pure .nil
  | some d =>
    have hd := hc.of_child? hd
    dsimp only
    split
    · rename_i hk
      have hreads : d.reads = (d.child? .key).toList ++ (d.child? .value).toList := by
        simp only [Cst.reads, hk]
      exact (yields_child_occupy hf hd .key).bind fun _ hkey =>
        (yields_child_occupy hf hd .value).bind fun _ hvalue =>
          .pure ((hkey.append hvalue).inside (hreads ▸ hd.runs_reads))
    · exact yields_all_occupy hf [d] (by simpa using hd)

/-- One more clause puts its nodes behind those of the clauses before it. -/
theorem yields_addClause_occupy {c : Cst} {cs : List Cst} {gs : List (Generator Node)}
    (hc : c.Settled) (hgs : Occupy cs (Node.clauseNodes gs.reverse)) :
    Yields (addClause f gs c) fun gs' =>
      Occupy (cs ++ [c].filter Cst.isClause) (Node.clauseNodes gs'.reverse) := by
  unfold addClause
  split
  · rename_i hk
    have hclause : [c].filter Cst.isClause = [c] := by simp [Cst.isClause, hk]
    have hreads : c.reads = (c.child? .left).toList ++ c.childrenAs .right := by
      simp only [Cst.reads, hk]
    refine (yields_child_occupy hf hc .left).bind fun targets htargets =>
      (yields_all_occupy hf (c.childrenAs .right) fun d hd =>
        hc.of_mem_children (List.mem_filter.mp hd).1).bind fun sources hsources => .pure ?_
    have hown := (htargets.append hsources).inside (hreads ▸ hc.runs_reads)
    rw [hclause, List.reverse_cons, Node.clauseNodes_append]
    simpa [Node.clauseNodes] using hgs.append hown
  · rename_i g gs hk
    have hclause : [c].filter Cst.isClause = [c] := by simp [Cst.isClause, hk]
    refine (yields_all_occupy hf c.parts.head?.toList fun d hd =>
      hc.of_mem_parts (List.mem_of_head? (Option.mem_toList.mp hd))).bind fun tests htests =>
        .pure ?_
    rw [List.reverse_cons, Node.clauseNodes_append] at hgs ⊢
    rw [hclause]
    simpa [Node.clauseNodes] using hgs.append (htests.inside hc.runs_head?)
  · exact .pure (hgs.sublist (List.sublist_append_left _ _))

theorem yields_clauses_occupy {cs ds : List Cst} {gs : List (Generator Node)}
    (hds : ∀ d ∈ ds, d.Settled) (hgs : Occupy cs (Node.clauseNodes gs.reverse)) :
    Yields (ds.foldlM (addClause f) gs) fun gs' =>
      Occupy (cs ++ ds.filter Cst.isClause) (Node.clauseNodes gs'.reverse) := by
  induction ds generalizing cs gs with
  | nil => exact .pure (by simpa using hgs)
  | cons d ds ih =>
    rw [List.foldlM_cons]
    refine (yields_addClause_occupy hf (hds d List.mem_cons_self) hgs).bind fun gs' hgs' =>
      (ih (fun e he => hds e (List.mem_cons_of_mem _ he)) hgs').mono fun gs'' hgs'' => ?_
    rwa [List.append_assoc, ← List.filter_append] at hgs''

theorem yields_comprehension_standsOn {c : Cst} (hc : c.Settled) (hk : c.isComprehension) :
    Yields (comprehension f c) (StandsOn c.span) := by
  have hreads : c.reads = (c.child? .body).toList ++ c.parts.filter Cst.isClause := by
    simp only [Cst.isComprehension, Bool.or_eq_true, decide_eq_true_eq] at hk
    obtain ((hk | hk) | hk) | hk := hk <;> simp only [Cst.reads, hk]
  have hnone : Occupy [] (Node.clauseNodes [].reverse) := .nil
  exact (yields_collected_occupy hf hc).bind fun _ helement =>
    (yields_clauses_occupy hf (fun d hd => hc.of_mem_parts hd) hnone).bind
      fun _ hclauses => .pure ⟨rfl, helement.append hclauses _ _ (hreads ▸ hc.runs_reads)⟩

theorem yields_argument_occupy {c : Cst} (hc : c.Settled) :
    Yields (argument f c) fun n => Occupy [c] [n] := by
  unfold argument
  split
  · refine (yields_childOr_occupy hf hc c .value).mono fun n hn => ?_
    rcases hn with hn | rfl
    · exact hn.inside (hc.runs_child? .value)
    · exact .childless hc rfl rfl
  · exact hf (.whole c) hc

theorem yields_arguments_occupy {o : Option Cst} (ho : ∀ c ∈ o, c.Settled) :
    Yields (arguments f o) (Occupy o.toList) := by
  cases o with
  | none => exact .pure .nil
  | some c =>
    have hc := ho c rfl
    rw [arguments]
    split
    · exact (yields_mapM_occupy c.parts fun d hd => yields_argument_occupy hf
        (hc.of_mem_parts hd)).mono fun ns hns => hns.inside hc.runs_parts
    · exact yields_all_occupy hf [c] (by simpa using hc)

theorem yields_call_standsOn {c : Cst} (hc : c.Settled) (hk : c.kind = .call) :
    Yields (call source f c) (StandsOn c.span) := by
  have hreads : c.reads = (c.child? .function).toList ++ (c.child? .arguments).toList := by
    simp only [Cst.reads, hk]
  exact (yields_arguments_occupy hf fun d hd => hc.of_child? hd).bind fun _ harguments =>
    (yields_childOr_occupy hf hc c .function).bind fun _ hfunc =>
      .pure ⟨rfl, Occupy.fills_cons hfunc harguments (hreads ▸ hc.runs_reads) hc rfl (Nat.le_refl _)⟩

theorem yields_string_standsOn {c : Cst} (hc : c.Settled) :
    Yields (string source f c) (StandsOn c.span) := by
  unfold string
  dsimp only
  split
  · exact (yields_all_occupy hf (c.fieldValues source) fun d hd =>
      hc.of_mem_nodes (Cst.mem_nodes_of_mem_fieldValues hd)).bind fun _ hfields =>
        .pure ⟨rfl, hfields _ _ (hc.runs_fieldValues source)⟩
  · split <;> exact .pure ⟨rfl, .nil⟩

omit hf in
/-- A node around parts that stand on its lines. -/
theorem yields_around_standsOn {c : Cst} {x : Option (List Node)} {cs : List Cst}
    {make : List Node → Node} (hx : Yields x (Occupy cs))
    (hcs : Cst.Runs c.span.first c.span.last cs)
    (hmake : ∀ ns, (make ns).span = c.span ∧ (make ns).children = ns) :
    Yields (do return make (← x)) (StandsOn c.span) :=
  hx.bind fun ns hns => .pure ⟨(hmake ns).1, by rw [(hmake ns).2]; exact hns _ _ hcs⟩

theorem yields_other_standsOn {c : Cst} (hc : c.Settled) :
    Yields (other f c) (StandsOn c.span) :=
  yields_around_standsOn (yields_all_occupy hf _ fun _ hd => hc.of_mem_parts hd) hc.runs_parts
    fun _ => ⟨rfl, rfl⟩

/-- The only expression in parentheses or in a statement stands for them. -/
theorem yields_only_occupy {c : Cst} (hc : c.Settled) :
    Yields (match c.parts with
      | [only] => f (.whole only)
      | _ => other f c) fun n => Occupy [c] [n] := by
  have hother : Yields (other f c) fun n => Occupy [c] [n] :=
    (yields_other_standsOn hf hc).mono fun n hn => hn.occupy hc
  match hparts : c.parts with
  | [] => exact hother
  | [d] =>
    have hruns := hparts ▸ hc.runs_parts
    exact (hf (.whole d) (hc.of_mem_parts (by simp [hparts]))).mono fun n hn => hn.inside hruns
  | _ :: _ :: _ => exact hother

theorem yields_await_standsOn {c : Cst} (hc : c.Settled) :
    Yields (match c.parts with
      | value :: _ => do return .await c.span (← f (.whole value))
      | [] => return placeholder c) (StandsOn c.span) := by
  match hparts : c.parts with
  | [] => exact .pure ⟨rfl, .nil⟩
  | value :: rest =>
    have hruns : Cst.Runs c.span.first c.span.last [value] := by
      simpa [hparts] using hc.runs_head?
    exact (hf (.whole value) (hc.of_mem_parts (by simp [hparts]))).bind fun n hn =>
      .pure ⟨rfl, hn _ _ hruns⟩

/-! ### Whole levels -/

theorem yields_whole_occupy {c : Cst} (hc : c.Settled) :
    Yields (whole source f c) fun n => Occupy [c] [n] := by
  have hleaf : ∀ n : Node, n.span = c.span → n.children = [] →
      Yields (pure n) fun n => Occupy [c] [n] := fun n hspan hn => .pure (.childless hc hspan hn)
  have hstands : ∀ {x : Option Node}, Yields x (StandsOn c.span) →
      Yields x fun n => Occupy [c] [n] := fun hx => hx.mono fun n hn => hn.occupy hc
  have hother := hstands (yields_other_standsOn hf hc)
  have hbody := yields_blockAs_occupy hf hc .body
  have hparts := yields_all_occupy hf c.parts fun d hd => hc.of_mem_parts hd
  unfold whole
  -- Names, constants and statements without expressions have no children.
  split <;> try exact hleaf _ rfl rfl
  · exact hstands (yields_around_standsOn hbody (hc.runs_child? .body) fun _ => ⟨rfl, rfl⟩)
  · exact hstands (yields_around_standsOn hbody (hc.runs_child? .body) fun _ => ⟨rfl, rfl⟩)
  · split
    · rename_i d hd
      have hruns := hd ▸ hc.runs_child? .definition
      exact (hf (.whole d) (hc.of_child? hd)).mono fun n hn => hn.inside hruns
    · exact hother
  · rename_i hk
    have hreads : c.reads = (c.child? .condition).toList ++ (c.child? .consequence).toList ++
        c.childrenAs .alternative := by
      simp only [Cst.reads, hk]
    exact hstands (yields_branch_standsOn hf false hc (fun d hd => hc.of_mem_children
      (List.mem_filter.mp hd).1) (hreads ▸ hc.runs_reads) rfl (Nat.le_refl _))
  · exact hstands (yields_loop_standsOn hf hc _ (by simp [Cst.reads, *]))
  · exact hstands (yields_loop_standsOn hf hc _ (by simp [Cst.reads, *]))
  · exact hstands (yields_tryExcept_standsOn hf hc ‹_›)
  · exact hstands (yields_handler_standsOn hf hc (by simp [Cst.isHandler, *]))
  · exact hstands (yields_handler_standsOn hf hc (by simp [Cst.isHandler, *]))
  · exact hstands (yields_withBlock_standsOn hf hc ‹_›)
  · have hoperands := yields_all_occupy hf (c.operands c.boolOperator) fun d hd =>
      hc.of_mem_nodes (Cst.mem_nodes_of_mem_operands hd)
    exact hstands (yields_around_standsOn hoperands (hc.runs_operands _) fun _ => ⟨rfl, rfl⟩)
  · exact hstands (yields_comprehension_standsOn hf hc (by simp [Cst.isComprehension, *]))
  · exact hstands (yields_comprehension_standsOn hf hc (by simp [Cst.isComprehension, *]))
  · exact hstands (yields_comprehension_standsOn hf hc (by simp [Cst.isComprehension, *]))
  · exact hstands (yields_comprehension_standsOn hf hc (by simp [Cst.isComprehension, *]))
  · exact hstands (yields_call_standsOn hf hc ‹_›)
  · split
    · exact hleaf _ rfl rfl
    · exact hstands (yields_around_standsOn (yields_child_occupy hf hc .object)
        (hc.runs_child? .object) fun _ => ⟨rfl, rfl⟩)
  · exact hstands (yields_raise_standsOn hf hc ‹_›)
  · exact hstands (yields_await_standsOn hf hc)
  · exact yields_only_occupy hf hc
  · exact yields_only_occupy hf hc
  · exact hstands (yields_string_standsOn hf hc)
  · exact hstands (yields_string_standsOn hf hc)
  · exact hstands (yields_around_standsOn hparts hc.runs_parts fun _ => ⟨rfl, rfl⟩)
  · exact hstands (yields_around_standsOn hparts hc.runs_parts fun _ => ⟨rfl, rfl⟩)
  · exact hother

/-- The first one of several `elif` clauses holds the other ones and the clause behind them. -/
theorem yields_elifChain_occupy {clause : Cst} {rest : List Cst} (hclause : clause.Settled)
    (hk : clause.kind = .elifClause) (hrest : ∀ d ∈ rest, d.Settled) :
    Yields (level source f (.elifChain clause rest)) fun n => Occupy (clause :: rest) [n] := by
  intro n hn first last hruns
  obtain ⟨hown, hlast⟩ := runs_chainLines hclause hrest hruns
  have hreads : clause.reads = (clause.child? .condition).toList ++
      (clause.child? .consequence).toList := by
    simp only [Cst.reads, hk]
  have hbounds := hown.within clause List.mem_cons_self
  have hread := hown.replace_head hclause.runs_reads
  rw [hreads] at hread
  have hfirst : clause.span.first = (chainLines clause rest).first := rfl
  obtain ⟨hspan, hchildren⟩ :=
    yields_branch_standsOn hf true hclause hrest hread hfirst hbounds.2 n hn
  have hlines : (chainLines clause rest).first ≤ (chainLines clause rest).last :=
    Nat.le_trans hclause.span_first_le_last hbounds.2
  exact .singleton (by rwa [hspan]) (by rwa [hspan])
    (by rw [hspan]; exact (hruns.within clause List.mem_cons_self).1) (by rwa [hspan])

theorem yields_level_occupy {t : Subtree} (ht : t.Settled) :
    Yields (level source f t) fun n => Occupy t.places [n] := by
  cases t with
  | whole c => exact yields_whole_occupy hf ht
  | elifChain clause rest => exact yields_elifChain_occupy hf ht.1 ht.2.1 ht.2.2

end Levels

/-- A subtree becomes a node on its lines. -/
theorem occupy_of_lower {source : Array Char} {limit : Nat} {t : Subtree} (ht : t.Settled) :
    Yields (lower source limit t) fun n => Occupy t.places [n] := by
  induction limit generalizing t with
  | zero => exact fun n hn => by simp [lower] at hn
  | succ limit ih => exact yields_level_occupy (fun s hs => ih hs) ht

/-- The statements of a text stand in order on its lines. -/
theorem fills_statements {text : String} {c : Cst} {body : List Node}
    (hplaced : ∀ d ∈ c.nodes, d.isPlaced) (hsolid : ∀ d ∈ c.children.flatMap Cst.nodes, d.isSolid)
    (hrows : c.stop.row ≤ text.toList.count '\n')
    (hbody : statements text.toList.toArray c = some body) :
    Node.Fills 1 (countLines text) body := by
  have hsettled : ∀ d ∈ c.children, d.Settled := fun d hd e he =>
    ⟨hplaced e (Cst.nodes_subset_of_mem_children hd he),
      hsolid e (List.mem_flatMap.mpr ⟨d, hd, he⟩)⟩
  obtain ⟨-, hinside, horder, -⟩ := Cst.isPlaced_iff.mp (hplaced c c.mem_nodes_self)
  have hparts : ∀ d ∈ c.parts, d.Settled := fun d hd => hsettled d (Cst.mem_children_of_mem_parts hd)
  have hruns : Cst.Runs 1 (countLines text) c.parts := by
    refine ⟨fun d hd => ⟨Nat.le_add_left 1 _, ?_⟩, ?_⟩
    · have hstop := Position.row_le (hinside d (Cst.mem_children_of_mem_parts hd)).2
      have hlast := (hparts d hd).span_last_le
      rw [countLines]
      omega
    · have horder : c.parts.Pairwise fun d e => d.stop ≤ e.start :=
        horder.sublist List.filter_sublist
      exact (List.Pairwise.and_mem.mp horder).imp fun ⟨hd, _, hde⟩ =>
        (hparts _ hd).span_last_le_first hde
  exact yields_all_occupy (fun s hs => occupy_of_lower hs) c.parts hparts body hbody _ _ hruns

/-- In the tree of a text a node has lines of the text that hold those of its children, nodes
start in source order, and what a rule reports stands on a line of the text. -/
theorem lines_statements {text : String} {path : Path} {c : Cst} {body : List Node}
    (hplaced : ∀ d ∈ c.nodes, d.isPlaced) (hsolid : ∀ d ∈ c.children.flatMap Cst.nodes, d.isSolid)
    (hrows : c.stop.row ≤ text.toList.count '\n')
    (hbody : statements text.toList.toArray c = some body) :
    let u := SourceUnit.ofSource path text body
    (∀ n ∈ u.walk, 1 ≤ n.span.first ∧ n.span.first ≤ n.span.last ∧ n.span.last ≤ u.lineCount ∧
      ∀ k ∈ n.children, n.span.first ≤ k.span.first ∧ k.span.last ≤ n.span.last) ∧
    u.walk.Pairwise (fun m n => m.line ≤ n.line) ∧
    ∀ r ∈ Rule.all, ∀ context, ∀ v ∈ r.check context u, 1 ≤ v.line ∧ v.line ≤ u.lineCount := by
  intro u
  have hfills : Node.Fills 1 u.lineCount u.body := fills_statements hplaced hsolid hrows hbody
  refine ⟨fun n hn => ?_, hfills.ordered, fun r hr context v hv => ?_⟩
  · obtain ⟨hfirst, hlines, hlast⟩ := hfills.bounds hn
    exact ⟨hfirst, hlines, hlast, (hfills.holds n hn).2⟩
  · rcases Rule.line_of_mem_check hr hv with hline | ⟨n, hn, hline⟩
    · have hcount : 1 ≤ u.lineCount := Nat.le_add_left 1 _
      omega
    · have hbounds := hfills.bounds hn
      omega

/-- An `elif` that reaches to the end of the clause behind it, and comments that end a clause
and the text. -/
theorem lines_statements_elif :
    let text := "if x:\n    f(x)  # a\nelif x and y:\n    try:\n        pass\n" ++
      "    except:\n        pass\n    # b\nelse:\n    [z for z in x if z]\n# c\n"
    ∃ c body, Cst.ofSource? text = some c ∧ statements text.toList.toArray c = some body ∧
      let u := SourceUnit.ofSource ⟨"m.py"⟩ text body
      (∃ n ∈ u.walk, n.isElif ∧ n.span = ⟨3, 10⟩) ∧
      (∀ n ∈ u.walk, 1 ≤ n.span.first ∧ n.span.first ≤ n.span.last ∧ n.span.last ≤ u.lineCount ∧
        ∀ k ∈ n.children, n.span.first ≤ k.span.first ∧ k.span.last ≤ n.span.last) ∧
      u.walk.Pairwise (fun m n => m.line ≤ n.line) ∧
      ∀ r ∈ Rule.all, ∀ context, ∀ v ∈ r.check context u, 1 ≤ v.line ∧ v.line ≤ u.lineCount := by
  intro text
  have hplaced : (Cst.ofSource? text).any fun c =>
      c.nodes.all Cst.isPlaced && (c.children.flatMap Cst.nodes).all Cst.isSolid &&
        c.stop.row ≤ text.toList.count '\n' && (statements text.toList.toArray c).any fun body =>
          (Node.walkAll body).any fun n => n.isElif && n.span = ⟨3, 10⟩ := by decide +kernel
  obtain ⟨c, hc, h⟩ := (Option.any_eq_true ..).mp hplaced
  simp only [Bool.and_eq_true, decide_eq_true_eq, List.all_eq_true] at h
  obtain ⟨⟨⟨hnodes, hsolid⟩, hrows⟩, hsome⟩ := h
  obtain ⟨body, hbody, helif⟩ := (Option.any_eq_true ..).mp hsome
  simp only [List.any_eq_true, Bool.and_eq_true, decide_eq_true_eq] at helif
  exact ⟨c, body, hc, hbody, helif, lines_statements hnodes hsolid hrows hbody⟩

end Lowering

end QualityGate.Python
