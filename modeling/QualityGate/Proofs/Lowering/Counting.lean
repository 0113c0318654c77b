import QualityGate.Metrics
import QualityGate.Proofs.Cst.Regular
import QualityGate.Proofs.Lowering.Children

/-! The decision points of lowered statements. If every subtree that a level leaves to `descend`
becomes a node with the subtree's decision points, then so do blocks, branches, loops, handlers
and contexts: nothing is read twice, and what is not read has none. -/
namespace QualityGate

/-- The decision points of a node and of everything below it. -/
def Node.decisions (n : Node) : Nat := total (n.walk.map decisionPoints)

theorem Node.decisions_eq (n : Node) :
    n.decisions = n.decisionPoints + total (n.children.map decisions) := by
  rw [decisions, walk_eq, List.map_cons, total_cons, walkAll, total_map_flatMap]
  rfl

theorem Node.total_walkAll (ns : List Node) :
    total ((walkAll ns).map decisionPoints) = total (ns.map decisions) := by
  rw [walkAll, total_map_flatMap]
  rfl

namespace Python

/-- The decision points of a subtree; those of an `elif` include those behind it. -/
def Subtree.decisions : Subtree → Nat
  | .whole c => c.decisions
  | .elifChain clause rest => clause.decisions + total (rest.map Cst.decisions)

/-- Whether a subtree is one that lowering the trees of the grammar comes to. -/
def Subtree.IsSound : Subtree → Prop
  | .whole c => c.IsWhole
  | .elifChain clause rest => clause.Regular ∧ clause.kind = .elifClause ∧
    (∀ d ∈ rest, d.Regular) ∧ Cst.areAlternatives rest

@[simp] theorem Subtree.decisions_whole (c : Cst) : (Subtree.whole c).decisions = c.decisions := rfl

namespace Lowering

/-- Whether nodes have together some number of decision points. -/
def Counts (x : Option (List Node)) (k : Nat) : Prop :=
  Yields x fun ns => total (ns.map Node.decisions) = k

theorem decisions_placeholder (c : Cst) : (placeholder c).decisions = 0 := by
  rw [Node.decisions_eq]
  rfl

theorem Yields.total_mapM {α β : Type} {xs : List α} {f : α → Option β} {v : α → Nat} {w : β → Nat}
    (h : ∀ x ∈ xs, Yields (f x) fun y => w y = v x) :
    Yields (xs.mapM f) fun ys => ys.length = xs.length ∧ total (ys.map w) = total (xs.map v) := by
  induction xs with
  | nil => exact pure ⟨rfl, rfl⟩
  | cons x xs ih =>
    rw [List.mapM_cons]
    refine bind (h x (by simp)) fun y hy =>
      bind (ih fun x hx => h x (by simp [hx])) fun ys hys => pure ?_
    simp [hy, hys]

/-- Of clauses that may stand once, the last one is all that counts. -/
theorem yields_last (cs : List Cst) (g : Cst → Option (List Node)) (hone : cs.length ≤ 1)
    (hcs : ∀ c ∈ cs, Counts (g c) c.decisions) :
    Yields (cs.mapM g) fun nss =>
      total ((nss.getLast?.getD []).map Node.decisions) = total (cs.map Cst.decisions) := by
  match cs with
  | [] => exact .pure rfl
  | [c] =>
    rw [List.mapM_cons]
    refine (hcs c (by simp)).bind fun ns hns => .pure ?_
    simpa using hns
  | c :: d :: rest => simp at hone

section Parts

variable {source : Array Char} {f : Subtree → Option Node}
  (hf : ∀ s : Subtree, s.IsSound → Yields (f s) fun n => n.decisions = s.decisions)
include hf

/-! ### Children and blocks -/

theorem yields_all_decisions (cs : List Cst) (hcs : ∀ c ∈ cs, c.IsWhole) :
    Yields (all f cs) fun ns => ns.length = cs.length ∧
      total (ns.map Node.decisions) = total (cs.map Cst.decisions) :=
  .total_mapM fun c hc => hf (.whole c) (hcs c hc)

theorem counts_all (cs : List Cst) (hcs : ∀ c ∈ cs, c.IsWhole) :
    Counts (all f cs) (total (cs.map Cst.decisions)) :=
  (yields_all_decisions hf cs hcs).mono fun _ hns => hns.2

/-- Of at most one node, the first one is all that counts. -/
theorem yields_head {o : Option Cst} (ho : ∀ d ∈ o, d.IsWhole) :
    Yields (all f o.toList) fun ns =>
      total (ns.head?.toList.map Node.decisions) = total (o.toList.map Cst.decisions) := by
  cases o with
  | none => exact .pure rfl
  | some d =>
    rw [all, Option.toList_some, List.mapM_cons]
    refine (hf (.whole d) (ho d rfl)).bind fun n hn => .pure ?_
    simpa using hn

theorem counts_parts {c : Cst} (hc : c.Regular) (hk : c.kind ≠ .ifStatement) :
    Counts (all f c.parts) (total (c.children.map Cst.decisions)) := by
  rw [← hc.total_parts]
  exact counts_all hf _ fun d hd => hc.isWhole_of_mem_children hk (Cst.mem_children_of_mem_parts hd)

theorem counts_child {c : Cst} (hc : c.Regular) {field : Field} (hfield : field ≠ .alternative)
    (hone : c.atMostOne field) :
    Counts (child f c field) (total ((c.childrenAs field).map Cst.decisions)) := by
  rw [Cst.childrenAs_eq_toList hone]
  exact counts_all hf _ fun d hd => hc.isWhole_of_child? hfield (Option.mem_toList.mp hd)

theorem yields_childOr_decisions {c : Cst} (hc : c.Regular) (place : Cst) {field : Field}
    (hfield : field ≠ .alternative) (hone : c.atMostOne field) :
    Yields (childOr f c place field) fun n =>
      n.decisions = total ((c.childrenAs field).map Cst.decisions) := by
  rw [Cst.childrenAs_eq_toList hone]
  unfold childOr
  split
  · rename_i d hd
    rw [hd]
    exact hf (.whole d) (hc.isWhole_of_child? hfield hd)
  · rename_i hd
    rw [hd]
    exact .pure (decisions_placeholder place)

theorem counts_block {o : Option Cst} (ho : ∀ d ∈ o, d.Regular ∧ d.kind = .block) :
    Counts (block f o) (total (o.toList.map Cst.decisions)) := by
  cases o with
  | none => exact .pure rfl
  | some d =>
    obtain ⟨hd, hk⟩ := ho d rfl
    rw [Option.toList_some, List.map_singleton, total_singleton,
      Cst.decisions_of_children (n := 0) (by simp [Cst.decisionsAt, Cst.followed, hk]),
      Nat.zero_add]
    exact counts_parts hf hd (by simp [hk])

theorem counts_blockAs {c : Cst} (hc : c.Regular) {field : Field} (hblock : c.blockAs field) :
    Counts (block f (c.child? field)) (total ((c.childrenAs field).map Cst.decisions)) := by
  rw [Cst.blockAs, Bool.and_eq_true] at hblock
  rw [Cst.childrenAs_eq_toList hblock.1]
  exact counts_block hf fun d hd =>
    ⟨hc.of_mem_children (Cst.mem_children_of_child? hd), Cst.kind_of_child? hblock.2 hd⟩

/-- A block that is found by its kind. -/
theorem counts_part_block {c : Cst} (hc : c.Regular) :
    Counts (block f (c.part? .block)) (total ((c.part? .block).toList.map Cst.decisions)) :=
  counts_block hf fun d hd => ⟨hc.of_mem_children (Cst.mem_children_of_part? hd), by
    simpa using List.find?_some hd⟩

theorem counts_otherwise {o : Option Cst} (ho : ∀ d ∈ o, d.Regular ∧ d.kind = .elseClause) :
    Counts (otherwise f o) (total (o.toList.map Cst.decisions)) := by
  cases o with
  | none => exact .pure rfl
  | some d =>
    obtain ⟨hd, hk⟩ := ho d rfl
    have hshape := hd.isShaped
    simp only [Cst.isShaped, hk, Bool.and_eq_true] at hshape
    obtain ⟨hplays, hblock⟩ := hshape
    have hsum := hd.decisions_of_roles (n := 0) (by simp [Cst.decisionsAt, Cst.followed, hk])
      (by decide) hplays
    rw [List.map_singleton, total_singleton, Nat.zero_add] at hsum
    rw [otherwise, Option.bind_some, Cst.child?_or_part? hplays, Option.toList_some,
      List.map_singleton, total_singleton, hsum]
    exact counts_blockAs hf hd hblock

/-! ### Branches and loops -/

theorem counts_alternatives {cs : List Cst} (hcs : ∀ c ∈ cs, c.Regular)
    (halternatives : Cst.areAlternatives cs) :
    Counts (alternatives f cs) (total (cs.map Cst.decisions)) := by
  cases cs with
  | nil => exact .pure rfl
  | cons c rest =>
    have hc := hcs c (by simp)
    rw [Cst.areAlternatives] at halternatives
    rw [alternatives]
    split at halternatives
    · rename_i hk
      rw [if_pos hk]
      refine (hf (.elifChain c rest) ⟨hc, hk, fun d hd => hcs d (by simp [hd]), halternatives⟩).bind
        fun n hn => .pure ?_
      rw [List.map_singleton, total_singleton, hn]
      rfl
    · rename_i hk
      rw [if_neg hk]
      simp only [Bool.and_eq_true, decide_eq_true_eq, List.isEmpty_iff] at halternatives
      obtain ⟨helse, rfl⟩ := halternatives
      exact counts_otherwise hf fun d hd => by
        obtain rfl := Option.mem_some_iff.mp hd
        exact ⟨hc, helse⟩

theorem yields_branch_decisions {c : Cst} {rest : List Cst} (hc : c.Regular)
    (hone : c.atMostOne .condition) (hblock : c.blockAs .consequence)
    (hrest : ∀ d ∈ rest, d.Regular) (halternatives : Cst.areAlternatives rest) (lines : Span)
    (isElif : Bool) :
    Yields (branch f lines isElif c rest) fun n => n.decisions =
      1 + total ((c.childrenAs .condition).map Cst.decisions)
        + total ((c.childrenAs .consequence).map Cst.decisions)
        + total (rest.map Cst.decisions) := by
  refine (yields_childOr_decisions hf hc c (by decide) hone).bind fun test htest => ?_
  refine (counts_blockAs hf hc hblock).bind fun body hbody => ?_
  refine (counts_alternatives hf hrest halternatives).bind fun orelse horelse => .pure ?_
  rw [Node.decisions_eq]
  simp only [Node.decisionPoints, Node.children, List.map_cons, List.map_append, total_cons,
    total_append, htest, hbody, horelse]
  omega

theorem yields_loop_decisions {c : Cst} (hc : c.Regular) (form : LoopForm) {header : List Field}
    (hheader : ∀ field ∈ header, field ≠ .alternative ∧ c.atMostOne field)
    (hblock : c.blockAs .body) (hone : c.atMostOne .alternative)
    (helse : c.areAs .alternative .elseClause) :
    Yields (loop f c form header) fun n => n.decisions =
      (if form = .asyncForEach then 0 else 1)
        + total (header.map fun field => total ((c.childrenAs field).map Cst.decisions))
        + total ((c.childrenAs .body).map Cst.decisions)
        + total ((c.childrenAs .alternative).map Cst.decisions) := by
  have hheaders : Yields (header.mapM (child f c)) fun nss => total (nss.flatten.map Node.decisions)
      = total (header.map fun field => total ((c.childrenAs field).map Cst.decisions)) :=
    (Yields.total_mapM (f := child f c) (w := fun ns => total (ns.map Node.decisions))
      fun field hfield =>
        counts_child hf hc (hheader field hfield).1 (hheader field hfield).2).mono
          fun nss hnss => by rw [total_map_flatten, hnss.2]
  have hotherwise : Counts (otherwise f (c.child? .alternative))
      (total ((c.childrenAs .alternative).map Cst.decisions)) := by
    rw [Cst.childrenAs_eq_toList hone]
    exact counts_otherwise hf fun d hd =>
      ⟨hc.of_mem_children (Cst.mem_children_of_child? hd), Cst.kind_of_child? helse hd⟩
  refine hheaders.bind fun headers hheaders => ?_
  refine (counts_blockAs hf hc hblock).bind fun body hbody => ?_
  refine hotherwise.bind fun orelse horelse => .pure ?_
  rw [Node.decisions_eq]
  simp only [Node.decisionPoints, Node.children, List.map_append, total_append, hheaders, hbody,
    horelse]
  omega

/-! ### Handlers and contexts -/

theorem yields_tryExcept_decisions {c : Cst} (hc : c.Regular) (hk : c.kind = .tryStatement) :
    Yields (tryExcept f c) fun n => n.decisions = c.decisions := by
  have hshape := hc.isShaped
  simp only [Cst.isShaped, hk, Bool.and_eq_true, decide_eq_true_eq] at hshape
  obtain ⟨⟨⟨hblock, -⟩, helse⟩, hfinally⟩ := hshape
  have hkind : c.kind ≠ .ifStatement := by simp [hk]
  have hhandlers : Counts (all f (c.parts.filter Cst.isHandler))
      (total ((c.parts.filter Cst.isHandler).map Cst.decisions)) :=
    counts_all hf _ fun d hd => hc.isWhole_of_mem_children hkind
      (Cst.mem_children_of_mem_parts (List.mem_filter.mp hd).1)
  have hothers := yields_last (c.parts.filter (·.kind = .elseClause))
    (fun d => otherwise f (some d))
    (by rwa [← Cst.filter_kind_members c (by decide), ← List.countP_eq_length_filter])
    fun d hd => by
      have hmem := List.mem_filter.mp hd
      have hcounts := counts_otherwise hf (o := some d) fun e he => by
        obtain rfl := Option.mem_some_iff.mp he
        exact ⟨hc.of_mem_parts hmem.1, by simpa using hmem.2⟩
      simpa using hcounts
  have hfinals := yields_last (c.parts.filter (·.kind = .finallyClause))
    (fun d => block f (d.part? .block))
    (by rwa [← Cst.filter_kind_members c (by decide), ← List.countP_eq_length_filter])
    fun d hd => by
      have hmem := List.mem_filter.mp hd
      have hregular := hc.of_mem_parts hmem.1
      rw [hregular.decisions_of_finallyClause (by simpa using hmem.2)]
      exact counts_part_block hf hregular
  rw [hc.decisions_of_tryStatement hk]
  refine (counts_blockAs hf hc hblock).bind fun body hbody => ?_
  refine hhandlers.bind fun handlers hhandlers => ?_
  refine hothers.bind fun others hothers => hfinals.bind fun finals hfinals => .pure ?_
  rw [Node.decisions_eq]
  simp only [Node.decisionPoints, Node.children, List.map_append, total_append, hbody, hhandlers,
    hothers, hfinals]
  omega

theorem yields_handler_decisions {c : Cst} (hc : c.Regular) (hk : c.isHandler) :
    Yields (handler source f c) fun n => n.decisions = c.decisions := by
  have hkind : c.kind ≠ .ifStatement := by
    intro hif
    simp [Cst.isHandler, hif] at hk
  have hcaught : Yields (caught source f (c.parts.filter (·.kind != .block))) fun p =>
      total (p.1.toList.map Node.decisions) = total (c.caughtIn.map Cst.decisions) := by
    rw [hc.caughtIn_eq hk, ← List.head?_filter]
    have hmem : ∀ d ∈ c.parts.filter (·.kind != .block), d ∈ c.children := fun d hd =>
      Cst.mem_children_of_mem_parts (List.mem_filter.mp hd).1
    cases hparts : c.parts.filter (·.kind != .block) with
    | nil => exact .pure rfl
    | cons d rest =>
      have hd : d ∈ c.children := hmem d (by simp [hparts])
      rw [List.head?_cons, caught]
      dsimp only
      split
      · rename_i hpattern
        exact (yields_head hf fun e he =>
          (hc.of_mem_children hd).isWhole_of_mem_children (by simp [hpattern])
            (Cst.mem_children_of_mem_parts (List.mem_of_head? he))).bind
              fun types htypes => .pure htypes
      · refine (hf (.whole d) (hc.isWhole_of_mem_children hkind hd)).bind fun n hn => .pure ?_
        simpa using hn
  rw [hc.decisions_of_handler hk]
  refine hcaught.bind ?_
  rintro ⟨type, name⟩ htype
  refine (counts_part_block hf hc).bind fun body hbody => .pure ?_
  rw [Node.decisions_eq]
  simp only [Node.decisionPoints, Node.children, List.map_append, total_append, hbody, htype]
  omega

theorem yields_withBlock_decisions {c : Cst} (hc : c.Regular) (hk : c.kind = .withStatement) :
    Yields (withBlock f c) fun n => n.decisions = c.decisions := by
  have hshape := hc.isShaped
  simp only [Cst.isShaped, hk, Bool.and_eq_true, decide_eq_true_eq] at hshape
  have hitems : Counts
      (all f ((((c.part? .withClause).map Cst.parts).getD []).map fun item =>
        (item.child? .value).getD item))
      (total ((c.part? .withClause).toList.map Cst.decisions)) := by
    cases hclause : c.part? .withClause with
    | none => exact .pure rfl
    | some clause =>
      have hregular := hc.of_mem_children (Cst.mem_children_of_part? hclause)
      have hkind : clause.kind = .withClause := by simpa using List.find?_some hclause
      rw [Option.map_some, Option.getD_some, Option.toList_some, List.map_singleton,
        total_singleton, ← hregular.total_withItems hkind]
      refine counts_all hf _ fun d hd => ?_
      obtain ⟨item, hitem, rfl⟩ := List.mem_map.mp hd
      cases hvalue : item.child? .value with
      | none =>
        exact hregular.isWhole_of_mem_children (by simp [hkind])
          (Cst.mem_children_of_mem_parts hitem)
      | some value => exact (hregular.of_mem_parts hitem).isWhole_of_child? (by decide) hvalue
  rw [hc.decisions_of_withStatement hk]
  refine hitems.bind fun items hitems => ?_
  refine (counts_blockAs hf hc hshape.1.1).bind fun body hbody => .pure ?_
  rw [Node.decisions_eq]
  simp only [Node.decisionPoints, Node.children, List.map_append, total_append, hitems, hbody]
  omega

theorem yields_raise_decisions {c : Cst} (hc : c.Regular) (hk : c.kind = .raiseStatement) :
    Yields (raise f c) fun n => n.decisions = c.decisions := by
  have hshape := hc.isShaped
  simp only [Cst.isShaped, hk, Bool.and_eq_true] at hshape
  rw [hc.decisions_of_raiseStatement hk, Cst.childrenAs_eq_toList hshape.1]
  refine (yields_head hf fun d hd => ?_).bind fun raised hraised =>
    (yields_head hf fun d hd => ?_).bind fun cause hcause => .pure ?_
  · exact hc.isWhole_of_mem_children (by simp [hk])
      (Cst.mem_children_of_mem_parts (List.mem_of_find?_eq_some hd))
  · exact hc.isWhole_of_child? (by decide) hd
  · rw [Node.decisions_eq]
    simp only [Node.decisionPoints, Node.children, List.map_append, total_append, hraised, hcause]
    omega

end Parts

end Lowering

end Python

end QualityGate
