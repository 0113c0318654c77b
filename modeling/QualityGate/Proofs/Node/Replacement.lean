import QualityGate.Proofs.Node.Growth

/-! Trees with another node at one address. A node can be given other children in place of its own,
as many as it has, part by part; all that it says itself stays. So a node can be put at an address
of a tree, and a measure of the tree changes by what it changes at that address. -/
namespace QualityGate

/-- The clauses of a comprehension with other nodes in place of theirs. -/
def Node.withClauseNodes : List (Generator Node) → List Node → List (Generator Node)
  | [], _ => []
  | g :: gs, ns =>
    ⟨ns.take g.header.length, (ns.drop g.header.length).take g.filters.length⟩ ::
      withClauseNodes gs ((ns.drop g.header.length).drop g.filters.length)

namespace Node

def withChildren : Node → List Node → Node
  | functionDef span head _, ns => functionDef span head ns
  | classDef span head _, ns => classDef span head ns
  | branch span isElif test body _, ns =>
    branch span isElif (ns.headD test) (ns.tail.take body.length) (ns.tail.drop body.length)
  | loop span form header body _, ns =>
    loop span form (ns.take header.length) ((ns.drop header.length).take body.length)
      ((ns.drop header.length).drop body.length)
  | tryExcept span body handlers orelse _, ns =>
    let rest := ns.drop body.length
    let others := rest.drop handlers.length
    tryExcept span (ns.take body.length) (rest.take handlers.length)
      (others.take orelse.length) (others.drop orelse.length)
  | handler span caught bound _, ns =>
    handler span (caught.bind fun _ => ns.head?) bound (ns.drop caught.toList.length)
  | withBlock span isAsync items _, ns =>
    withBlock span isAsync (ns.take items.length) (ns.drop items.length)
  | boolOp span operator _, ns => boolOp span operator ns
  | comprehension span element generators, ns =>
    comprehension span (ns.take element.length)
      (withClauseNodes generators (ns.drop element.length))
  | call span callee func _, ns => call span callee (ns.headD func) ns.tail
  | raise span exception cause, ns =>
    raise span (exception.bind fun _ => ns.head?)
      (cause.bind fun _ => (ns.drop exception.toList.length).head?)
  | await span value, ns => await span (ns.headD value)
  | tuple span _, ns => tuple span ns
  | other span _, ns => other span ns
  | n, _ => n

/-- The tree with a node put at an address. -/
def replaceAt : Node → Address → Node → Node
  | _, [], m => m
  | n, i :: a, m => n.withChildren (n.children.modify i (replaceAt · a m))

-- the exception of a `raise` in a handler
example :
    let x (line : Nat) : Node := .name ⟨line, line⟩ "x"
    let n (m : Node) : Node := .tryExcept ⟨1, 4⟩ [x 2] [.handler ⟨3, 4⟩ (some (x 3)) none
      [.raise ⟨4, 4⟩ (some m) none]] [] []
    replaceAt (n (x 4)) [1, 1, 0] (.pass ⟨5, 5⟩) = n (.pass ⟨5, 5⟩) := rfl

/-! ### Other children -/

theorem clauseNodes_withClauseNodes {gs : List (Generator Node)} {ns : List Node}
    (h : ns.length = (clauseNodes gs).length) : clauseNodes (withClauseNodes gs ns) = ns := by
  induction gs generalizing ns with
  | nil => simpa [clauseNodes, withClauseNodes, eq_comm] using h
  | cons g gs ih =>
    simp only [clauseNodes, List.length_append] at h
    rw [withClauseNodes, clauseNodes, ih (by simp; omega), List.append_assoc,
      List.take_append_drop, List.take_append_drop]

theorem toList_head_append_drop {o : Option Node} {ns : List Node}
    (h : o.toList.length ≤ ns.length) :
    (o.bind fun _ => ns.head?).toList ++ ns.drop o.toList.length = ns := by
  cases o with
  | none => rfl
  | some m =>
    cases ns with
    | nil => simp at h
    | cons n ns => rfl

theorem headD_cons_tail {m : Node} {ns : List Node} (h : ns ≠ []) : ns.headD m :: ns.tail = ns := by
  cases ns with
  | nil => exact absurd rfl h
  | cons n ns => rfl

theorem children_withChildren {n : Node} {ns : List Node} (h : ns.length = n.children.length) :
    (n.withChildren ns).children = ns := by
  cases n with
  | branch span isElif test body orelse =>
    have hne : ns ≠ [] := List.ne_nil_of_length_eq_add_one h
    rw [withChildren, children, List.take_append_drop, headD_cons_tail hne]
  | loop span form header body orelse =>
    rw [withChildren, children, List.append_assoc, List.take_append_drop, List.take_append_drop]
  | tryExcept span body handlers orelse final =>
    rw [withChildren, children, List.append_assoc, List.append_assoc, List.take_append_drop,
      List.take_append_drop, List.take_append_drop]
  | handler span caught bound body =>
    rw [children, List.length_append] at h
    rw [withChildren, children, toList_head_append_drop (by omega)]
  | withBlock span isAsync items body => rw [withChildren, children, List.take_append_drop]
  | comprehension span element generators =>
    rw [children, List.length_append] at h
    have hclauses : (ns.drop element.length).length = (clauseNodes generators).length := by
      rw [List.length_drop]
      omega
    rw [withChildren, children, clauseNodes_withClauseNodes hclauses, List.take_append_drop]
  | call span callee func arguments =>
    have hne : ns ≠ [] := List.ne_nil_of_length_eq_add_one h
    rw [withChildren, children, headD_cons_tail hne]
  | raise span exception cause =>
    rw [children, List.length_append] at h
    have hlength : cause.toList.length ≤ (ns.drop exception.toList.length).length := by
      rw [List.length_drop]
      omega
    have hcause := toList_head_append_drop hlength
    have hend : (ns.drop exception.toList.length).drop cause.toList.length = [] := by
      rw [List.drop_drop]
      exact List.drop_eq_nil_of_le h.le
    rw [hend, List.append_nil] at hcause
    rw [withChildren, children, hcause, toList_head_append_drop (by omega)]
  | await span value =>
    obtain ⟨m, rfl⟩ := List.length_eq_one_iff.mp h
    rfl
  | globalNames | nonlocalNames | imports | literal | name | pass =>
    exact (List.eq_nil_of_length_eq_zero h).symm
  | _ => rfl

theorem withClauseNodes_clauseNodes (gs : List (Generator Node)) :
    withClauseNodes gs (clauseNodes gs) = gs := by
  induction gs with
  | nil => rfl
  | cons g gs ih =>
    rw [clauseNodes, withClauseNodes, List.append_assoc, List.take_left, List.drop_left,
      List.take_left, List.drop_left, ih]

theorem bind_head_append {o : Option Node} {ns : List Node} :
    (o.bind fun _ => (o.toList ++ ns).head?) = o := by
  cases o <;> rfl

/-- With its own children a node stays as it is. -/
theorem withChildren_children (n : Node) : n.withChildren n.children = n := by
  cases n with
  | branch span isElif test body orelse =>
    rw [children, withChildren, List.tail_cons, List.take_left, List.drop_left]
    rfl
  | loop span form header body orelse =>
    rw [children, withChildren, List.append_assoc, List.take_left, List.drop_left, List.take_left,
      List.drop_left]
  | tryExcept span body handlers orelse final =>
    rw [children, withChildren, List.append_assoc, List.append_assoc, List.take_left,
      List.drop_left, List.take_left, List.drop_left, List.take_left, List.drop_left]
  | handler span caught bound body =>
    rw [children, withChildren, bind_head_append, List.drop_left]
  | withBlock span isAsync items body => rw [children, withChildren, List.take_left, List.drop_left]
  | comprehension span element generators =>
    rw [children, withChildren, List.take_left, List.drop_left, withClauseNodes_clauseNodes]
  | raise span exception cause =>
    have hcause : (cause.bind fun _ => (cause.toList ++ []).head?) = cause := bind_head_append
    rw [List.append_nil] at hcause
    rw [children, withChildren, bind_head_append, List.drop_left, hcause]
  | _ => rfl

/-! ### Another node at an address -/

theorem modify_eq_set {ns : List Node} {i : Nat} {c : Node} (hc : ns[i]? = some c)
    (f : Node → Node) : ns.modify i f = ns.set i (f c) := by
  rw [List.modify_eq_set, hc, Option.getD_some]

theorem replaceAt_cons {n c : Node} {i : Nat} (hc : n.children[i]? = some c) (a : Address)
    (m : Node) : replaceAt n (i :: a) m = n.withChildren (n.children.set i (replaceAt c a m)) := by
  rw [replaceAt, modify_eq_set hc]

theorem children_replaceAt_cons (n : Node) (i : Nat) (a : Address) (m : Node) :
    (replaceAt n (i :: a) m).children = n.children.modify i (replaceAt · a m) := by
  rw [replaceAt]
  exact children_withChildren (List.length_modify _ _ _)

/-- What stands on the way to the address holds the new node further down. -/
theorem descendant?_replaceAt {n d : Node} {a : Address} (hd : descendant? n a = some d)
    (b : Address) (m : Node) :
    descendant? (replaceAt n (a ++ b) m) a = some (replaceAt d b m) := by
  induction a generalizing n with
  | nil =>
    obtain rfl := Option.some.inj hd
    rfl
  | cons i a ih =>
    obtain ⟨c, hc, hbelow⟩ := Option.bind_eq_some_iff.mp hd
    rw [List.cons_append, descendant?, children_replaceAt_cons, List.getElem?_modify_eq, hc]
    exact ih hbelow

/-- A tree with the node that stands at an address put there is the same tree. -/
theorem replaceAt_self {n m : Node} {a : Address} (hm : descendant? n a = some m) :
    replaceAt n a m = n := by
  induction a generalizing n with
  | nil => exact (Option.some.inj hm).symm
  | cons i a ih =>
    obtain ⟨c, hc, hbelow⟩ := Option.bind_eq_some_iff.mp hm
    obtain ⟨hi, hget⟩ := List.getElem?_eq_some_iff.mp hc
    rw [replaceAt_cons hc, ih hbelow, ← hget, List.set_getElem_self, withChildren_children]

/-! ### What stays -/

variable {n : Node} {ns : List Node}

@[simp] theorem isControl_withChildren (n : Node) (ns : List Node) :
    (n.withChildren ns).isControl = n.isControl := by
  cases n <;> rfl

@[simp] theorem isElif_withChildren (n : Node) (ns : List Node) :
    (n.withChildren ns).isElif = n.isElif := by
  cases n <;> rfl

@[simp] theorem handlerEntries_withChildren (h : ns.length = n.children.length) :
    (n.withChildren ns).handlerEntries = n.handlerEntries := by
  cases n with
  | tryExcept span body handlers orelse final =>
    simp only [children, List.length_append] at h
    simp only [withChildren, handlerEntries, List.length_take, List.length_drop]
    omega
  | _ => rfl

theorem filters_withClauseNodes {gs : List (Generator Node)}
    (h : ns.length = (clauseNodes gs).length) :
    ((withClauseNodes gs ns).map fun g => 1 + g.filters.length) =
      gs.map fun g => 1 + g.filters.length := by
  induction gs generalizing ns with
  | nil => rfl
  | cons g gs ih =>
    simp only [clauseNodes, List.length_append] at h
    rw [withClauseNodes, List.map_cons, List.map_cons, ih (by simp; omega)]
    simp only [List.length_take, List.length_drop]
    congr 2
    omega

theorem decisionPoints_withChildren (h : ns.length = n.children.length) :
    (n.withChildren ns).decisionPoints = n.decisionPoints := by
  cases n with
  | boolOp span operator values => exact congrArg (· - 1) h
  | comprehension span element generators =>
    rw [children, List.length_append] at h
    rw [withChildren, decisionPoints, filters_withClauseNodes (by rw [List.length_drop]; omega)]
    rfl
  | _ => rfl

/-! ### What depends on the children -/

variable {ns' : List Node}

theorem elifBranches_withChildren_congr (n : Node) (h : ns.map isElif = ns'.map isElif) :
    (n.withChildren ns).elifBranches = (n.withChildren ns').elifBranches := by
  have hcount : ∀ (ms : List Node) (k : Nat),
      (ms.tail.drop k).countP isElif = ((ms.map isElif).tail.drop k).countP id := by
    intro ms k
    rw [← List.map_tail, ← List.map_drop, List.countP_map]
    rfl
  cases n with
  | branch span isElif test body orelse =>
    rw [withChildren, withChildren, elifBranches, elifBranches, hcount, hcount, h]
  | _ => rfl

theorem rise_withChildren_congr (n : Node) (h : ns.map isElif = ns'.map isElif) (i : Nat) :
    rise (n.withChildren ns) i = rise (n.withChildren ns') i := by
  have hany : ∀ (ms : List Node) (k j : Nat), ((ms.tail.drop k)[j]?.any isElif) =
      (((ms.map isElif).tail.drop k)[j]?.any id) := by
    intro ms k j
    rw [← List.map_tail, ← List.map_drop, List.getElem?_map, Option.any_map]
    rfl
  have hlength : ns.length = ns'.length := by simpa using congrArg List.length h
  cases n with
  | branch span isElif test body orelse =>
    cases i with
    | zero => rfl
    | succ i =>
      simp only [withChildren, rise, deepens, hany, h, List.length_take, List.length_tail, hlength]
  | _ => rfl

/-- Two nodes that differ in their children cost the same themselves, if their children continue a
branch alike. -/
theorem ownCost_withChildren_congr {n : Node} (hns : ns.length = n.children.length)
    (h : ns.map isElif = ns'.map isElif) (k : Nat) :
    ownCost k (n.withChildren ns) = ownCost k (n.withChildren ns') := by
  have hns' : ns'.length = n.children.length := by
    rw [← hns]
    simpa using (congrArg List.length h).symm
  rw [ownCost, ownCost, elifBranches_withChildren_congr n h, handlerEntries_withChildren hns,
    handlerEntries_withChildren hns', isControl_withChildren, isControl_withChildren]

theorem cognitiveAt_withChildren {n : Node} (h : ns.length = n.children.length) (k : Nat) :
    cognitiveAt k (n.withChildren ns) = ownCost k (n.withChildren ns) +
      total (ns.zipIdx.map fun c => cognitiveAt (k + rise (n.withChildren ns) c.2) c.1) := by
  rw [cognitiveAt_eq, costBelow, children_withChildren h]

end Node

end QualityGate
