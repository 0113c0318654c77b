import QualityGate.Proofs.Node.Replacement

/-! A branch in the other part of a branch, written as a branch that continues it or as one that
stands there on its own. The decision points and the nesting of a tree do not tell the two apart.
The cognitive complexity does: what stands in the branch sits one level deeper when it stands on its
own, and all that the tree costs besides is the same, so the difference is the same for every node
around the branch. -/
namespace QualityGate.Node

/-- Two trees with the same measures, but that the first has some more cognitive complexity, at
whatever level they sit. -/
structure CostsMore (extra : Nat) (nested flat : Node) : Prop where
  elif : flat.isElif = nested.isElif
  control : flat.isControl = nested.isControl
  decisions : flat.walk.map decisionPoints = nested.walk.map decisionPoints
  nesting : flat.nestingDepth = nested.nestingDepth
  cognitive : ∀ k, cognitiveAt k nested = cognitiveAt k flat + extra

variable {extra : Nat} {nested flat : Node}

theorem CostsMore.cyclomatic (h : CostsMore extra nested flat) :
    flat.cyclomatic = nested.cyclomatic := by
  rw [Node.cyclomatic, Node.cyclomatic, h.decisions]

theorem CostsMore.height (h : CostsMore extra nested flat) : flat.height = nested.height := by
  rw [Node.height, Node.height, weight, weight, h.control, h.nesting]

/-! ### Around the branch -/

section Parent

variable {n : Node} {i : Nat}

theorem map_set_congr {α : Type} {f : Node → α} (h : f flat = f nested) (ns : List Node) (i : Nat) :
    (ns.set i flat).map f = (ns.set i nested).map f := by
  rw [List.map_set, List.map_set, h]

theorem decisions_withChildren {ns : List Node} (h : ns.length = n.children.length) :
    (n.withChildren ns).walk.map decisionPoints =
      n.decisionPoints :: (ns.map fun c => c.walk.map decisionPoints).flatten := by
  rw [walk_eq, children_withChildren h, List.map_cons, decisionPoints_withChildren h, walkAll,
    List.map_flatMap, List.flatMap_def]

theorem decisions_withChildren_set
    (h : flat.walk.map decisionPoints = nested.walk.map decisionPoints) :
    (n.withChildren (n.children.set i flat)).walk.map decisionPoints =
      (n.withChildren (n.children.set i nested)).walk.map decisionPoints := by
  rw [decisions_withChildren List.length_set, decisions_withChildren List.length_set,
    map_set_congr h]

theorem nestingDepth_withChildren_set (h : flat.height = nested.height) :
    (n.withChildren (n.children.set i flat)).nestingDepth =
      (n.withChildren (n.children.set i nested)).nestingDepth := by
  apply nestingDepth_congr
  rw [children_withChildren List.length_set, children_withChildren List.length_set,
    map_set_congr h]

theorem zipIdx_set {α : Type} (xs : List α) (i k : Nat) (x : α) :
    (xs.set i x).zipIdx k = (xs.zipIdx k).set i (x, k + i) := by
  induction xs generalizing i k with
  | nil => rfl
  | cons y xs ih =>
    cases i with
    | zero => rfl
    | succ i =>
      rw [List.set_cons_succ, List.zipIdx_cons, List.zipIdx_cons, List.set_cons_succ, ih,
        Nat.add_right_comm, Nat.add_assoc]

/-- What a child costs more, its parent costs more. -/
theorem CostsMore.withChildren (h : CostsMore extra nested flat) (hi : i < n.children.length) :
    CostsMore extra (n.withChildren (n.children.set i nested))
      (n.withChildren (n.children.set i flat)) := by
  refine ⟨by simp, by simp, decisions_withChildren_set h.decisions,
    nestingDepth_withChildren_set h.height, fun k => ?_⟩
  have helifs := map_set_congr h.elif n.children i
  rw [cognitiveAt_withChildren List.length_set, cognitiveAt_withChildren List.length_set,
    ← ownCost_withChildren_congr List.length_set helifs]
  simp only [← rise_withChildren_congr n helifs]
  -- the edges lead to the same levels in both trees, so only the child itself counts differently
  generalize rise (n.withChildren (n.children.set i flat)) = r
  have hplace : i < n.children.zipIdx.length := by rwa [List.length_zipIdx]
  have hset := total_map_set hplace (nested, 0 + i) (flat, 0 + i) fun c =>
    cognitiveAt (k + r c.2) c.1
  have hchild := h.cognitive (k + r (0 + i))
  rw [zipIdx_set, zipIdx_set]
  dsimp only at hset
  omega

end Parent

/-! ### The branch -/

section Branch

variable {span span' : Span} {elif : Bool} {test test' : Node}
  {body orelse body' orelse' : List Node} {i : Nat}

theorem withChildren_set_orelse (i : Nat) (m : Node) :
    (Node.branch span elif test body orelse).withChildren
      ((Node.branch span elif test body orelse).children.set (body.length + i + 1) m) =
      .branch span elif test body (orelse.set i m) := by
  rw [children, List.set_cons_succ, List.set_append_right _ _ (Nat.le_add_right _ _),
    Nat.add_sub_cancel_left, withChildren, List.tail_cons, List.take_left, List.drop_left]
  rfl

/-- What is measured below a branch does not depend on its flag. -/
theorem cognitiveAt_flag (k : Nat) (flag flag' : Bool) :
    cognitiveAt k (.branch span flag test body orelse) =
      cognitiveAt k (.branch span flag' test body orelse) := by
  rw [cognitiveAt, cognitiveAt]

/-- A branch in the other part of a branch costs as much more when it stands there on its own as
there are control structures below it. -/
theorem costsMore_of_else (hi : i < orelse.length) :
    let n : Node := .branch span elif test body orelse
    let x (flag : Bool) : Node := .branch span' flag test' body' orelse'
    CostsMore ((walkAll (x true).children).countP isControl)
      (n.withChildren (n.children.set (body.length + i + 1) (x false)))
      (n.withChildren (n.children.set (body.length + i + 1) (x true))) := by
  intro n x
  have hdecisions : (x true).walk.map decisionPoints = (x false).walk.map decisionPoints := by
    rw [walk_eq, walk_eq]
    rfl
  have hheight : (x true).height = (x false).height :=
    congrArg (1 + ·) (nestingDepth_congr rfl)
  refine ⟨by simp, by simp, decisions_withChildren_set hdecisions,
    nestingDepth_withChildren_set hheight, fun k => ?_⟩
  have hset := total_map_set hi (x false) (x true) fun c =>
    if c.isElif then 1 + cognitiveAt k c else cognitiveAt (k + 1) c
  have hcontrols : (x true).walk.countP isControl =
      (walkAll (x true).children).countP isControl + 1 := by
    rw [walk_eq, List.countP_cons_of_pos rfl]
  have hdeeper : cognitiveAt (k + 1) (x false) =
      1 + cognitiveAt k (x true) + (walkAll (x true).children).countP isControl := by
    have hflag : cognitiveAt (k + 1) (x false) = cognitiveAt (k + 1) (x true) :=
      cognitiveAt_flag (k + 1) false true
    rw [hflag, cognitiveAt_eq_add (k + 1), cognitiveAt_eq_add k, hcontrols, Nat.succ_mul]
    omega
  rw [withChildren_set_orelse, withChildren_set_orelse, cognitiveAt, cognitiveAt]
  simp only [x, isElif, if_true, Bool.false_eq_true, if_false] at hset hdeeper ⊢
  omega

end Branch

/-! ### The tree -/

/-- What a node costs more, every tree costs more that the node stands in. -/
theorem CostsMore.replaceAt {t n m m' : Node} {a b : Address} (hn : descendant? t b = some n)
    (h : CostsMore extra (replaceAt n a m) (replaceAt n a m')) :
    CostsMore extra (replaceAt t (b ++ a) m) (replaceAt t (b ++ a) m') := by
  induction b generalizing t with
  | nil =>
    obtain rfl := Option.some.inj hn
    exact h
  | cons i b ih =>
    obtain ⟨c, hc, hbelow⟩ := Option.bind_eq_some_iff.mp hn
    rw [List.cons_append, replaceAt_cons hc, replaceAt_cons hc]
    exact (ih hbelow).withChildren (List.getElem?_eq_some_iff.mp hc).1

/-- For a branch in the other part of a branch anywhere in a tree, it does not matter to the
cyclomatic complexity and to the nesting depth of the tree, nor to those of any node around the
branch, whether the branch continues the other one or stands there on its own. The cognitive
complexity is greater in the second case, by the number of control structures in the branch without
the branch itself. -/
theorem cognitive_of_flattened {t : Node} {b : Address} {span span' : Span} {elif elif' : Bool}
    {test test' : Node} {body orelse body' orelse' : List Node} {i : Nat}
    (hparent : descendant? t b = some (.branch span elif test body orelse))
    (hchild : orelse[i]? = some (.branch span' elif' test' body' orelse')) :
    let x (flag : Bool) : Node := .branch span' flag test' body' orelse'
    let a := b ++ [body.length + i + 1]
    let flagged (flag : Bool) : Node := replaceAt t a (x flag)
    descendant? t a = some (x elif') ∧ flagged elif' = t ∧
    (∀ flag, descendant? (flagged flag) a = some (x flag)) ∧
    ∀ c, c <+: b → ∃ flat nested,
      descendant? (flagged true) c = some flat ∧ descendant? (flagged false) c = some nested ∧
      flat.cyclomatic = nested.cyclomatic ∧ flat.nestingDepth = nested.nestingDepth ∧
      nested.cognitive = flat.cognitive + ((x elif').walk.countP isControl - 1) := by
  intro x a flagged
  have hplace : (Node.branch span elif test body orelse).children[body.length + i + 1]? =
      some (x elif') := by
    rw [children, List.getElem?_cons_succ, List.getElem?_append_right (Nat.le_add_right _ _),
      Nat.add_sub_cancel_left, hchild]
  have hx : descendant? t a = some (x elif') := by
    rw [descendant?_append, hparent, Option.bind_some, descendant?, hplace]
    rfl
  have hcontrols : (x elif').walk.countP isControl - 1 =
      (walkAll (x true).children).countP isControl := by
    rw [walk_eq, List.countP_cons_of_pos rfl, Nat.add_sub_cancel]
    rfl
  refine ⟨hx, replaceAt_self hx, fun flag => ?_, fun c hc => ?_⟩
  · have hnew := descendant?_replaceAt hx [] (x flag)
    rwa [List.append_nil] at hnew
  · obtain ⟨rest, rfl⟩ := hc
    rw [descendant?_append] at hparent
    obtain ⟨d, hd, hbelow⟩ := Option.bind_eq_some_iff.mp hparent
    have hbase : CostsMore ((walkAll (x true).children).countP isControl)
        (replaceAt (.branch span elif test body orelse) [body.length + i + 1] (x false))
        (replaceAt (.branch span elif test body orelse) [body.length + i + 1] (x true)) := by
      rw [replaceAt_cons hplace, replaceAt_cons hplace]
      exact costsMore_of_else (List.getElem?_eq_some_iff.mp hchild).1
    have hcost := hbase.replaceAt hbelow
    have hfurther : ∀ flag, descendant? (flagged flag) c =
        some (replaceAt d (rest ++ [body.length + i + 1]) (x flag)) := by
      intro flag
      rw [← descendant?_replaceAt hd, ← List.append_assoc]
    exact ⟨_, _, hfurther true, hfurther false, hcost.cyclomatic, hcost.nesting,
      hcontrols ▸ hcost.cognitive 0⟩

/-- A loop in a handler, in a branch in the other part of a branch of a method: the class is
reported two lower where the branch continues the other one. -/
theorem cognitive_of_flattened_method :
    let x : Node := .name ⟨1, 1⟩ "x"
    let loop : Node := .loop ⟨6, 7⟩ .whileTrue [x] [x] []
    let inner (flag : Bool) : Node := .branch ⟨5, 9⟩ flag x
      [.tryExcept ⟨5, 9⟩ [x] [.handler ⟨5, 9⟩ none none [loop]] [] []] []
    let t (flag : Bool) : Node := .classDef ⟨1, 9⟩ ⟨"C", []⟩ [.functionDef ⟨2, 9⟩ ⟨"f", [], false⟩
      [x, .branch ⟨3, 9⟩ false x [x] [inner flag]]]
    descendant? (t false) [0, 1] = some (.branch ⟨3, 9⟩ false x [x] [inner false]) ∧
      replaceAt (t false) [0, 1, 2] (inner true) = t true ∧
      (t false).cognitive = (t true).cognitive + 2 := by
  intro x loop inner t
  have hparent : descendant? (t false) [0, 1] =
      some (.branch ⟨3, 9⟩ false x [x] [inner false]) := rfl
  obtain ⟨-, -, -, hcost⟩ := cognitive_of_flattened (i := 0) hparent rfl
  obtain ⟨flat, nested, hflat, hnested, -, -, hcognitive⟩ := hcost [] List.nil_prefix
  obtain rfl : t true = flat := Option.some.inj hflat
  obtain rfl : t false = nested := Option.some.inj hnested
  have hcontrols : (inner false).walk.countP isControl - 1 = 2 := by decide +kernel
  exact ⟨hparent, rfl, hcontrols ▸ hcognitive⟩

end QualityGate.Node
