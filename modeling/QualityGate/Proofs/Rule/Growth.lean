import QualityGate.Proofs.Node.Growth
import QualityGate.Proofs.Rule.QualifiedName

/-! Findings about functions that stand in functions. Complexity, nesting and cognitive complexity
cover all that stands in a function, so with a function that exceeds one of these limits all the
functions around it exceed it too, and by no less: they are reported for the same, at least as
bad. Lengths and parameters do not have this property. -/
namespace QualityGate.Rule.Complexity

open Node (Address ancestors definitionName? nodeAt? places)

/-- Among some findings there is one of the kind of another finding that is at least as bad. -/
def Matched (v : Violation) (ws : List Violation) : Prop :=
  ∃ w ∈ ws, w.kind = v.kind ∧ (v.severity = .error → w.severity = .error)

variable {c : FileContext} {names names' : List String} {v : Violation}

theorem Matched.left {xs ys : List Violation} (h : Matched v xs) : Matched v (xs ++ ys) := by
  obtain ⟨w, hw, hmatch⟩ := h
  exact ⟨w, List.mem_append_left _ hw, hmatch⟩

theorem Matched.right {xs ys : List Violation} (h : Matched v ys) : Matched v (xs ++ ys) := by
  obtain ⟨w, hw, hmatch⟩ := h
  exact ⟨w, List.mem_append_right _ hw, hmatch⟩

theorem kind_of_mem_exceeding {line : Nat} {name : String} {kind : Kind} {severity : Severity}
    {value limit : Nat} (hv : v ∈ exceeding c line names name kind severity value limit) :
    v.kind = kind := by
  rw [exceeding, List.mem_ite_nil_right, List.mem_singleton] at hv
  rw [hv.2]

/-- A greater value exceeds the limit too. -/
theorem matched_exceeding {line line' : Nat} {name name' : String} {kind : Kind}
    {severity : Severity} {value value' limit : Nat} (hle : value ≤ value')
    (hv : v ∈ exceeding c line names name kind severity value limit) :
    Matched v (exceeding c line' names' name' kind severity value' limit) := by
  rw [exceeding, List.mem_ite_nil_right, List.mem_singleton] at hv
  obtain ⟨hlimit, rfl⟩ := hv
  rw [exceeding, if_pos (hlimit.trans_le hle)]
  exact ⟨_, List.mem_singleton_self _, rfl, id⟩

theorem matched_branching {line line' : Nat} {name name' : String} {value value' : Nat}
    (hle : value ≤ value') (hv : v ∈ branching c line names name value) :
    Matched v (branching c line' names' name' value') := by
  rw [branching, List.mem_ite_nil_right, List.mem_singleton] at hv
  obtain ⟨hlimit, rfl⟩ := hv
  rw [branching, if_pos (hlimit.trans_le hle)]
  refine ⟨_, List.mem_singleton_self _, rfl, fun herror => ?_⟩
  -- a value above the maximum stays above it
  dsimp only at herror ⊢
  split_ifs at herror with hmax
  exact if_pos (hmax.trans_le hle)

/-- What a function is reported for, all functions that hold it are reported for. -/
theorem matched_ownReport {d n : Node} (hd : d ∈ n.walk) (hn : n.functionHead?.isSome)
    (hv : v ∈ ownReport c names d)
    (hkind : v.kind ∈ [.complexity, .nesting, .cognitiveComplexity]) :
    Matched v (ownReport c names' n) := by
  have hcyclomatic := Node.cyclomatic_le_of_mem_walk hd
  have hcognitive := Node.cognitive_le_of_mem_walk hd
  have hnesting := Node.nestingDepth_le_of_mem_walk hd
  cases n with
  | functionDef span head body =>
    cases d with
    | functionDef span' head' body' =>
      simp only [ownReport, ofFunction, FunctionMetrics.measure, List.mem_append] at hv
      simp only [ownReport, ofFunction, FunctionMetrics.measure]
      rcases hv with (((hv | hv) | hv) | hv) | hv
      · exact (matched_branching hcyclomatic hv).left.left.left.left
      · rw [kind_of_mem_exceeding hv] at hkind
        simp at hkind
      · rw [kind_of_mem_exceeding hv] at hkind
        simp at hkind
      · exact (matched_exceeding hnesting hv).right.left
      · exact (matched_exceeding hcognitive hv).right
    | _ => simp [ownReport] at hv
  | _ => cases hn

theorem labelled_of_mem_ownReport {n : Node} (hv : v ∈ ownReport c names n) :
    v.function = n.functionHead?.map (·.name) ∧ v.line = n.line := by
  cases n with
  | functionDef span head body => exact ((ownReport_covers c names span head body).labelled v hv).2
  | _ => simp [ownReport] at hv

/-- All that stands in a tree measures no more than the tree. So where the complexity rule reports a
function for its complexity, its nesting or its cognitive complexity, it reports every function
around it for the same, with a severity at least as high. -/
theorem check_grows_outwards :
    (∀ n d : Node, d ∈ n.walk → d.cyclomatic ≤ n.cyclomatic ∧ d.cognitive ≤ n.cognitive ∧
      d.nestingDepth ≤ n.nestingDepth) ∧
    ∀ (c : FileContext) (u : SourceUnit),
      let functions := (places u.body).filter (·.2.functionHead?.isSome)
      let findings (p : Address × Node) :=
        ownReport c ((ancestors u.body p.1).filterMap definitionName?) p.2
      check c u = ofLength c u.lineCount ++ functions.flatMap findings ∧
      (∀ p ∈ functions, ∀ v ∈ findings p,
        v.function = p.2.functionHead?.map (·.name) ∧ v.line = p.2.line) ∧
      ∀ p ∈ functions, ∀ q ∈ functions, p.1 <+: q.1 → ∀ v ∈ findings q,
        v.kind ∈ [.complexity, .nesting, .cognitiveComplexity] →
        ∃ w ∈ findings p, w.kind = v.kind ∧ (v.severity = .error → w.severity = .error) := by
  refine ⟨fun n d hd => ⟨Node.cyclomatic_le_of_mem_walk hd, Node.cognitive_le_of_mem_walk hd,
    Node.nestingDepth_le_of_mem_walk hd⟩, fun c u => ?_⟩
  intro functions findings
  refine ⟨?_, fun p _ v hv => labelled_of_mem_ownReport hv, fun p hp q hq hpq v hv hkind => ?_⟩
  · rw [check_eq, Node.flatMap_walkAllWith_filter ownReport_of_not]
    simp only [foldl_namesBelow]
    rfl
  · obtain ⟨hp, hfunction⟩ := (Node.mem_filter_places_iff (·.functionHead?.isSome)).mp hp
    obtain ⟨hq, -⟩ := (Node.mem_filter_places_iff (·.functionHead?.isSome)).mp hq
    exact matched_ownReport (Node.mem_walk_of_isPrefix hp hq hpq) hfunction hv hkind

/-- A branch in a method of a class in a function nests both functions too deep. -/
theorem check_grows_outwards_method :
    let c : FileContext :=
      .withTags ⟨"a.py"⟩ ⟨"."⟩ { Thresholds.standard with maxNestingDepth := 0 } (.uniform .core)
    let g : Node := .functionDef ⟨3, 5⟩ ⟨"g", [], false⟩
      [.branch ⟨4, 5⟩ false (.name ⟨4, 4⟩ "x") [.pass ⟨5, 5⟩] []]
    let f : Node := .functionDef ⟨1, 5⟩ ⟨"f", [], false⟩ [.classDef ⟨2, 5⟩ ⟨"C", []⟩ [g]]
    let body := [f]
    g ∈ f.walk ∧ g.cognitive ≤ f.cognitive ∧
      nodeAt? body [0] = some f ∧ nodeAt? body [0, 0, 0] = some g ∧
      ∃ v ∈ ownReport c ["f", "C"] g, v.kind = .nesting ∧
        ∃ w ∈ ownReport c [] f, w.kind = .nesting ∧ w.severity = .error := by
  intro c g f body
  have hg : g ∈ f.walk := by simp [f, g, Node.walk_eq, Node.walkAll, Node.children]
  have houter : nodeAt? body [0] = some f := rfl
  have hinner : nodeAt? body [0, 0, 0] = some g := rfl
  obtain ⟨hmeasures, hrule⟩ := check_grows_outwards
  obtain ⟨-, -, hmatch⟩ := hrule c ⟨⟨"a.py"⟩, 5, body⟩
  have hp : (([0], f) : Address × Node) ∈ (places body).filter (·.2.functionHead?.isSome) :=
    (Node.mem_filter_places_iff (·.functionHead?.isSome)).mpr ⟨houter, rfl⟩
  have hq : (([0, 0, 0], g) : Address × Node) ∈
      (places body).filter (·.2.functionHead?.isSome) :=
    (Node.mem_filter_places_iff (·.functionHead?.isSome)).mpr ⟨hinner, rfl⟩
  have hfound : ∃ v ∈ ownReport c ["f", "C"] g, v.kind = .nesting ∧ v.severity = .error := by
    decide +kernel
  obtain ⟨v, hv, hkind, hseverity⟩ := hfound
  obtain ⟨w, hw, hsame, hworse⟩ :=
    hmatch _ hp _ hq ⟨[0, 0], rfl⟩ v hv (by rw [hkind]; simp)
  exact ⟨hg, (hmeasures f g hg).2.1, houter, hinner, v, hv, hkind, w, hw, hsame.trans hkind,
    hworse hseverity⟩

end QualityGate.Rule.Complexity
