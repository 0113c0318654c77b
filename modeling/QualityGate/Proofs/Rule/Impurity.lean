import QualityGate.Proofs.Node.Ancestors
import QualityGate.Proofs.Rule.Locality

/-! What the purity rule reports, node by node. The rule walks the tree with the name of the current
function in hand and puts the outer name back when it leaves a function. What it finds is one thing
for each place in the tree: an asynchronous function under its own name, and any other impure node
under the name of the innermost function around it, if there is one. -/
namespace QualityGate.Rule.Purity

open Node (ancestors functionAround? functionHead? nodeAt? places)

/-! ### What is impure -/

/-- Whether a node is impure inside a function, and what it is reported as. -/
inductive Impure : Node → Kind → Prop
  | call {span callee func arguments k} (h : classifyCall callee = some k) :
    Impure (.call span callee func arguments) k
  | globalNames {span names} : Impure (.globalNames span names) .globalState
  | nonlocalNames {span names} : Impure (.nonlocalNames span names) .nonlocalState
  | await {span value} : Impure (.await span value) .asynchrony
  | asyncLoop {span header body orelse} :
    Impure (.loop span .asyncForEach header body orelse) .asynchrony
  | asyncBlock {span items body} : Impure (.withBlock span true items body) .asynchrony

theorem impurity?_iff {n : Node} {k : Kind} :
    (∃ message, impurity? n = some (k, message)) ↔ Impure n k := by
  constructor
  · rintro ⟨message, h⟩
    unfold impurity? at h
    split at h
    · obtain ⟨k', hk, heq⟩ := Option.map_eq_some_iff.mp h
      obtain ⟨rfl, -⟩ := Prod.mk.inj heq
      exact .call hk
    all_goals cases h
    · exact .globalNames
    · exact .nonlocalNames
    · exact .await
    · exact .asyncLoop
    · exact .asyncBlock
  · intro h
    cases h with
    | call h => exact ⟨_, by rw [impurity?, h]; rfl⟩
    | _ => exact ⟨_, rfl⟩

/-! ### What is reported -/

/-- The finding for a node with a function around it or none: an asynchronous function anywhere, and
an impure node inside a function. -/
def findingFor? (c : FileContext) (severity : Severity) (around : Option FunctionHead) :
    Node → Option Violation
  | .functionDef span head _ =>
    if head.isAsync then
      some (finding c severity head.name span.first .asynchrony ("async def " ++ head.name))
    else none
  | n => around.bind fun f =>
    (impurity? n).map fun found => finding c severity f.name n.line found.1 found.2

/-- What is found at a node, under which name: an asynchronous function under its own, and what is
impure under that of the function around it. -/
inductive Found (around : Option FunctionHead) : Node → String → Kind → Prop
  | asyncFunction {span head body} (h : head.isAsync) :
    Found around (.functionDef span head body) head.name .asynchrony
  | inside {n f k} (hf : around = some f) (h : Impure n k) : Found around n f.name k

/-- What is reported of a node: what is found there, as bad as the file's role makes it, on the line
where the node starts, and with the name of the function as the context. -/
structure Labels (severity : Severity) (around : Option FunctionHead) (n : Node)
    (o : Option Violation) : Prop where
  finds : ∀ name k, (∃ v, o = some v ∧ v.function = some name ∧ v.kind = k) ↔ Found around n name k
  labelled : ∀ v, o = some v → v.severity = severity ∧ v.line = n.line ∧
    v.function = some v.context ∧ v.value = none ∧ v.threshold = none

theorem findingFor?_labels (c : FileContext) (severity : Severity) (around : Option FunctionHead)
    (n : Node) : Labels severity around n (findingFor? c severity around n) where
  finds name k := by
    constructor
    · rintro ⟨v, hv, hname, hk⟩
      unfold findingFor? at hv
      split at hv
      · split_ifs at hv with hasync
        cases hv
        cases hname
        cases hk
        exact .asyncFunction hasync
      · obtain ⟨f, hf, hv⟩ := Option.bind_eq_some_iff.mp hv
        obtain ⟨⟨k', message⟩, hfound, rfl⟩ := Option.map_eq_some_iff.mp hv
        cases hname
        cases hk
        exact .inside hf (impurity?_iff.mp ⟨message, hfound⟩)
    · intro h
      cases h with
      | asyncFunction h => exact ⟨_, if_pos h, rfl, rfl⟩
      | @inside _ f _ hf h =>
        have hinside : findingFor? c severity around n = (impurity? n).map fun found =>
            finding c severity f.name n.line found.1 found.2 := by
          subst hf
          cases h <;> rfl
        obtain ⟨message, hfound⟩ := impurity?_iff.mpr h
        rw [hfound] at hinside
        exact ⟨_, hinside, rfl, rfl⟩
  labelled v hv := by
    unfold findingFor? at hv
    split at hv
    · split_ifs at hv
      cases hv
      exact ⟨rfl, rfl, rfl, rfl, rfl⟩
    · obtain ⟨f, hf, hv⟩ := Option.bind_eq_some_iff.mp hv
      obtain ⟨found, hfound, rfl⟩ := Option.map_eq_some_iff.mp hv
      exact ⟨rfl, rfl, rfl, rfl, rfl⟩

theorem ownReport_eq (c : FileContext) (severity : Severity) (around : Option FunctionHead)
    (n : Node) :
    ownReport c severity (around.map (·.name)) n = (findingFor? c severity around n).toList := by
  have hown : ownFinding c severity (around.map (·.name)) n = (around.bind fun f =>
      (impurity? n).map fun found => finding c severity f.name n.line found.1 found.2).toList := by
    cases around with
    | none => rfl
    | some f =>
      unfold ownFinding
      cases impurity? n <;> rfl
  cases n with
  | functionDef span head body =>
    simp only [ownReport, ofAsync, findingFor?]
    split <;> rfl
  | _ => exact hown

/-- The name handed down is that of the last function among the ancestors. -/
theorem foldl_functionBelow (as : List Node) :
    as.foldl functionBelow none = (as.filterMap functionHead?).getLast?.map (·.name) := by
  induction as using List.reverseRecOn with
  | nil => rfl
  | append_singleton as n ih =>
    rw [List.foldl_concat, ih, Node.getLast?_filterMap_concat]
    cases n <;> rfl

/-- Every impure node is reported once, in source order, for the innermost function around it. -/
theorem check_by_innermost_function (c : FileContext) (u : SourceUnit) :
    let ps := places u.body
    let severity := if c.tag .purity = .core then Severity.error else Severity.warning
    check c u = ps.filterMap (fun p =>
      findingFor? c severity (functionAround? u.body p.1) p.2) ∧
    ps.map Prod.snd = u.walk ∧ (∀ p, p ∈ ps ↔ nodeAt? u.body p.1 = some p.2) ∧
    (∀ n k, (∃ message, impurity? n = some (k, message)) ↔ Impure n k) ∧
    ∀ around n, Labels severity around n (findingFor? c severity around n) := by
  intro ps severity
  refine ⟨?_, Node.map_snd_places u.body, fun p => Node.mem_places_iff, fun n k => impurity?_iff,
    findingFor?_labels c severity⟩
  have hseverity : severityFor (c.tag .purity) = severity := by
    cases htag : c.tag .purity <;> simp [severity, htag, severityFor]
  rw [check_eq, Node.walkAllWith_eq_foldl, List.flatMap_map, List.filterMap_eq_flatMap_toList]
  apply List.flatMap_congr
  intro p _
  rw [foldl_functionBelow, hseverity, ← functionAround?, ownReport_eq]

-- behind an inner function the name of the outer one is in force again
example :
    let c : FileContext := .withTags ⟨"a.py"⟩ ⟨"."⟩ .standard (.uniform .shell)
    let inner : Node := .functionDef ⟨3, 4⟩ ⟨"g", [], true⟩ [.await ⟨4, 4⟩ (.name ⟨4, 4⟩ "x")]
    let u : SourceUnit := ⟨⟨"a.py"⟩, 5, [.functionDef ⟨1, 5⟩ ⟨"f", [], false⟩
      [.classDef ⟨2, 4⟩ ⟨"C", []⟩ [inner], .globalNames ⟨5, 5⟩ ["y"]]]⟩
    (check c u).map (fun v => (v.kind, v.severity, v.line, v.context)) =
      [(.asynchrony, .warning, 3, "g"), (.asynchrony, .warning, 4, "g"),
        (.globalState, .warning, 5, "f")] := by decide +kernel

end QualityGate.Rule.Purity
