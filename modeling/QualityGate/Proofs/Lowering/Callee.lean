import QualityGate.Proofs.Cst.Shape
import QualityGate.Proofs.Lowering.Children
import QualityGate.Python.Grammar.Module

/-! What a call is known as. A call keeps the node that its called expression becomes, and beside
it the name that the concrete expression spells. The two are found by different recursions: the one
sees through parentheses, the other only follows attributes down to an identifier. They agree on
every expression without parentheses around it. -/
namespace QualityGate

/-- The name that a node is, if it is one. -/
def Node.name? : Node → Option String
  | .name _ s => some s
  | _ => none

namespace Python

namespace Cst

variable {source : Array Char} {c : Cst}

/-- The names of the attributes that end an expression, the innermost first. -/
def attributeNames (source : Array Char) (c : Cst) : List String :=
  if c.kind = .attribute then
    let own := ((c.child? .attribute).map (text source)).toList
    match _h : c.child? .object with
    | some object => attributeNames source object ++ own
    | none => own
  else []
termination_by sizeOf c
decreasing_by exact sizeOf_lt_of_mem_children (mem_children_of_child? _h)

/-- Whether a call or an attribute is as the grammar has it: it is an expression that is called,
no statement and no decorated definition, and an attribute has a name. -/
def isApplied (c : Cst) : Bool :=
  match c.kind with
  | .call => (c.child? .function).any fun d =>
    d.kind != .expressionStatement && d.kind != .decoratedDefinition
  | .attribute => (c.child? .attribute).isSome
  | _ => true

theorem dotted?_of_attribute (hk : c.kind = .attribute) : c.dotted? source =
    (c.child? .object).bind fun object => (c.child? .attribute).bind fun name =>
      (object.dotted? source).map (· ++ "." ++ name.text source) := by
  rw [dotted?]
  split
  · simp_all
  · cases hobject : c.child? .object with
    | none => rfl
    | some object => cases c.child? .attribute <;> rfl
  · contradiction

theorem trail_of_attribute (hk : c.kind = .attribute) : c.trail source =
    (c.child? .object).toList.flatMap (trail source) ++
      ((c.child? .attribute).map (text source)).toList := by
  rw [trail, if_pos hk]
  split <;> simp [*]

theorem attributeNames_of_attribute (hk : c.kind = .attribute) : c.attributeNames source =
    (c.child? .object).toList.flatMap (attributeNames source) ++
      ((c.child? .attribute).map (text source)).toList := by
  rw [attributeNames, if_pos hk]
  split <;> simp [*]

theorem dotted?_of_identifier (hk : c.kind = .identifier) :
    c.dotted? source = some (c.text source) := by
  rw [dotted?]
  simp only [hk]

theorem trail_of_identifier (hk : c.kind = .identifier) : c.trail source = [c.text source] := by
  rw [trail, if_neg (by simp [hk]), if_pos hk]

theorem dotted?_of_kind (hi : c.kind ≠ .identifier) (ha : c.kind ≠ .attribute) :
    c.dotted? source = none := by
  unfold dotted?
  split <;> first | rfl | contradiction

theorem trail_of_kind (hi : c.kind ≠ .identifier) (ha : c.kind ≠ .attribute) :
    c.trail source = [] := by
  rw [trail, if_neg ha, if_neg hi]

theorem attributeNames_of_kind (ha : c.kind ≠ .attribute) : c.attributeNames source = [] := by
  rw [attributeNames, if_neg ha]

/-- Where an expression is a name with dots, the trail that it leaves spells that name. -/
theorem callee_of_dotted? {name : String} (h : c.dotted? source = some name) :
    c.callee source = name ∧ c.trail source ≠ [] := by
  induction c using induction_on_children generalizing name with
  | step c ih =>
    by_cases hi : c.kind = .identifier
    · rw [callee, trail_of_identifier hi]
      rw [dotted?_of_identifier hi] at h
      exact ⟨by simpa using h, by simp⟩
    · by_cases ha : c.kind = .attribute
      · rw [dotted?_of_attribute ha] at h
        obtain ⟨object, hobject, h⟩ := Option.bind_eq_some_iff.mp h
        obtain ⟨last, hlast, h⟩ := Option.bind_eq_some_iff.mp h
        obtain ⟨first, hfirst, rfl⟩ := Option.map_eq_some_iff.mp h
        obtain ⟨hcallee, hne⟩ := ih object (mem_children_of_child? hobject) hfirst
        have htrail : c.trail source = object.trail source ++ [last.text source] := by
          rw [trail_of_attribute ha, hobject, hlast]
          simp
        refine ⟨?_, by simp [htrail]⟩
        rw [callee, htrail, String.intercalate_append_of_ne_nil hne (by simp),
          String.intercalate_singleton, ← callee, hcallee]
      · rw [dotted?_of_kind hi ha] at h
        cases h

/-- Where it is none, the trail is that of its attributes. -/
theorem trail_of_not_dotted? (hformed : ∀ d ∈ c.nodes, d.isApplied)
    (h : c.dotted? source = none) : c.trail source = c.attributeNames source := by
  induction c using induction_on_children with
  | step c ih =>
    by_cases hi : c.kind = .identifier
    · rw [dotted?_of_identifier hi] at h
      cases h
    · by_cases ha : c.kind = .attribute
      · rw [trail_of_attribute ha, attributeNames_of_attribute ha]
        cases hobject : c.child? .object with
        | none => rfl
        | some object =>
          have hown := hformed c c.mem_nodes_self
          rw [isApplied, ha] at hown
          obtain ⟨last, hlast⟩ := Option.isSome_iff_exists.mp hown
          have hmem := mem_children_of_child? hobject
          have hnone : object.dotted? source = none := by
            simpa [dotted?_of_attribute ha, hobject, hlast] using h
          have hbelow := ih object hmem
            (fun d hd => hformed d (nodes_subset_of_mem_children hmem hd)) hnone
          simp [hbelow]
      · rw [trail_of_kind hi ha, attributeNames_of_kind ha]

end Cst

namespace Lowering

variable {source : Array Char} {f : Subtree → Option Node} {c : Cst}

/-- Whether a computation, if it has a result, has one that is no name. -/
def Nameless (x : Option Node) : Prop := Yields x fun n => n.name? = none

theorem Nameless.pure {n : Node} (h : n.name? = none) : Nameless (Pure.pure n) := Yields.pure h

theorem Nameless.bind {α : Type} {x : Option α} {g : α → Option Node} (h : ∀ a, Nameless (g a)) :
    Nameless (x >>= g) :=
  Yields.bind (P := fun _ => True) (fun _ _ => trivial) fun a _ => h a

theorem nameless_other : Nameless (other f c) := .bind fun _ => .pure rfl

theorem nameless_string : Nameless (string source f c) := by
  unfold string
  dsimp only
  split
  · exact .bind fun _ => .pure rfl
  · split <;> exact .pure rfl

/-- Whether a node around one other node leaves no node of its own. -/
def leavesNone (c : Cst) : Bool :=
  c.kind = .decoratedDefinition || c.kind = .expressionStatement
    || c.kind = .parenthesizedExpression

theorem yields_whole_name (hk : leavesNone c = false) :
    Yields (whole source f c) fun n => n.name? = c.dotted? source := by
  by_cases hi : c.kind = .identifier
  · rw [whole, hi, Cst.dotted?_of_identifier hi]
    exact .pure rfl
  · by_cases ha : c.kind = .attribute
    · rw [whole, ha]
      dsimp only
      split
      · rename_i name hname
        rw [hname]
        exact .pure rfl
      · rename_i hnone
        rw [hnone]
        exact Nameless.bind fun _ => .pure rfl
    · rw [Cst.dotted?_of_kind hi ha]
      change Nameless _
      unfold whole
      -- an expression of any other kind becomes a node of its own kind, once its parts are read
      split <;> first
        | contradiction
        | exact nameless_other
        | exact nameless_string
        | (simp [leavesNone, *] at hk; done)
        | (repeat first | exact .pure rfl | refine .bind fun _ => ?_)
      split
      · exact .bind fun _ => .pure rfl
      · exact .pure rfl

/-- What is called is a node of its own, one level below the call, and the call is known as the
trail of it. -/
theorem exists_call_of_lower {limit : Nat} {d : Cst} {n : Node} (hcall : c.kind = .call)
    (hd : c.child? .function = some d) (hn : lower source (limit + 1) (.whole c) = some n) :
    ∃ func arguments, n = .call c.span (d.callee source) func arguments ∧
      lower source limit (.whole d) = some func := by
  rw [lower, level, whole, hcall] at hn
  dsimp only at hn
  rw [call, childOr, hd] at hn
  obtain ⟨arguments, -, hn⟩ := Option.bind_eq_some_iff.mp hn
  obtain ⟨func, hfunc, hn⟩ := Option.bind_eq_some_iff.mp hn
  exact ⟨func, arguments, (Option.some.inj hn).symm, hfunc⟩

theorem name?_of_lower {limit : Nat} {n : Node} (hk : leavesNone c = false)
    (hn : lower source limit (.whole c) = some n) : n.name? = c.dotted? source := by
  cases limit with
  | zero => cases hn
  | succ limit => exact yields_whole_name hk n hn

/-- A call of the grammar is known as the name that its called expression becomes, and else as
the attributes that end that expression. Only an expression in parentheses leaves no trail,
whatever it becomes. -/
theorem callee_of_lower {limit : Nat} {n : Node} (hcall : c.kind = .call)
    (hformed : ∀ e ∈ c.nodes, e.isApplied)
    (hn : lower source (limit + 1) (.whole c) = some n) :
    ∃ d callee func arguments, c.child? .function = some d ∧
      n = .call c.span callee func arguments ∧ lower source limit (.whole d) = some func ∧
      (d.kind = .parenthesizedExpression → callee = "") ∧
      (d.kind ≠ .parenthesizedExpression → ∀ name, func.name? = some name → callee = name) ∧
      (func.name? = none → callee = ".".intercalate (d.attributeNames source)) := by
  have hown := hformed c c.mem_nodes_self
  rw [Cst.isApplied, hcall] at hown
  obtain ⟨d, hd, hkind⟩ := (Option.any_eq_true ..).mp hown
  obtain ⟨func, arguments, hnode, hfunc⟩ := exists_call_of_lower hcall hd hn
  refine ⟨d, d.callee source, func, arguments, hd, hnode, hfunc, ?_, ?_, ?_⟩
  · intro hparentheses
    rw [Cst.callee, Cst.trail_of_kind (by simp [hparentheses]) (by simp [hparentheses])]
    rfl
  · intro hparentheses name hname
    have hleaves : leavesNone d = false := by simp_all [leavesNone]
    rw [name?_of_lower hleaves hfunc] at hname
    exact (Cst.callee_of_dotted? hname).1
  · intro hname
    rw [Cst.callee]
    congr 1
    by_cases hparentheses : d.kind = .parenthesizedExpression
    · rw [Cst.trail_of_kind (by simp [hparentheses]) (by simp [hparentheses]),
        Cst.attributeNames_of_kind (by simp [hparentheses])]
    · have hleaves : leavesNone d = false := by simp_all [leavesNone]
      rw [name?_of_lower hleaves hfunc] at hname
      refine Cst.trail_of_not_dotted? (fun e he => hformed e ?_) hname
      exact Cst.nodes_subset_of_mem_children (Cst.mem_children_of_child? hd) he

/-- Attributes behind a subscript: of the name in front of it nothing is left. -/
theorem callee_of_lower_subscript :
    let text := "pool(a)[b.c].session.query(x)\n"
    let source := text.toList.toArray
    ∃ c n, (Cst.ofSource? text).bind (fun m => m.nodes.find? (·.kind = .call)) = some c ∧
      c.kind = .call ∧ (∀ e ∈ c.nodes, e.isApplied) ∧
      lower source maxLevels (.whole c) = some n ∧
      ∃ callee func arguments, n = .call c.span callee func arguments ∧ func.name? = none ∧
        callee = "session.query" := by
  intro text source
  have hcheck : ((Cst.ofSource? text).bind fun m => m.nodes.find? (·.kind = .call)).any fun c =>
      c.kind = .call && c.nodes.all Cst.isApplied && (lower source maxLevels (.whole c)).isSome &&
        (c.child? .function).any fun d =>
          (lower source 199 (.whole d)).all (·.name? = none) &&
            ".".intercalate (d.attributeNames source) = "session.query" := by decide +kernel
  obtain ⟨c, hc, h⟩ := (Option.any_eq_true ..).mp hcheck
  simp only [Bool.and_eq_true, decide_eq_true_eq, List.all_eq_true] at h
  obtain ⟨⟨⟨hcall, hformed⟩, hsome⟩, hfunction⟩ := h
  obtain ⟨n, hn⟩ := Option.isSome_iff_exists.mp hsome
  have hn' : lower source (199 + 1) (.whole c) = some n := hn
  obtain ⟨d, callee, func, arguments, hd, hnode, hfunc, -, -, htrail⟩ :=
    callee_of_lower hcall hformed hn'
  simp only [hd, hfunc, Option.any_some, Option.all_some, Bool.and_eq_true,
    decide_eq_true_eq] at hfunction
  refine ⟨c, n, hc, hcall, hformed, hn, callee, func, arguments, hnode, hfunction.1, ?_⟩
  rw [htrail hfunction.1, hfunction.2]

/-- A name in parentheses is called, and the call is known as nothing. -/
theorem callee_lost_in_parentheses :
    let text := "(open)(path)\n"
    let source := text.toList.toArray
    ∃ c callee func arguments,
      (Cst.ofSource? text).bind (fun m => m.nodes.find? (·.kind = .call)) = some c ∧
      (∀ e ∈ c.nodes, e.isApplied) ∧
      lower source maxLevels (.whole c) = some (.call c.span callee func arguments) ∧
      func.name? = some "open" ∧ callee = "" := by
  intro text source
  have hcheck : ((Cst.ofSource? text).bind fun m => m.nodes.find? (·.kind = .call)).any fun c =>
      c.kind = .call && c.nodes.all Cst.isApplied && (lower source maxLevels (.whole c)).isSome &&
        (c.child? .function).any fun d => d.callee source = "" &&
          (lower source 199 (.whole d)).all (·.name? = some "open") := by decide +kernel
  obtain ⟨c, hc, h⟩ := (Option.any_eq_true ..).mp hcheck
  simp only [Bool.and_eq_true, decide_eq_true_eq, List.all_eq_true] at h
  obtain ⟨⟨⟨hcall, hformed⟩, hsome⟩, hfunction⟩ := h
  obtain ⟨n, hn⟩ := Option.isSome_iff_exists.mp hsome
  obtain ⟨d, hd, h⟩ := (Option.any_eq_true ..).mp hfunction
  obtain ⟨func, arguments, rfl, hfunc⟩ := exists_call_of_lower hcall hd hn
  simp only [hfunc, Option.all_some, Bool.and_eq_true, decide_eq_true_eq] at h
  exact ⟨c, d.callee source, func, arguments, hc, hformed, hn, h.2, h.1⟩

end Lowering

end Python
end QualityGate
