import QualityGate.Proofs.Rule.Provenance
import QualityGate.Proofs.Sequence.Embedding

/-! Moving a file to the shell. A rule reads the tag of its own family only, and a tag
decides three things: how bad impurity is, whether instantiations are reported, and
whether swallowed exceptions are. Hence a move changes a report by softening or dropping
just these findings, and it never adds one. -/
namespace QualityGate

/-- The tags of a file after it moved from the core to the shell for some families. -/
def Tags.MovedToShell (before after : Tags) : Prop :=
  ∀ f, after.get f = before.get f ∨ before.get f = .core ∧ after.get f = .shell

def Tags.changes (before after : Tags) (f : Family) : Bool := after.get f ≠ before.get f

namespace Violation

/-- What becomes of a violation when its file moves to the shell for some families. -/
def afterMove (moved : Family → Bool) (v : Violation) : Option Violation :=
  if moved .design ∧ v.kind = .dipDirectInstantiation then none
  else if moved .errorHandling ∧ v.kind = .exceptionSwallowed then none
  else if moved .purity ∧ v.rule = Rule.Purity.ruleName then some { v with severity := .warning }
  else some v

/-- A finding, or the warning that an error turned into. -/
def SoftenedFrom (v w : Violation) : Prop :=
  v = w ∨ w.severity = .error ∧ v = { w with severity := .warning }

/-- A move only drops findings and softens errors. -/
theorem embeds_afterMove {moved : Family → Bool} {vs : List Violation}
    (hpure : ∀ v ∈ vs, moved .purity → v.rule = Rule.Purity.ruleName → v.severity = .error) :
    List.SublistForall₂ SoftenedFrom (vs.filterMap (afterMove moved)) vs := by
  induction vs with
  | nil => exact .nil
  | cons v vs ih =>
    have hrest := ih fun w hw => hpure w (by simp [hw])
    rw [List.filterMap_cons]
    unfold afterMove
    split_ifs with hd he hp
    · exact .cons_right hrest
    · exact .cons_right hrest
    · exact .cons (.inr ⟨hpure v (by simp) hp.1 hp.2, rfl⟩) hrest
    · exact .cons (.inl rfl) hrest

section Signed

variable {c : FileContext} {moved : Family → Bool} {v : Violation}

theorem afterMove_of_complexity (h : v.SignedBy c Rule.Complexity.ruleName .complexity) :
    v.afterMove moved = some v := by
  have hd : v.kind ≠ .dipDirectInstantiation := h.kind_ne (by decide)
  have he : v.kind ≠ .exceptionSwallowed := h.kind_ne (by decide)
  have hr : v.rule ≠ Rule.Purity.ruleName := by rw [h.rule]; decide
  simp [afterMove, hd, he, hr]

theorem afterMove_of_design (h : v.SignedBy c Rule.Design.ruleName .design) :
    v.afterMove moved = if moved .design ∧ v.kind = .dipDirectInstantiation then none else some v := by
  have he : v.kind ≠ .exceptionSwallowed := h.kind_ne (by decide)
  have hr : v.rule ≠ Rule.Purity.ruleName := by rw [h.rule]; decide
  simp [afterMove, he, hr]

theorem afterMove_of_purity (h : v.SignedBy c Rule.Purity.ruleName .purity) :
    v.afterMove moved = some (if moved .purity then { v with severity := .warning } else v) := by
  have hd : v.kind ≠ .dipDirectInstantiation := h.kind_ne (by decide)
  have he : v.kind ≠ .exceptionSwallowed := h.kind_ne (by decide)
  simp only [afterMove, hd, he, h.rule, and_false, and_true, if_false]
  split_ifs <;> rfl

theorem afterMove_of_errorHandling (h : v.SignedBy c Rule.ErrorHandling.ruleName .errorHandling) :
    v.afterMove moved =
      if moved .errorHandling ∧ v.kind = .exceptionSwallowed then none else some v := by
  have hd : v.kind ≠ .dipDirectInstantiation := h.kind_ne (by decide)
  have hr : v.rule ≠ Rule.Purity.ruleName := by rw [h.rule]; decide
  simp [afterMove, hd, hr]

end Signed

end Violation

namespace Rule

variable (c : FileContext) (after : Tags)

/-! ### Complexity -/

/-- The complexity rule reads no tag. -/
theorem Complexity.check_tags (u : SourceUnit) : check { c with tags := after } u = check c u := by
  have hown : ownReport { c with tags := after } = ownReport c := by
    funext scope n
    cases n <;> rfl
  rw [check_eq, check_eq, hown]
  rfl

/-! ### Design -/

namespace Design

theorem byPrinciple_filter (p : Violation → Bool) (vs : List Violation) :
    byPrinciple (vs.filter p) = (byPrinciple vs).filter p := by
  unfold byPrinciple
  rw [List.filter_flatMap]
  refine List.flatMap_congr fun k _ => ?_
  rw [List.filter_filter, List.filter_filter]
  simp only [Bool.and_comm]

theorem ofCascade_filter (line : Nat) (name : String) (checks : Nat) :
    (ofCascade c line name checks).filter (fun v => v.kind ≠ .dipDirectInstantiation) =
      ofCascade c line name checks := by
  refine List.filter_eq_self.mpr fun v hv => ?_
  simp only [ofCascade, List.mem_ite_nil_right, List.mem_singleton] at hv
  rw [hv.2]
  rfl

theorem map_ofMissing_filter (className name : String) (ns : List Node) :
    (ns.map fun n => ofMissing c n.line className name).filter
        (fun v => v.kind ≠ .dipDirectInstantiation) =
      ns.map fun n => ofMissing c n.line className name := by
  refine List.filter_eq_self.mpr fun v hv => ?_
  obtain ⟨n, -, rfl⟩ := List.mem_map.mp hv
  rfl

theorem filterMap_ofInstantiation_filter (name : String) (ns : List Node) :
    (ns.filterMap fun n => (instantiates? n).map (ofInstantiation c n.line name)).filter
        (fun v => v.kind ≠ .dipDirectInstantiation) = [] := by
  refine List.filter_eq_nil_iff.mpr fun v hv => ?_
  obtain ⟨n, -, hn⟩ := List.mem_filterMap.mp hv
  obtain ⟨service, -, rfl⟩ := Option.map_eq_some_iff.mp hn
  simp [ofInstantiation]

theorem ofFunction_shell (h : after.get .design = .shell) (around : Enclosing) (line : Nat)
    (name : String) (body : List Node) :
    ofFunction { c with tags := after } around line name body =
      (ofFunction c around line name body).filter fun v => v.kind ≠ .dipDirectInstantiation := by
  unfold ofFunction
  dsimp only
  rw [List.filter_append, List.filter_append, ofCascade_filter]
  congr 1
  · congr 1
    cases around with
    | inClass className => exact (map_ofMissing_filter c className name _).symm
    | _ => rfl
  · simp only [FileContext.tag, h]
    cases c.tags.get .design with
    | core => exact (filterMap_ofInstantiation_filter c name _).symm
    | shell => rfl

theorem ownReport_shell (h : after.get .design = .shell) (around : Enclosing) (n : Node) :
    ownReport { c with tags := after } around n =
      (ownReport c around n).filter fun v => v.kind ≠ .dipDirectInstantiation := by
  cases n with
  | functionDef span head body => exact ofFunction_shell c after h around span.first head.name body
  | classDef span head body =>
    refine (List.filter_eq_self.mpr fun v hv => ?_).symm
    simp only [ownReport, ofClass, ofClassSize, ofInterfaceSize, List.mem_append,
      List.mem_ite_nil_right, List.mem_singleton] at hv
    rcases hv with ⟨-, rfl⟩ | ⟨-, -, rfl⟩
    all_goals rfl
  | _ => rfl

/-- In the shell the rule says what it says in the core, except for instantiations. -/
theorem check_shell (h : after.get .design = .shell) (u : SourceUnit) :
    check { c with tags := after } u =
      (check c u).filter fun v => v.kind ≠ .dipDirectInstantiation := by
  have hlength : (ofLength c u.lineCount).filter (fun v => v.kind ≠ .dipDirectInstantiation) =
      ofLength c u.lineCount := by
    refine List.filter_eq_self.mpr fun v hv => ?_
    simp only [ofLength, List.mem_ite_nil_right, List.mem_singleton] at hv
    rw [hv.2]
    rfl
  rw [check_eq, check_eq, ← byPrinciple_filter, List.filter_append, List.filter_flatMap, hlength]
  simp only [ownReport_shell c after h]
  rfl

/-- The rule reads its own tag only. -/
theorem check_of_tag_eq (h : after.get .design = c.tag .design) (u : SourceUnit) :
    check { c with tags := after } u = check c u := by
  have hown : ownReport { c with tags := after } = ownReport c := by
    funext around n
    cases n with
    | functionDef span head body =>
      have htag : FileContext.tag { c with tags := after } .design = c.tag .design := h
      simp only [ownReport, ofFunction, htag]
      rfl
    | _ => rfl
  rw [check_eq, check_eq, hown]
  rfl

end Design

/-! ### Purity -/

namespace Purity

theorem ownReport_severity (severity severity' : Severity) (function : Option String) (n : Node) :
    ownReport { c with tags := after } severity' function n =
      (ownReport c severity function n).map fun v => { v with severity := severity' } := by
  unfold ownReport
  split
  · unfold ofAsync
    split <;> rfl
  · unfold ownFinding
    split <;> rfl

theorem severity_of_mem_ownReport {c : FileContext} {severity : Severity} {function : Option String}
    {n : Node} {v : Violation} (hv : v ∈ ownReport c severity function n) :
    v.severity = severity := by
  rcases mem_ownReport hv with ⟨name, message, rfl⟩ | ⟨name, kind, message, -, rfl⟩
  · rfl
  · rfl

/-- All findings of a file are as bad as its tag says. -/
theorem severity_of_mem_check {c : FileContext} {u : SourceUnit} {v : Violation}
    (hv : v ∈ check c u) : v.severity = severityFor (c.tag .purity) := by
  obtain ⟨function, n, -, hv⟩ := mem_check hv
  exact severity_of_mem_ownReport hv

/-- The rule reads its own tag only, and only for the severity. -/
theorem check_tags (u : SourceUnit) :
    check { c with tags := after } u =
      (check c u).map fun v => { v with severity := severityFor (after.get .purity) } := by
  rw [check_eq, check_eq, List.map_flatMap]
  refine List.flatMap_congr fun p _ => ?_
  exact ownReport_severity c after _ _ p.1 p.2

end Purity

/-! ### Error handling -/

namespace ErrorHandling

theorem ofHandler_shell (h : after.get .errorHandling = .shell) (function : Option String)
    (n : Node) :
    ofHandler { c with tags := after } function n =
      (ofHandler c function n).filter fun v => v.kind ≠ .exceptionSwallowed := by
  have htag : FileContext.tag { c with tags := after } .errorHandling = .shell := h
  unfold ofHandler
  split
  · split
    · rfl
    · rw [htag]
      split_ifs <;> first | rfl | simp_all
  · rfl

theorem ownReport_shell (h : after.get .errorHandling = .shell) (position : Nat × Option String)
    (n : Node) :
    ownReport { c with tags := after } position n =
      (ownReport c position n).filter fun v => v.kind ≠ .exceptionSwallowed := by
  cases n with
  | tryExcept span body handlers orelse final =>
    have hdepth : ∀ depth, (ofDepth c position.2 span.first depth).filter
        (fun v => v.kind ≠ .exceptionSwallowed) = ofDepth c position.2 span.first depth := by
      intro depth
      refine List.filter_eq_self.mpr fun v hv => ?_
      simp only [ofDepth, List.mem_ite_nil_right, List.mem_singleton] at hv
      rw [hv.2]
      rfl
    unfold ownReport
    rw [funext (ofHandler_shell c after h position.2), List.filter_append, List.filter_flatMap,
      hdepth]
    rfl
  | _ => rfl

/-- In the shell the rule says what it says in the core, except for swallowed exceptions. -/
theorem check_shell (h : after.get .errorHandling = .shell) (u : SourceUnit) :
    check { c with tags := after } u =
      (check c u).filter fun v => v.kind ≠ .exceptionSwallowed := by
  rw [check_eq, check_eq, List.filter_flatMap]
  simp only [ownReport_shell c after h]

/-- The rule reads its own tag only. -/
theorem check_of_tag_eq (h : after.get .errorHandling = c.tag .errorHandling) (u : SourceUnit) :
    check { c with tags := after } u = check c u := by
  have htag : FileContext.tag { c with tags := after } .errorHandling = c.tag .errorHandling := h
  have hhandler : ofHandler { c with tags := after } = ofHandler c := by
    funext function n
    cases n with
    | handler span caught name body =>
      unfold ofHandler
      rw [htag]
      rfl
    | _ => rfl
  have hown : ownReport { c with tags := after } = ownReport c := by
    funext position n
    cases n with
    | tryExcept span body handlers orelse final =>
      unfold ownReport
      rw [hhandler]
      rfl
    | _ => rfl
  rw [check_eq, check_eq, hown]

end ErrorHandling

/-! ### All rules -/

section Moves

variable {c after}

/-- A family keeps its tag, or its tag goes from core to shell. -/
theorem tag_cases (h : c.tags.MovedToShell after) (f : Family) :
    after.get f = c.tag f ∧ c.tags.changes after f = false ∨
      c.tag f = .core ∧ after.get f = .shell ∧ c.tags.changes after f = true := by
  unfold Tags.changes
  rcases h f with hsame | ⟨hcore, hshell⟩
  · exact .inl ⟨hsame, by simp [hsame]⟩
  · exact .inr ⟨hcore, hshell, by simp [hcore, hshell]⟩

theorem Complexity.check_move (u : SourceUnit) :
    check { c with tags := after } u =
      (check c u).filterMap (Violation.afterMove (c.tags.changes after)) := by
  rw [check_tags, List.filterMap_congr fun v hv =>
    Violation.afterMove_of_complexity (signed_of_mem_check hv), List.filterMap_some]

theorem Design.check_move (h : c.tags.MovedToShell after) (u : SourceUnit) :
    check { c with tags := after } u =
      (check c u).filterMap (Violation.afterMove (c.tags.changes after)) := by
  rw [List.filterMap_congr fun v hv => Violation.afterMove_of_design (signed_of_mem_check hv)]
  rcases tag_cases h .design with ⟨hsame, hchange⟩ | ⟨-, hshell, hchange⟩
  · rw [check_of_tag_eq c after hsame]
    simp [hchange]
  · rw [check_shell c after hshell, ← List.filterMap_eq_filter]
    refine List.filterMap_congr fun v _ => ?_
    simp [hchange, Option.guard, ite_not]

theorem Purity.check_move (h : c.tags.MovedToShell after) (u : SourceUnit) :
    check { c with tags := after } u =
      (check c u).filterMap (Violation.afterMove (c.tags.changes after)) := by
  rw [List.filterMap_congr fun v hv => Violation.afterMove_of_purity (signed_of_mem_check hv),
    check_tags, ← List.filterMap_eq_map]
  refine List.filterMap_congr fun v hv => ?_
  rcases tag_cases h .purity with ⟨hsame, hchange⟩ | ⟨-, hshell, hchange⟩
  · simp [hchange, hsame, ← severity_of_mem_check hv]
  · simp [hchange, hshell, severityFor]

theorem ErrorHandling.check_move (h : c.tags.MovedToShell after) (u : SourceUnit) :
    check { c with tags := after } u =
      (check c u).filterMap (Violation.afterMove (c.tags.changes after)) := by
  rw [List.filterMap_congr fun v hv => Violation.afterMove_of_errorHandling (signed_of_mem_check hv)]
  rcases tag_cases h .errorHandling with ⟨hsame, hchange⟩ | ⟨-, hshell, hchange⟩
  · rw [check_of_tag_eq c after hsame]
    simp [hchange]
  · rw [check_shell c after hshell, ← List.filterMap_eq_filter]
    refine List.filterMap_congr fun v _ => ?_
    simp [hchange, Option.guard, ite_not]

theorem check_move {r : Rule} (hr : r ∈ all) (h : c.tags.MovedToShell after) (u : SourceUnit) :
    r.check { c with tags := after } u =
      (r.check c u).filterMap (Violation.afterMove (c.tags.changes after)) := by
  simp only [all, List.mem_cons, List.not_mem_nil, or_false] at hr
  rcases hr with rfl | rfl | rfl | rfl
  · exact Complexity.check_move u
  · exact Design.check_move h u
  · exact Purity.check_move h u
  · exact ErrorHandling.check_move h u

/-- In a file that leaves the core, all impurity was an error. -/
theorem severity_of_changes {r : Rule} (hr : r ∈ all) (h : c.tags.MovedToShell after)
    (hchange : c.tags.changes after .purity) {u : SourceUnit} {v : Violation}
    (hv : v ∈ r.check c u) (hrule : v.rule = Purity.ruleName) : v.severity = .error := by
  have hcore : c.tag .purity = .core := by
    rcases tag_cases h .purity with ⟨-, hsame⟩ | ⟨hcore, -⟩
    · simp [hsame] at hchange
    · exact hcore
  have hname : r.name = Purity.ruleName := by rw [← (signed_of_mem_check hr hv).rule, hrule]
  simp only [all, List.mem_cons, List.not_mem_nil, or_false] at hr
  rcases hr with rfl | rfl | rfl | rfl
  · exact absurd hname (by decide)
  · exact absurd hname (by decide)
  · rw [Purity.severity_of_mem_check hv, hcore]
    rfl
  · exact absurd hname (by decide)

/-- The retagging law. When a file moves to the shell for some families, a rule reports what
it reported before, in the same order, except that the errors of the purity rule turn into
warnings, and instantiations and swallowed exceptions go, each if its own family moved. So a
move never adds a finding and never makes one worse. -/
theorem check_of_movedToShell {r : Rule} (hr : r ∈ all) (c : FileContext) (after : Tags)
    (h : c.tags.MovedToShell after) (u : SourceUnit) :
    r.check { c with tags := after } u =
        (r.check c u).filterMap (Violation.afterMove (c.tags.changes after)) ∧
      (c.tags.changes after .purity → ∀ v ∈ r.check c u, v.rule = Purity.ruleName →
        v.severity = .error) ∧
      List.SublistForall₂ Violation.SoftenedFrom (r.check { c with tags := after } u)
        (r.check c u) := by
  have hpure : c.tags.changes after .purity → ∀ v ∈ r.check c u, v.rule = Purity.ruleName →
      v.severity = .error := fun hchange v hv => severity_of_changes hr h hchange hv
  refine ⟨check_move hr h u, hpure, ?_⟩
  rw [check_move hr h u]
  exact Violation.embeds_afterMove fun v hv hchange => hpure hchange v hv

/-- A handler that swallows everything and one that does nothing: the move drops the finding
on the first and keeps the one on the second. -/
theorem check_of_movedToShell_handlers :
    let c : FileContext := .withTags ⟨"pkg/a.py"⟩ ⟨"."⟩ .standard (.uniform .core)
    let u : SourceUnit := ⟨⟨"pkg/a.py"⟩, 6, [.tryExcept ⟨1, 6⟩ [.pass ⟨2, 2⟩]
      [.handler ⟨3, 4⟩ (some (.name ⟨3, 3⟩ "Exception")) none [.other ⟨4, 4⟩ []],
       .handler ⟨5, 6⟩ (some (.name ⟨5, 5⟩ "ValueError")) none [.pass ⟨6, 6⟩]] [] []]⟩
    errorHandling ∈ all ∧ c.tags.MovedToShell (.uniform .shell) ∧
      (errorHandling.check c u).map (·.kind) = [.exceptionSwallowed, .exceptPass] ∧
      (errorHandling.check { c with tags := .uniform .shell } u).map (·.kind) = [.exceptPass] := by
  intro c u
  have hr : errorHandling ∈ all := by simp [all]
  have hmove : c.tags.MovedToShell (.uniform .shell) := by
    intro f
    exact .inr ⟨PerFamily.get_uniform Tag.core f, PerFamily.get_uniform Tag.shell f⟩
  refine ⟨hr, hmove, by cbv, ?_⟩
  rw [(check_of_movedToShell hr c (.uniform .shell) hmove u).1]
  cbv

end Moves

end Rule

end QualityGate
