import QualityGate.Proofs.Cst.Region
import QualityGate.Proofs.Sequence.Traversal
import QualityGate.Python.Grammar.Module

/-! Chains of conditions as single nodes. However the conditions of a chain are nested, the chain
becomes one node, with a value for every operand of its region in source order. -/
namespace QualityGate.Python.Lowering

variable {source : Array Char} {c : Cst} {limit : Nat}

/-- A chain is lowered when its operands are, one level below it. -/
theorem lower_eq_boolOp_iff (hk : c.kind = .booleanOperator) {n : Node} :
    lower source (limit + 1) (.whole c) = some n ↔
      ∃ values, n = .boolOp c.span c.boolOperator values ∧
        List.Forall₂ (fun d value => lower source limit (.whole d) = some value)
          (c.operands c.boolOperator) values := by
  have hlevel : lower source (limit + 1) (.whole c) =
      (all (lower source limit) (c.operands c.boolOperator)).map
        (.boolOp c.span c.boolOperator) := by
    rw [lower, level, whole, hk]
    exact (Option.map_eq_bind ..).symm
  rw [hlevel, Option.map_eq_some_iff]
  refine exists_congr fun values => ?_
  rw [all, mapM_eq_some_iff, and_comm, eq_comm (a := n)]

/-- Taking a chain apart comes to an end. It is lowered just when its operands are, to one node with
their nodes as values. Its region is the largest part of it that hangs together with its root by
the operator. The operands are the sides of the nodes of the region that are outside of it: what
has the other operator or stands in parentheses is one operand. They come from left to right, also
in a tree with places, and there is one more of them than there are nodes in the region. -/
theorem lower_booleanOperator (hk : c.kind = .booleanOperator)
    (hsides : ∀ d ∈ c.nodes, d.kind = .booleanOperator →
      (d.child? .left).isSome ∧ (d.child? .right).isSome) :
    let op := c.boolOperator
    (WellFounded fun s' s : Cst.Flattening => s.step? op = some s') ∧
    (∀ limit n, lower source (limit + 1) (.whole c) = some n ↔
      ∃ values, n = .boolOp c.span op values ∧
        List.Forall₂ (fun d value => lower source limit (.whole d) = some value)
          (c.operands op) values) ∧
    [] ∈ c.region op ∧ IsGreatest {S | c.IsTract op S} {r | r ∈ c.region op} ∧
    (c.region op).Nodup ∧
    (c.operandPlaces op).map Prod.snd = c.operands op ∧
    (∀ r d, (r, d) ∈ c.operandPlaces op ↔ c.follow? r = some d ∧
      ¬(d.kind = .booleanOperator ∧ d.boolOperator = op) ∧
      ∃ p ∈ c.region op, ∃ s, r = p ++ [s]) ∧
    ((c.operandPlaces op).Pairwise fun p q => p.1.Precedes q.1) ∧
    (c.operands op).length = (c.region op).length + 1 ∧ 2 ≤ (c.operands op).length ∧
    ((∀ d ∈ c.nodes, d.isPlaced) → (c.operands op).Pairwise fun d e => d.stop ≤ e.start) := by
  intro op
  have hjoins : c.joins op := by simp [Cst.joins, hk, op]
  have hroot : [] ∈ c.region op := Cst.nil_mem_region.mpr hjoins
  have hplaces := Cst.map_snd_operandPlaces op c
  have hlength : (c.operands op).length = (c.region op).length + 1 := by
    rw [← hplaces, List.length_map, Cst.length_operandPlaces hsides]
  have hmembers : ∀ r d, (r, d) ∈ c.operandPlaces op ↔ c.follow? r = some d ∧
      ¬(d.kind = .booleanOperator ∧ d.boolOperator = op) ∧
      ∃ p ∈ c.region op, ∃ s, r = p ++ [s] := by
    intro r d
    rw [Cst.mem_operandPlaces_iff, ← Bool.not_eq_true, Cst.joins, Bool.and_eq_true,
      decide_eq_true_eq, decide_eq_true_eq]
    refine and_congr_right fun hd => and_congr_right fun hother => or_iff_right ?_
    -- the chain itself has the operator, so an operand stands below it
    rintro rfl
    obtain rfl := Option.some.inj hd
    exact hother ⟨hk, rfl⟩
  refine ⟨Cst.Flattening.wellFounded_step op, fun limit n => lower_eq_boolOp_iff hk, hroot,
    Cst.isGreatest_region op c, Cst.nodup_region op c, hplaces, hmembers,
    Cst.pairwise_precedes_operandPlaces op c, hlength, ?_, fun h => (Cst.operands_in_order h).2⟩
  have hsome := List.length_pos_of_mem hroot
  omega

/-- A chain whose operands are a name, a chain of the other operator, one in parentheses and
another name. -/
theorem lower_booleanOperator_mixed :
    let text := "x or y and z or (u or v) or w\n"
    let source := text.toList.toArray
    ∃ c values, (Cst.ofSource? text).bind
        (fun m => m.nodes.find? (·.kind = .booleanOperator)) = some c ∧
      c.kind = .booleanOperator ∧
      (∀ d ∈ c.nodes, d.kind = .booleanOperator →
        (d.child? .left).isSome ∧ (d.child? .right).isSome) ∧
      (c.operands .disjunction).map (Cst.text source) = ["x", "y and z", "(u or v)", "w"] ∧
      c.region .disjunction = [[], [.left], [.left, .left]] ∧
      lower source maxLevels (.whole c) = some (.boolOp c.span .disjunction values) ∧
      values.length = 4 ∧
      (c.operands .disjunction).Pairwise fun d e => d.stop ≤ e.start := by
  intro text source
  have hcheck : ((Cst.ofSource? text).bind fun m =>
      m.nodes.find? (·.kind = .booleanOperator)).any fun c =>
      c.kind = .booleanOperator && c.boolOperator = .disjunction &&
        (c.nodes.all fun d => d.kind != .booleanOperator ||
          (d.child? .left).isSome && (d.child? .right).isSome) && c.nodes.all Cst.isPlaced &&
        (c.operands .disjunction).map (Cst.text source) = ["x", "y and z", "(u or v)", "w"] &&
        c.region .disjunction = [[], [.left], [.left, .left]] &&
        (lower source maxLevels (.whole c)).isSome := by decide +kernel
  obtain ⟨c, hc, h⟩ := (Option.any_eq_true ..).mp hcheck
  simp only [Bool.and_eq_true, decide_eq_true_eq, List.all_eq_true] at h
  obtain ⟨⟨⟨⟨⟨⟨hk, hop⟩, hsides⟩, hplaced⟩, htexts⟩, hregion⟩, hsome⟩ := h
  have hsides : ∀ d ∈ c.nodes, d.kind = .booleanOperator →
      (d.child? .left).isSome ∧ (d.child? .right).isSome := by
    intro d hd hkind
    simpa [hkind] using hsides d hd
  obtain ⟨-, hlower, -, -, -, -, -, -, hlength, -, horder⟩ :=
    @lower_booleanOperator source c hk hsides
  rw [hop] at hlower hlength horder
  obtain ⟨n, hn⟩ := Option.isSome_iff_exists.mp hsome
  obtain ⟨values, rfl, hvalues⟩ := (hlower 199 n).mp hn
  refine ⟨c, values, hc, hk, hsides, htexts, hregion, hn, ?_, horder hplaced⟩
  rw [← hvalues.length_eq, hlength, hregion]
  rfl

end QualityGate.Python.Lowering
