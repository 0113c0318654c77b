import Mathlib.Data.List.Forall2
import QualityGate.Node.Walk
import QualityGate.Proofs.Lowering.Children
import QualityGate.Proofs.Lowering.Unlimited
import QualityGate.Python.Grammar.Module

/-! Branches with conditions behind them. The clauses behind the condition of a branch stand one
behind the other; their nodes are nested, each one in what the node before it does otherwise, and
all but the first one are marked. Nowhere else is a branch marked. -/
namespace QualityGate

namespace Node

/-! ### Nested branches -/

/-- A branch without what it does otherwise. -/
structure Arm where
  span : Span
  test : Node
  body : List Node

/-- Branches nested one in the other, with what the innermost one does otherwise. All but the first
one continue the branch around them. -/
def chain (isElif : Bool) (arm : Arm) : List Arm → List Node → Node
  | [], orelse => .branch arm.span isElif arm.test arm.body orelse
  | next :: arms, orelse =>
    .branch arm.span isElif arm.test arm.body [chain true next arms orelse]

/-- A branch and those that continue it, one after the other. -/
def links : Node → List Node
  | .branch span isElif test body [next] =>
    .branch span isElif test body [next] :: if next.isElif then links next else []
  | n => [n]

theorem links_of_unmarked (span : Span) (isElif : Bool) (test : Node) (body : List Node)
    {orelse : List Node} (h : ∀ k ∈ orelse, k.isElif = false) :
    links (.branch span isElif test body orelse) = [.branch span isElif test body orelse] := by
  match orelse with
  | [] => rw [links]; simp
  | [k] => rw [links, h k (by simp)]; rfl
  | _ :: _ :: _ => rw [links]; simp

/-- Nothing but the arms of nested branches is among their links. -/
theorem map_isElif_links_chain (isElif : Bool) (arm : Arm) (arms : List Arm) {orelse : List Node}
    (h : ∀ k ∈ orelse, k.isElif = false) :
    (chain isElif arm arms orelse).links.map Node.isElif =
      isElif :: List.replicate arms.length true := by
  induction arms generalizing isElif arm with
  | nil =>
    rw [chain, links_of_unmarked _ _ _ _ h]
    rfl
  | cons next arms ih =>
    have hmarked : (chain true next arms orelse).isElif = true := by
      cases arms <;> rfl
    rw [chain, links, hmarked, if_pos rfl, List.map_cons, ih]
    rfl

/-- Whether a branch that continues another one stands right below a node only as all that the node,
a branch, does otherwise. -/
def PlacesElifs (n : Node) : Prop :=
  ∀ i k, n.children[i]? = some k → k.isElif →
    ∃ span isElif test body, n = .branch span isElif test body [k] ∧ i = body.length + 1

theorem placesElifs_of_unmarked {n : Node} (h : ∀ k ∈ n.children, k.isElif = false) :
    n.PlacesElifs := by
  intro i k hk helif
  rw [h k (List.mem_of_getElem? hk)] at helif
  cases helif

theorem placesElifs_branch {span : Span} {isElif : Bool} {test next : Node} {body : List Node}
    (htest : test.isElif = false) (hbody : ∀ k ∈ body, k.isElif = false) :
    (branch span isElif test body [next]).PlacesElifs := by
  intro i k hk helif
  cases i with
  | zero =>
    obtain rfl : test = k := by simpa [children] using hk
    rw [htest] at helif
    cases helif
  | succ i =>
    rw [children, List.getElem?_cons_succ] at hk
    rcases Nat.lt_or_ge i body.length with hlt | hge
    · rw [List.getElem?_append_left hlt] at hk
      rw [hbody k (List.mem_of_getElem? hk)] at helif
      cases helif
    · rw [List.getElem?_append_right hge, List.getElem?_singleton] at hk
      split at hk
      · obtain rfl := Option.some.inj hk
        exact ⟨span, isElif, test, body, rfl, by omega⟩
      · cases hk

end Node

namespace Python

/-- What one computation gives another one gives as well. -/
theorem Simulates.gives : Simulates fun α (x y : Option α) => ∀ a, x = some a → y = some a where
  pure _ _ h := h
  bind hxy hfg b hb := by
    obtain ⟨a, ha, hb⟩ := Option.bind_eq_some_iff.mp hb
    exact Option.bind_eq_some_iff.mpr ⟨a, hxy a ha, hfg a b hb⟩

namespace Lowering

variable {source : Array Char} {limit : Nat}

/-- What is lowered within some levels is lowered to the same node within more of them. -/
theorem lower_mono {k : Nat} (hk : k ≤ limit) {t : Subtree} {n : Node}
    (hn : lower source k t = some n) : lower source limit t = some n := by
  rw [lower_eq_within, Counted.within_eq_some] at hn ⊢
  exact ⟨Nat.le_trans hn.1 hk, hn.2⟩

/-! ### Arms -/

/-- What a clause with a condition becomes within some levels, on given lines and apart from the
clauses behind it. -/
structure IsArm (source : Array Char) (limit : Nat) (lines : Span) (c : Cst) (arm : Node.Arm) :
    Prop where
  span : arm.span = lines
  test : childOr (lower source limit) c c .condition = some arm.test
  body : block (lower source limit) (c.child? .consequence) = some arm.body

theorem isArm_of_le {k : Nat} (hk : k ≤ limit) {c : Cst} {test : Node} {body : List Node}
    (lines : Span) (htest : childOr (lower source k) c c .condition = some test)
    (hbody : block (lower source k) (c.child? .consequence) = some body) :
    IsArm source limit lines c ⟨lines, test, body⟩ := by
  have hmono : ∀ s : Subtree, s.weight < c.count → ∀ n,
      lower source k s = some n → lower source limit s = some n := fun _ _ _ => lower_mono hk
  exact ⟨rfl, Simulates.gives.childOr hmono (Nat.le_refl _) c .condition test htest,
    Simulates.gives.blockOf hmono (Nat.le_refl _) .consequence body hbody⟩

theorem otherwise_mono {k : Nat} (hk : k ≤ limit) {els : Option Cst} {ns : List Node}
    (hns : otherwise (lower source k) els = some ns) :
    otherwise (lower source limit) els = some ns := by
  have hbound : ∀ c ∈ els, c.count ≤ (els.map Cst.count).getD 0 := by
    rintro c ⟨⟩
    exact Nat.le_refl _
  exact Simulates.gives.otherwise (fun _ _ _ => lower_mono hk) hbound ns hns

/-- A branch is lowered when its condition, its body and what it does otherwise are. -/
theorem exists_of_branch {f : Subtree → Option Node} {lines : Span} {isElif : Bool} {c : Cst}
    {rest : List Cst} {n : Node} (hn : branch f lines isElif c rest = some n) :
    ∃ test body orelse, n = .branch lines isElif test body orelse ∧
      childOr f c c .condition = some test ∧ block f (c.child? .consequence) = some body ∧
      alternatives f rest = some orelse := by
  obtain ⟨test, htest, hn⟩ := Option.bind_eq_some_iff.mp hn
  obtain ⟨body, hbody, hn⟩ := Option.bind_eq_some_iff.mp hn
  obtain ⟨orelse, horelse, hn⟩ := Option.bind_eq_some_iff.mp hn
  exact ⟨test, body, orelse, (Option.some.inj hn).symm, htest, hbody, horelse⟩

/-- A branch and the conditions behind it become nested branches. -/
theorem exists_chain_of_branch {elifs : List Cst} {els : Option Cst}
    (helifs : ∀ d ∈ elifs, d.kind = .elifClause) (hels : ∀ d ∈ els, d.kind = .elseClause)
    {k : Nat} (hk : k ≤ limit) {lines : Span} {isElif : Bool} {c : Cst} {n : Node}
    (hn : branch (lower source k) lines isElif c (elifs ++ els.toList) = some n) :
    let last := ((elifs ++ els.toList).getLast?.getD c).span.last
    ∃ first arms orelse, n = Node.chain isElif first arms orelse ∧
      IsArm source limit lines c first ∧
      List.Forall₂ (fun d => IsArm source limit ⟨d.span.first, last⟩ d) elifs arms ∧
      otherwise (lower source limit) els = some orelse := by
  induction elifs generalizing k lines isElif c n with
  | nil =>
    obtain ⟨test, body, orelse, rfl, htest, hbody, horelse⟩ := exists_of_branch hn
    have horelse : otherwise (lower source k) els = some orelse := by
      cases els with
      | none => exact horelse
      | some d =>
        rw [List.nil_append, Option.toList_some, alternatives, hels d rfl] at horelse
        exact horelse
    exact ⟨⟨lines, test, body⟩, [], orelse, rfl, isArm_of_le hk lines htest hbody, .nil,
      otherwise_mono hk horelse⟩
  | cons d ds ih =>
    obtain ⟨test, body, orelse, rfl, htest, hbody, horelse⟩ := exists_of_branch hn
    rw [List.cons_append, alternatives, if_pos (helifs d List.mem_cons_self)] at horelse
    obtain ⟨m, hm, horelse⟩ := Option.bind_eq_some_iff.mp horelse
    obtain rfl := Option.some.inj horelse
    cases k with
    | zero => cases hm
    | succ k =>
      -- the node of an `elif` is a branch one level below, on the lines up to the last clause
      obtain ⟨next, arms, orelse, rfl, hnext, harms, horelse⟩ :=
        ih (fun e he => helifs e (List.mem_cons_of_mem _ he)) (Nat.le_of_succ_le hk) hm
      refine ⟨⟨lines, test, body⟩, next :: arms, orelse, rfl,
        isArm_of_le hk lines htest hbody, ?_, horelse⟩
      rw [List.cons_append, List.getLast?_cons, Option.getD_some]
      exact .cons hnext harms

/-! ### Marks -/

/-- Only an `elif` becomes a marked branch. -/
theorem isElif_of_lower {c : Cst} {n : Node} (hn : lower source limit (.whole c) = some n) :
    n.isElif = false := by
  induction limit generalizing c n with
  | zero => cases hn
  | succ limit ih =>
    cases yields_level _ n hn with
    | part below =>
      obtain ⟨d, hd⟩ := below
      exact ih hd
    | node isElif _ => exact isElif
    | branch isBranch =>
      obtain ⟨_, _, _, _, rfl, -⟩ := isBranch
      rfl

theorem isElif_of_below {n : Node} (hn : Below (lower source limit) n) : n.isElif = false := by
  obtain ⟨c, hc⟩ := hn
  exact isElif_of_lower hc

theorem isElif_of_childOf {t : Subtree} {n : Node} (hn : ChildOf (lower source limit) t n) :
    n.isElif = false := by
  rcases hn with hbelow | ⟨place, -, rfl⟩
  · exact isElif_of_below hbelow
  · rfl

/-- The clause behind all conditions holds no marked branch. -/
theorem isElif_of_otherwise {els : Option Cst} {ns : List Node}
    (hns : otherwise (lower source limit) els = some ns) : ∀ k ∈ ns, k.isElif = false :=
  fun k hk => isElif_of_below (yields_block _ ns hns k hk)

/-- A level puts what an `elif` became only where a branch does nothing else otherwise. -/
theorem placesElifs_of_levelOf {t : Subtree} {n : Node}
    (hn : LevelOf (lower source limit) t n) :
    Below (lower source limit) n ∨ n.PlacesElifs := by
  cases hn with
  | part below => exact .inl below
  | node _ children =>
    exact .inr (Node.placesElifs_of_unmarked fun k hk => isElif_of_childOf (children k hk))
  | branch isBranch =>
    obtain ⟨lines, test, body, orelse, rfl, htest, hbody, horelse⟩ := isBranch
    have htest := isElif_of_childOf htest
    have hbody : ∀ k ∈ body, k.isElif = false := fun k hk => isElif_of_below (hbody k hk)
    rcases horelse with hall | ⟨next, clause, rest, -, rfl⟩
    · refine .inr (Node.placesElifs_of_unmarked fun k hk => ?_)
      simp only [Node.children, List.mem_cons, List.mem_append] at hk
      rcases hk with rfl | hk | hk
      · exact htest
      · exact hbody k hk
      · exact isElif_of_below (hall k hk)
    · exact .inr (Node.placesElifs_branch htest hbody)

/-- Everywhere in a lowered tree marked branches continue the branch around them. -/
theorem placesElifs_of_lower {t : Subtree} {n : Node} (hn : lower source limit t = some n) :
    ∀ m ∈ n.walk, m.PlacesElifs := by
  induction limit generalizing t n with
  | zero => cases hn
  | succ limit ih =>
    have hlevel := yields_level t n hn
    rcases placesElifs_of_levelOf hlevel with ⟨c, hc⟩ | hown
    · exact ih hc
    · rcases hlevel.origin with ⟨s, hs⟩ | hchildren
      · exact ih hs
      · intro m hm
        rw [Node.walk_eq, List.mem_cons, Node.walkAll, List.mem_flatMap] at hm
        rcases hm with rfl | ⟨k, hk, hm⟩
        · exact hown
        · rcases hchildren k hk with ⟨s, hs⟩ | ⟨place, -, rfl⟩
          · exact ih hs m hm
          · -- a placeholder has nothing below it
            obtain rfl : m = placeholder place := by
              simpa [Node.walk_eq, placeholder, Node.children] using hm
            exact Node.placesElifs_of_unmarked (by simp [placeholder, Node.children])

/-- A branch with any number of `elif` clauses and at most one `else` clause behind them that is
lowered within the limit becomes nested branches, one for each condition in source order, of which
all but the first one are marked. The innermost one does otherwise what the `else` clause says, and
no statement of that clause is marked. And wherever a module has a marked branch, that branch is all
that another one does otherwise. -/
theorem branches_marked (source : Array Char) :
    (∀ limit c elifs els n, c.kind = .ifStatement →
      c.childrenAs .alternative = elifs ++ els.toList →
      (∀ d ∈ elifs, d.kind = .elifClause) → (∀ d ∈ els, d.kind = .elseClause) →
      lower source limit (.whole c) = some n →
      let last := ((elifs ++ els.toList).getLast?.getD c).span.last
      ∃ first arms orelse, n = Node.chain false first arms orelse ∧
        n.links.map Node.isElif = false :: List.replicate elifs.length true ∧
        IsArm source limit c.span c first ∧
        List.Forall₂ (fun d => IsArm source limit ⟨d.span.first, last⟩ d) elifs arms ∧
        otherwise (lower source limit) els = some orelse ∧ ∀ k ∈ orelse, k.isElif = false) ∧
    ∀ c body, statements source c = some body →
      (∀ n ∈ body, n.isElif = false) ∧ ∀ n ∈ Node.walkAll body, n.PlacesElifs := by
  refine ⟨fun limit c elifs els n hk hclauses helifs hels hn => ?_, fun c body hbody => ?_⟩
  · cases limit with
    | zero => cases hn
    | succ limit =>
      rw [lower, level, whole, hk] at hn
      dsimp only at hn
      rw [hclauses] at hn
      obtain ⟨first, arms, orelse, rfl, hfirst, harms, horelse⟩ :=
        exists_chain_of_branch helifs hels (Nat.le_succ limit) hn
      have hunmarked := isElif_of_otherwise horelse
      refine ⟨first, arms, orelse, rfl, ?_, hfirst, harms, horelse, hunmarked⟩
      rw [Node.map_isElif_links_chain _ _ _ hunmarked, harms.length_eq]
  · have hbelow := yields_all c.parts body hbody
    refine ⟨fun n hn => isElif_of_below (hbelow n hn), fun m hm => ?_⟩
    obtain ⟨n, hn, hm⟩ := List.mem_flatMap.mp hm
    obtain ⟨d, hd⟩ := hbelow n hn
    exact placesElifs_of_lower hd m hm

/-- A branch with two `elif` clauses, of which the first one holds another branch of this kind, and
with a branch in its `else` clause. -/
theorem branches_marked_nested :
    let text := "if a: p\nelif b:\n  if c: q\n  elif d: r\nelif e: s\nelse:\n  if f: t\n"
    let source := text.toList.toArray
    ∃ m c n first arms orelse, Cst.ofSource? text = some m ∧ m.parts = [c] ∧
      lower source maxLevels (.whole c) = some n ∧ n = Node.chain false first arms orelse ∧
      n.links.map Node.isElif = [false, true, true] ∧ arms.length = 2 ∧
      (∀ k ∈ orelse, k.isElif = false) ∧ ∀ d ∈ n.walk, d.PlacesElifs := by
  intro text source
  have hcheck : (Cst.ofSource? text).any fun m => m.parts.map Cst.kind = [.ifStatement] &&
      m.parts.all fun c => (lower source maxLevels (.whole c)).isSome &&
        (c.childrenAs .alternative).map Cst.kind = [.elifClause, .elifClause, .elseClause] := by
    decide +kernel
  obtain ⟨m, hm, h⟩ := (Option.any_eq_true ..).mp hcheck
  simp only [Bool.and_eq_true, decide_eq_true_eq, List.all_eq_true] at h
  obtain ⟨c, hparts, hk⟩ := List.map_eq_singleton_iff.mp h.1
  obtain ⟨hsome, hkinds⟩ := h.2 c (by simp [hparts])
  obtain ⟨n, hn⟩ := Option.isSome_iff_exists.mp hsome
  obtain ⟨d, ds, hclauses, hd, hkinds⟩ := List.map_eq_cons_iff.mp hkinds
  obtain ⟨e, es, rfl, he, hkinds⟩ := List.map_eq_cons_iff.mp hkinds
  obtain ⟨f, rfl, hf⟩ := List.map_eq_singleton_iff.mp hkinds
  obtain ⟨first, arms, orelse, hchain, hmarks, -, harms, -, hunmarked⟩ :=
    (branches_marked source).1 maxLevels c [d, e] (some f) n hk hclauses (by simp [hd, he])
      (by simp [hf]) hn
  have hbody : statements source m = some [n] := by
    rw [statements, all, hparts, List.mapM_cons, hn]
    rfl
  have hplaces := ((branches_marked source).2 m [n] hbody).2
  exact ⟨m, c, n, first, arms, orelse, hm, hparts, hn, hchain, hmarks, harms.length_eq.symm,
    hunmarked, by simpa [Node.walkAll] using hplaces⟩

end Lowering

end Python

end QualityGate
