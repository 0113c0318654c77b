import QualityGate.Proofs.Node.Ancestors
import QualityGate.Proofs.Rule.Locality

/-! What the error-handling rule reports, `try` by `try`. The rule counts the `try` statements that it
is in and knows the function that it is in; both are read off the ancestors of a `try`, whatever lies
between them. A handler is judged by its type and its body, and at most one thing is wrong with it. -/
namespace QualityGate

namespace Node

def isTry : Node → Bool
  | tryExcept .. => true
  | _ => false

/-- The handlers of a `try`; other nodes have none. -/
def handlers : Node → List Node
  | tryExcept _ _ handlers _ _ => handlers
  | _ => []

end Node

namespace Rule.ErrorHandling

open Node (ancestors functionAround? functionHead? isTry nodeAt? places walkAll)

variable {c : FileContext} {function : Option String} {n : Node} {body : List Node}

/-! ### What is wrong with a handler -/

/-- A body that does nothing. -/
inductive Silent : List Node → Prop
  | pass {span} : Silent [.pass span]
  | text {span s} : Silent [.literal span (.str s)]

/-- A type that catches nearly everything. -/
inductive Broad : Node → Prop
  | name {span s} (h : s ∈ ["Exception", "BaseException"]) : Broad (.name span s)
  | tuple {span items span' s} (hs : s ∈ ["Exception", "BaseException"])
    (h : .name span' s ∈ items) : Broad (.tuple span items)

/-- What is wrong with a handler in a file. -/
inductive Faulty (c : FileContext) : Node → Kind → Prop
  | bare {span name body} : Faulty c (.handler span none name body) .bareExcept
  | silent {span type name body} (h : Silent body) :
    Faulty c (.handler span (some type) name body) .exceptPass
  | swallows {span type name body} (hbody : ¬ Silent body) (hcore : c.tag .errorHandling = .core)
    (htype : Broad type) (hraise : ∀ span exception cause, .raise span exception cause ∉ walkAll body) :
    Faulty c (.handler span (some type) name body) .exceptionSwallowed

theorem isSilent_iff : isSilent body = true ↔ Silent body := by
  constructor
  · intro h
    unfold isSilent at h
    split at h
    · exact .pass
    · exact .text
    · cases h
  · rintro (_ | _) <;> rfl

theorem isBroadName_name {span : Span} {s : String} :
    isBroadName (.name span s) = true ↔ s ∈ ["Exception", "BaseException"] := by
  simp [isBroadName, broadExceptions]

theorem isBroad_iff : isBroad n = true ↔ Broad n := by
  constructor
  · intro h
    unfold isBroad at h
    split at h
    · obtain ⟨item, hitem, hbroad⟩ := List.any_eq_true.mp h
      cases item with
      | name => exact .tuple (isBroadName_name.mp hbroad) hitem
      | _ => cases hbroad
    · cases n with
      | name => exact .name (isBroadName_name.mp h)
      | _ => cases h
  · intro h
    cases h with
    | @name span s hs => exact (isBroadName_name : isBroadName (.name span s) = true ↔ _).mpr hs
    | tuple hs hitem => exact List.any_eq_true.mpr ⟨_, hitem, isBroadName_name.mpr hs⟩

theorem raises_eq_false_iff :
    raises body = false ↔ ∀ span exception cause, .raise span exception cause ∉ walkAll body := by
  rw [raises, List.any_eq_false]
  constructor
  · intro h span exception cause hmem
    exact h _ hmem rfl
  · intro h m hm hraise
    cases m with
    | raise span exception cause => exact h span exception cause hm
    | _ => cases hraise

section Fault

variable {span : Span} {type : Node} {name : Option String} {k : Kind}

theorem faulty_bare_iff : Faulty c (.handler span none name body) k ↔ .bareExcept = k := by
  constructor
  · rintro ⟨⟩
    rfl
  · rintro rfl
    exact .bare

theorem faulty_silent_iff (hbody : Silent body) :
    Faulty c (.handler span (some type) name body) k ↔ .exceptPass = k := by
  constructor
  · intro h
    cases h with
    | silent => rfl
    | swallows h => exact absurd hbody h
  · rintro rfl
    exact .silent hbody

/-- A handler with a type that does something can only swallow what it catches. -/
theorem faulty_loud_iff (hbody : ¬ Silent body) :
    Faulty c (.handler span (some type) name body) k ↔
      .exceptionSwallowed = k ∧ c.tag .errorHandling = .core && isBroad type && !raises body := by
  rw [Bool.and_eq_true, Bool.and_eq_true, decide_eq_true_eq, isBroad_iff, Bool.not_eq_true',
    raises_eq_false_iff]
  constructor
  · intro h
    cases h with
    | silent h => exact absurd h hbody
    | swallows _ hcore htype hraise => exact ⟨rfl, ⟨hcore, htype⟩, hraise⟩
  · rintro ⟨rfl, ⟨hcore, htype⟩, hraise⟩
    exact .swallows hbody hcore htype hraise

end Fault

/-- What a handler is reported for: nothing, or the one thing that is wrong with it, where the handler
starts. -/
structure Judges (c : FileContext) (function : Option String) (handler : Node)
    (vs : List Violation) : Prop where
  atMostOne : vs.length ≤ 1
  kinds : ∀ k, (∃ v ∈ vs, v.kind = k) ↔ Faulty c handler k
  labelled : ∀ v ∈ vs, v.function = function ∧ v.line = handler.line

/-- A single finding judges a handler that has nothing else wrong with it. -/
theorem Judges.singleton {v : Violation} (hfault : ∀ k, Faulty c n k ↔ v.kind = k)
    (hfunction : v.function = function) (hline : v.line = n.line) : Judges c function n [v] where
  atMostOne := Nat.le_refl 1
  kinds k := by simp [hfault k]
  labelled w hw := by
    rw [List.mem_singleton] at hw
    exact hw ▸ ⟨hfunction, hline⟩

theorem Judges.nil (hfault : ∀ k, ¬ Faulty c n k) : Judges c function n [] where
  atMostOne := Nat.zero_le 1
  kinds k := by simp [hfault k]
  labelled := by simp

theorem ofHandler_judges (c : FileContext) (function : Option String) (n : Node) :
    Judges c function n (ofHandler c function n) := by
  unfold ofHandler
  split
  · next span caught name body =>
    split
    · exact .singleton (fun k => faulty_bare_iff) rfl rfl
    · next type =>
      split_ifs with hsilent hswallows
      · exact .singleton (fun k => faulty_silent_iff (isSilent_iff.mp hsilent)) rfl rfl
      · have hbody : ¬ Silent body := fun h => hsilent (isSilent_iff.mpr h)
        exact .singleton (fun k => (faulty_loud_iff hbody).trans (and_iff_left hswallows)) rfl rfl
      · have hbody : ¬ Silent body := fun h => hsilent (isSilent_iff.mpr h)
        exact .nil fun k h => hswallows ((faulty_loud_iff hbody).mp h).2
  · next hother =>
    apply Judges.nil
    intro k h
    cases h <;> exact hother _ _ _ _ rfl

/-! ### What is reported of a `try` -/

/-- What a `try` is reported for that stands in so many of them, itself among them: nothing, or the
number when it is above the limit. -/
structure CountsNesting (c : FileContext) (function : Option String) (line depth : Nat)
    (vs : List Violation) : Prop where
  length : vs.length = if c.thresholds.maxNestedTry < depth then 1 else 0
  labelled : ∀ v ∈ vs, v.kind = .nestedTryExcept ∧ v.value = some depth ∧ v.function = function ∧
    v.line = line

theorem ofDepth_countsNesting (c : FileContext) (function : Option String) (line depth : Nat) :
    CountsNesting c function line depth (ofDepth c function line depth) := by
  unfold ofDepth
  constructor
  · dsimp only
    split_ifs <;> rfl
  · intro v hv
    rw [List.mem_ite_nil_right, List.mem_singleton] at hv
    obtain ⟨-, rfl⟩ := hv
    exact ⟨rfl, rfl, rfl, rfl⟩

/-- What is handed down is the number of `try` statements among the ancestors and the name of the
last function among them. -/
theorem foldl_positionBelow (as : List Node) : as.foldl positionBelow (0, none) =
    (as.countP isTry, (as.filterMap functionHead?).getLast?.map (·.name)) := by
  induction as using List.reverseRecOn with
  | nil => rfl
  | append_singleton as n ih =>
    rw [List.foldl_concat, ih, Node.getLast?_filterMap_concat, List.countP_append]
    cases n <;> rfl

/-- Only a `try` is reported. -/
theorem ownReport_of_not (position : Nat × Option String) (h : n.isTry = false) :
    ownReport c position n = [] := by
  cases n <;> first | rfl | cases h

theorem ownReport_of_isTry (position : Nat × Option String) (h : n.isTry) :
    ownReport c position n = n.handlers.flatMap (ofHandler c position.2)
      ++ ofDepth c position.2 n.line (position.1 + 1) := by
  cases n <;> first | rfl | cases h

/-- Every `try` is reported where it stands, for its handlers and then for how deep it is nested. -/
theorem check_by_position (c : FileContext) (u : SourceUnit) :
    let tries := (places u.body).filter (·.2.isTry)
    check c u = (tries.flatMap fun p =>
      let function := (functionAround? u.body p.1).map (·.name)
      p.2.handlers.flatMap (ofHandler c function)
        ++ ofDepth c function p.2.line ((ancestors u.body p.1).countP isTry + 1)) ∧
    tries.map Prod.snd = u.walk.filter isTry ∧
    (∀ p, p ∈ tries ↔ nodeAt? u.body p.1 = some p.2 ∧ p.2.isTry) ∧
    (∀ function h, Judges c function h (ofHandler c function h)) ∧
    ∀ function line depth, CountsNesting c function line depth (ofDepth c function line depth) := by
  intro tries
  refine ⟨?_, Node.map_snd_filter_places isTry u.body, fun p => Node.mem_filter_places_iff isTry,
    ofHandler_judges c, ofDepth_countsNesting c⟩
  have hown : ∀ position n, isTry n = false → ownReport c position n = [] :=
    fun position n => ownReport_of_not position
  rw [check_eq, Node.flatMap_walkAllWith_filter hown]
  apply List.flatMap_congr
  intro p hp
  rw [ownReport_of_isTry _ ((Node.mem_filter_places_iff isTry).mp hp).2, foldl_positionBelow]
  rfl

-- the `try` in the last part counts the one around it, though a function stands in between
example :
    let c : FileContext :=
      .withTags ⟨"a.py"⟩ ⟨"."⟩ { Thresholds.standard with maxNestedTry := 1 } (.uniform .core)
    let handler (line : Nat) : Node := .handler ⟨line, line⟩ none none [.pass ⟨line, line⟩]
    let inner : Node := .tryExcept ⟨5, 6⟩ [] [handler 6] [] []
    let u : SourceUnit := ⟨⟨"a.py"⟩, 6, [.tryExcept ⟨1, 6⟩ [] [handler 3] []
      [.functionDef ⟨4, 6⟩ ⟨"f", [], false⟩ [inner]]]⟩
    (check c u).map (fun v => (v.kind, v.line, v.function, v.value)) =
      [(.bareExcept, 3, none, none), (.bareExcept, 6, some "f", none),
        (.nestedTryExcept, 5, some "f", some 2)] := by decide +kernel

end Rule.ErrorHandling

end QualityGate
