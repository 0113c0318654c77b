import QualityGate.Proofs.Node.Ancestors
import QualityGate.Proofs.Rule.Locality

/-! What the design rule attributes to a definition. The rule walks the tree with the definition
around a node in hand, and at every function it starts a walk of its own that leaves inner
definitions out. Together the two come to one thing: a branch on a class, a missing implementation
and an instantiation all count for the definition that encloses them the most closely, provided
that it is a function, and for no other one. -/
namespace QualityGate.Rule.Design

open Node (Address Encloses definitionAround? enclosing? enclosedBy handedAt nodeAt? places
  scopeAll)

/-! ### What is reported where -/

/-- What a node is reported for as a class of a certain size. -/
def ofMethods (c : FileContext) : Node → List Violation
  | .classDef span head body => ofClassSize c span.first head.name (publicMethods body)
  | _ => []

/-- What a node is reported for as an interface of a certain size. -/
def ofInterface (c : FileContext) : Node → List Violation
  | .classDef span head body =>
    if isInterface head then ofInterfaceSize c span.first head.name (publicMethods body) else []
  | _ => []

/-- What a node is reported for as a function that encloses branches on the class of a value. -/
def ofBranches (c : FileContext) (within : List Node) : Node → List Violation
  | .functionDef span head _ => ofCascade c span.first head.name (within.countP branchesOnClass)
  | _ => []

/-- What a node is reported for as a method that encloses missing implementations. -/
def ofRaises (c : FileContext) (around : Option Node) (within : List Node) :
    Node → List Violation
  | .functionDef _ head _ =>
    match around with
    | some (.classDef _ outer _) =>
      (within.filter raisesNotImplemented).map fun n => ofMissing c n.line outer.name head.name
    | _ => []
  | _ => []

/-- What a node is reported for as a function that encloses instantiations. -/
def ofCalls (c : FileContext) (within : List Node) : Node → List Violation
  | .functionDef _ head _ =>
    within.filterMap fun n => (instantiates? n).map (ofInstantiation c n.line head.name)
  | _ => []

/-! ### What a definition has in its scope -/

section Scope

variable {ns : List Node} {a : Address} {d : Node}

/-- What no definition gives is given by the scope of a definition just when it is given by what
it encloses. -/
theorem filterMap_scopeAll {β : Type} (hd : nodeAt? ns a = some d) (hdef : d.isDefinition)
    {f : Node → Option β} (hf : ∀ n, n.isDefinition → f n = none) :
    (scopeAll d.children).filterMap f = (enclosedBy ns a).filterMap f := by
  rw [← Node.filter_enclosedBy hd hdef, List.filterMap_filter]
  refine List.filterMap_congr fun n _ => ?_
  cases hn : n.isDefinition with
  | true => simp [hf n hn]
  | false => simp

theorem filter_scopeAll (hd : nodeAt? ns a = some d) (hdef : d.isDefinition) {p : Node → Bool}
    (hp : ∀ n, n.isDefinition → p n = false) :
    (scopeAll d.children).filter p = (enclosedBy ns a).filter p := by
  rw [← List.filterMap_eq_filter]
  exact filterMap_scopeAll hd hdef fun n hn => by simp [hp n hn]

theorem branchesOnClass_eq_false (n : Node) (h : n.isDefinition) : branchesOnClass n = false := by
  cases n <;> cases h <;> rfl

theorem raisesNotImplemented_eq_false (n : Node) (h : n.isDefinition) :
    raisesNotImplemented n = false := by
  cases n <;> cases h <;> rfl

theorem instantiates?_eq_none (n : Node) (h : n.isDefinition) : instantiates? n = none := by
  cases n <;> cases h <;> rfl

/-- A definition hands down nothing of what it inherits, and other nodes hand it on. -/
theorem enclosingBelow_of_isDefinition (s t : Enclosing) (n : Node) (h : n.isDefinition) :
    enclosingBelow s n = enclosingBelow t n := by
  cases n <;> cases h <;> rfl

theorem enclosingBelow_of_not (s : Enclosing) (n : Node) (h : n.isDefinition = false) :
    enclosingBelow s n = s := by
  cases n <;> cases h <;> rfl

/-- A definition hands down what its kind is, and what its name is when it is a class. -/
theorem handedAt_enclosingBelow (ns : List Node) (a : Address) :
    handedAt enclosingBelow .module ns a =
      match definitionAround? ns a with
      | some (.classDef _ head _) => .inClass head.name
      | some (.functionDef ..) => .inFunction
      | _ => .module := by
  rw [handedAt]
  cases definitionAround? ns a with
  | none => rfl
  | some d => cases d <;> rfl

/-- What a node is reported for, principle by principle. -/
theorem ownReport_eq (c : FileContext) (hd : nodeAt? ns a = some d) :
    ownReport c (handedAt enclosingBelow .module ns a) d =
      ofMethods c d ++ ofInterface c d ++ ofBranches c (enclosedBy ns a) d
        ++ ofRaises c (definitionAround? ns a) (enclosedBy ns a) d
        ++ if c.tag .design = .core then ofCalls c (enclosedBy ns a) d else [] := by
  cases d with
  | classDef span head body =>
    simp [ownReport, ofClass, ofMethods, ofInterface, ofBranches, ofRaises, ofCalls]
  | functionDef span head body =>
    have hbranches : (scopeAll body).countP branchesOnClass =
        (enclosedBy ns a).countP branchesOnClass := by
      rw [List.countP_eq_length_filter, List.countP_eq_length_filter,
        ← filter_scopeAll hd rfl branchesOnClass_eq_false]
      rfl
    have hraises : (scopeAll body).filter raisesNotImplemented =
        (enclosedBy ns a).filter raisesNotImplemented :=
      filter_scopeAll hd rfl raisesNotImplemented_eq_false
    have hcalls : (scopeAll body).filterMap (fun n =>
          (instantiates? n).map (ofInstantiation c n.line head.name)) =
        ofCalls c (enclosedBy ns a) (.functionDef span head body) :=
      filterMap_scopeAll hd rfl fun n hn => by rw [instantiates?_eq_none n hn, Option.map_none]
    unfold ownReport ofFunction
    dsimp only
    rw [hbranches, hraises, hcalls, handedAt_enclosingBelow]
    -- what is around the function and where its file belongs decide which parts are empty
    cases definitionAround? ns a with
    | none => cases c.tag .design <;> rfl
    | some outer => cases outer <;> cases c.tag .design <;> rfl
  | _ => simp [ownReport, ofMethods, ofInterface, ofBranches, ofRaises, ofCalls]

end Scope

/-! ### What the principles find -/

/-- A violation without its file and its text: what it is, how bad, where, under which names, and
what was measured against which limit. -/
structure Finding where
  kind : Kind
  severity : Severity
  line : Nat
  function : Option String
  context : String
  value : Option Nat
  threshold : Option Nat

def Finding.of (v : Violation) : Finding :=
  ⟨v.kind, v.severity, v.line, v.function, v.context, v.value, v.threshold⟩

/-- What the principles find at a node, by the definition around it and the nodes that it encloses:
a class or an interface with too many public methods, a function with too many branches on the class
of a value, a method that raises instead of being implemented, and in the core an instantiation. -/
inductive Finds (c : FileContext) (around : Option Node) (within : List Node) :
    Node → Finding → Prop
  | methods {span head body} (h : c.thresholds.maxClassPublicMethods < publicMethods body) :
    Finds c around within (.classDef span head body)
      ⟨.srpClassMethods, .warning, span.first, none, head.name, some (publicMethods body),
        some c.thresholds.maxClassPublicMethods⟩
  | interface {span head body} (hbases : isInterface head)
    (h : c.thresholds.maxInterfaceMethods < publicMethods body) :
    Finds c around within (.classDef span head body)
      ⟨.ispFatInterface, .warning, span.first, none, head.name, some (publicMethods body),
        some c.thresholds.maxInterfaceMethods⟩
  | branches {span head body}
    (h : c.thresholds.maxIsinstanceChain < within.countP branchesOnClass) :
    Finds c around within (.functionDef span head body)
      ⟨.ocpIsinstanceCascade, .warning, span.first, some head.name, head.name,
        some (within.countP branchesOnClass), some c.thresholds.maxIsinstanceChain⟩
  | raises {span head body outerSpan outer outerBody n}
    (haround : around = some (.classDef outerSpan outer outerBody)) (hn : n ∈ within)
    (h : raisesNotImplemented n) :
    Finds c around within (.functionDef span head body)
      ⟨.lspNotImplemented, .error, n.line, some head.name, outer.name ++ "." ++ head.name, none,
        none⟩
  | calls {span head body n service} (hcore : c.tag .design = .core) (hn : n ∈ within)
    (h : instantiates? n = some service) :
    Finds c around within (.functionDef span head body)
      ⟨.dipDirectInstantiation, .warning, n.line, some head.name, head.name, none, none⟩

/-- Whether violations are just what the principles find at a node of one kind. -/
def Reports (c : FileContext) (around : Option Node) (within : List Node) (n : Node) (k : Kind)
    (vs : List Violation) : Prop :=
  ∀ f, (∃ v ∈ vs, Finding.of v = f) ↔ f.kind = k ∧ Finds c around within n f

section Principles

variable {c : FileContext} {around : Option Node} {within : List Node} {n : Node} {k : Kind}
  {v : Violation} {vs : List Violation}

theorem Reports.kind (h : Reports c around within n k vs) (hv : v ∈ vs) : v.kind = k :=
  ((h (.of v)).mp ⟨v, hv, rfl⟩).1

/-- A file is reported once when it is too long. -/
theorem map_of_ofLength (c : FileContext) (lines : Nat) : (ofLength c lines).map Finding.of =
    if c.thresholds.maxFileLines < lines then
      [⟨.srpFileLength, .warning, 1, none, "", some lines, some c.thresholds.maxFileLines⟩]
    else [] := by
  unfold ofLength
  dsimp only
  split_ifs <;> rfl

theorem kind_ofLength {lines : Nat} (hv : v ∈ ofLength c lines) : v.kind = .srpFileLength := by
  have hfound : Finding.of v ∈ (ofLength c lines).map Finding.of := List.mem_map_of_mem hv
  rw [map_of_ofLength, List.mem_ite_nil_right, List.mem_singleton] at hfound
  exact congrArg Finding.kind hfound.2

theorem reports_ofMethods : Reports c around within n .srpClassMethods (ofMethods c n) := by
  intro f
  constructor
  · rintro ⟨v, hv, rfl⟩
    unfold ofMethods at hv
    split at hv
    · simp only [ofClassSize, List.mem_ite_nil_right, List.mem_singleton] at hv
      obtain ⟨hmany, rfl⟩ := hv
      exact ⟨rfl, .methods hmany⟩
    · cases hv
  · rintro ⟨hk, hfinds⟩
    cases hfinds with
    | methods h => exact ⟨_, List.mem_ite_nil_right.mpr ⟨h, List.mem_singleton.mpr rfl⟩, rfl⟩
    | _ => cases hk

theorem reports_ofInterface : Reports c around within n .ispFatInterface (ofInterface c n) := by
  intro f
  constructor
  · rintro ⟨v, hv, rfl⟩
    unfold ofInterface at hv
    split at hv
    · simp only [ofInterfaceSize, List.mem_ite_nil_right, List.mem_singleton] at hv
      obtain ⟨hbases, hmany, rfl⟩ := hv
      exact ⟨rfl, .interface hbases hmany⟩
    · cases hv
  · rintro ⟨hk, hfinds⟩
    cases hfinds with
    | @interface span head body hbases h =>
      have hsize : ofInterface c (.classDef span head body) =
          ofInterfaceSize c span.first head.name (publicMethods body) := if_pos hbases
      rw [hsize]
      exact ⟨_, List.mem_ite_nil_right.mpr ⟨h, List.mem_singleton.mpr rfl⟩, rfl⟩
    | _ => cases hk

theorem reports_ofBranches :
    Reports c around within n .ocpIsinstanceCascade (ofBranches c within n) := by
  intro f
  constructor
  · rintro ⟨v, hv, rfl⟩
    unfold ofBranches at hv
    split at hv
    · simp only [ofCascade, List.mem_ite_nil_right, List.mem_singleton] at hv
      obtain ⟨hmany, rfl⟩ := hv
      exact ⟨rfl, .branches hmany⟩
    · cases hv
  · rintro ⟨hk, hfinds⟩
    cases hfinds with
    | branches h => exact ⟨_, List.mem_ite_nil_right.mpr ⟨h, List.mem_singleton.mpr rfl⟩, rfl⟩
    | _ => cases hk

theorem reports_ofRaises :
    Reports c around within n .lspNotImplemented (ofRaises c around within n) := by
  intro f
  constructor
  · rintro ⟨v, hv, rfl⟩
    unfold ofRaises at hv
    split at hv
    · split at hv
      · obtain ⟨m, hm, rfl⟩ := List.mem_map.mp hv
        obtain ⟨hm, hraises⟩ := List.mem_filter.mp hm
        exact ⟨rfl, .raises rfl hm hraises⟩
      · cases hv
    · cases hv
  · rintro ⟨hk, hfinds⟩
    cases hfinds with
    | raises haround hm hraises =>
      subst haround
      exact ⟨_, List.mem_map_of_mem (List.mem_filter.mpr ⟨hm, hraises⟩), rfl⟩
    | _ => cases hk

/-- Instantiations are left to the shell, so only what is reported in the core is found. -/
theorem reports_ofCalls (hcore : c.tag .design = .core) :
    Reports c around within n .dipDirectInstantiation (ofCalls c within n) := by
  intro f
  constructor
  · rintro ⟨v, hv, rfl⟩
    unfold ofCalls at hv
    split at hv
    · obtain ⟨m, hm, hv⟩ := List.mem_filterMap.mp hv
      obtain ⟨service, hservice, rfl⟩ := Option.map_eq_some_iff.mp hv
      exact ⟨rfl, .calls hcore hm hservice⟩
    · cases hv
  · rintro ⟨hk, hfinds⟩
    cases hfinds with
    | @calls span head _ m service _ hm hservice =>
      have hfound : (instantiates? m).map (ofInstantiation c m.line head.name) =
          some (ofInstantiation c m.line head.name service) := by
        rw [hservice]
        rfl
      exact ⟨_, List.mem_filterMap.mpr ⟨m, hm, hfound⟩, rfl⟩
    | _ => cases hk

/-- What is reported of a node is what the principles find there. A measure is reported once, and
where nodes are reported that it encloses, each of them is, in order. -/
structure Attributes (c : FileContext) (around : Option Node) (within : List Node) (n : Node) :
    Prop where
  methods : Reports c around within n .srpClassMethods (ofMethods c n)
  interface : Reports c around within n .ispFatInterface (ofInterface c n)
  branches : Reports c around within n .ocpIsinstanceCascade (ofBranches c within n)
  raises : Reports c around within n .lspNotImplemented (ofRaises c around within n)
  calls : c.tag .design = .core →
    Reports c around within n .dipDirectInstantiation (ofCalls c within n)
  once : (ofMethods c n).length ≤ 1 ∧ (ofInterface c n).length ≤ 1 ∧
    (ofBranches c within n).length ≤ 1
  eachRaise : ofRaises c around within n ≠ [] →
    (ofRaises c around within n).map (·.line) =
      (within.filter raisesNotImplemented).map Node.line
  eachCall : ofCalls c within n ≠ [] →
    (ofCalls c within n).map (·.line) =
      (within.filter fun m => (instantiates? m).isSome).map Node.line

theorem length_ite_singleton_le {α : Type} {p : Prop} [Decidable p] {a : α} :
    (if p then [a] else []).length ≤ 1 := by
  split_ifs <;> simp

theorem attributes (c : FileContext) (around : Option Node) (within : List Node) (n : Node) :
    Attributes c around within n where
  methods := reports_ofMethods
  interface := reports_ofInterface
  branches := reports_ofBranches
  raises := reports_ofRaises
  calls := reports_ofCalls
  once := by
    refine ⟨?_, ?_, ?_⟩
    · unfold ofMethods
      split
      · exact length_ite_singleton_le
      · exact Nat.zero_le 1
    · unfold ofInterface
      split
      · split_ifs
        · exact length_ite_singleton_le
        · exact Nat.zero_le 1
      · exact Nat.zero_le 1
    · unfold ofBranches
      split
      · exact length_ite_singleton_le
      · exact Nat.zero_le 1
  eachRaise h := by
    unfold ofRaises at h ⊢
    split at h
    · split at h
      · rw [List.map_map]
        rfl
      · exact absurd rfl h
    · exact absurd rfl h
  eachCall h := by
    unfold ofCalls at h ⊢
    split at h
    · rw [List.map_filterMap, ← List.filterMap_eq_map, List.filterMap_filter]
      refine List.filterMap_congr fun m _ => ?_
      cases instantiates? m <;> rfl
    · exact absurd rfl h

end Principles

/-! ### Principle by principle -/

/-- Violations of one kind are kept whole or dropped whole. -/
theorem filter_kind {k : Kind} {vs : List Violation} (h : ∀ v ∈ vs, v.kind = k) (k' : Kind) :
    vs.filter (·.kind = k') = if k = k' then vs else [] := by
  by_cases hk : k = k'
  · rw [if_pos hk]
    exact List.filter_eq_self.mpr fun v hv => by simp [h v hv, hk]
  · rw [if_neg hk]
    exact List.filter_eq_nil_iff.mpr fun v hv => by simp [h v hv, hk]

/-- What a file and its nodes are reported for comes principle by principle, and what one principle
reports comes in source order. -/
theorem byPrinciple_reports {α : Type} {file : List Violation} {xs : List α}
    {methods interface branches raises calls : α → List Violation}
    (hfile : ∀ v ∈ file, v.kind = .srpFileLength)
    (hmethods : ∀ x, ∀ v ∈ methods x, v.kind = .srpClassMethods)
    (hinterface : ∀ x, ∀ v ∈ interface x, v.kind = .ispFatInterface)
    (hbranches : ∀ x, ∀ v ∈ branches x, v.kind = .ocpIsinstanceCascade)
    (hraises : ∀ x, ∀ v ∈ raises x, v.kind = .lspNotImplemented)
    (hcalls : ∀ x, ∀ v ∈ calls x, v.kind = .dipDirectInstantiation) :
    byPrinciple (file ++ xs.flatMap fun x =>
        methods x ++ interface x ++ branches x ++ raises x ++ calls x) =
      file ++ xs.flatMap methods ++ xs.flatMap branches ++ xs.flatMap raises
        ++ xs.flatMap interface ++ xs.flatMap calls := by
  simp only [byPrinciple, reportingOrder, List.flatMap_cons, List.flatMap_nil, List.filter_append,
    List.filter_flatMap, filter_kind hfile, filter_kind (hmethods _), filter_kind (hinterface _),
    filter_kind (hbranches _), filter_kind (hraises _), filter_kind (hcalls _)]
  simp

/-- Every node is attributed to the definition that encloses it the most closely, and what is
reported of a definition is what the principles find there. -/
theorem check_by_nearest_definition (c : FileContext) (u : SourceUnit) :
    let ps := places u.body
    check c u =
      ofLength c u.lineCount
        ++ (ps.flatMap fun p => ofMethods c p.2)
        ++ (ps.flatMap fun p => ofBranches c (enclosedBy u.body p.1) p.2)
        ++ (ps.flatMap fun p =>
              ofRaises c (definitionAround? u.body p.1) (enclosedBy u.body p.1) p.2)
        ++ (ps.flatMap fun p => ofInterface c p.2)
        ++ (if c.tag .design = .core then
              ps.flatMap fun p => ofCalls c (enclosedBy u.body p.1) p.2 else []) ∧
    ps.map Prod.snd = u.walk ∧ (ps.map Prod.fst).Nodup ∧
    (∀ a, (enclosing? u.body a = none ↔ ∀ b, ¬ Encloses u.body b a) ∧
      ∀ b, enclosing? u.body a = some b ↔
        Encloses u.body b a ∧ ∀ b', Encloses u.body b' a → b' <+: b) ∧
    ((ofLength c u.lineCount).map Finding.of = if c.thresholds.maxFileLines < u.lineCount then
      [⟨.srpFileLength, .warning, 1, none, "", some u.lineCount,
        some c.thresholds.maxFileLines⟩] else []) ∧
    ∀ around within n, Attributes c around within n := by
  intro ps
  refine ⟨?_, Node.map_snd_places u.body, Node.nodup_addresses u.body, fun a =>
    ⟨Node.enclosing?_eq_none_iff, fun b => Node.enclosing?_eq_some_iff⟩,
    map_of_ofLength c u.lineCount, attributes c⟩
  have hown : ∀ p ∈ ps, ownReport c (handedAt enclosingBelow .module u.body p.1) p.2 =
      ofMethods c p.2 ++ ofInterface c p.2 ++ ofBranches c (enclosedBy u.body p.1) p.2
        ++ ofRaises c (definitionAround? u.body p.1) (enclosedBy u.body p.1) p.2
        ++ if c.tag .design = .core then ofCalls c (enclosedBy u.body p.1) p.2 else [] :=
    fun p hp => ownReport_eq c (Node.mem_places_iff.mp hp)
  have hcore : (if c.tag .design = .core then
        ps.flatMap fun p => ofCalls c (enclosedBy u.body p.1) p.2 else []) =
      ps.flatMap fun p =>
        if c.tag .design = .core then ofCalls c (enclosedBy u.body p.1) p.2 else [] := by
    split_ifs <;> simp
  rw [hcore, check_eq,
    Node.walkAllWith_eq_places enclosingBelow_of_isDefinition enclosingBelow_of_not,
    List.flatMap_map, List.flatMap_congr hown]
  have hreports : ∀ p : Address × Node,
      Attributes c (definitionAround? u.body p.1) (enclosedBy u.body p.1) p.2 :=
    fun p => attributes ..
  refine byPrinciple_reports (fun v => kind_ofLength) (fun p v => (hreports p).methods.kind)
    (fun p v => (hreports p).interface.kind) (fun p v => (hreports p).branches.kind)
    (fun p v => (hreports p).raises.kind) fun p v hv => ?_
  rw [List.mem_ite_nil_right] at hv
  exact ((hreports p).calls hv.1).kind hv.2

end QualityGate.Rule.Design
