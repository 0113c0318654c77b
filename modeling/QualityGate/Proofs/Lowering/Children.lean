import Mathlib.Data.List.Basic
import QualityGate.Python.Lowering

/-! Where the children of a lowered node come from. A level makes a node out of what the parts
of a subtree became one level below, and adds no node of its own but the one that stands for a
missing condition, callee or value. What an `elif` became is only ever all that a branch does
otherwise. -/
namespace QualityGate

namespace Node

theorem mem_clauseNodes {n : Node} {gs : List (Generator Node)} :
    n ∈ clauseNodes gs ↔ ∃ g ∈ gs, n ∈ g.header ∨ n ∈ g.filters := by
  induction gs with
  | nil => simp [clauseNodes]
  | cons g gs ih => simp [clauseNodes, ih, or_assoc]

end Node

namespace Python

/-- Whether a subtree is an `elif` with the clauses behind it. -/
def Subtree.isElif : Subtree → Bool
  | .whole _ => false
  | .elifChain .. => true

namespace Lowering

/-- What holds of the result of a computation that has one. -/
def Yields {α : Type} (x : Option α) (P : α → Prop) : Prop := ∀ a, x = some a → P a

namespace Yields

variable {α β σ : Type} {P : α → Prop} {Q : β → Prop}

theorem pure {a : α} (h : P a) : Yields (Pure.pure a) P := by
  rintro _ ⟨⟩
  exact h

theorem bind {x : Option α} {f : α → Option β} (hx : Yields x P)
    (hf : ∀ a, P a → Yields (f a) Q) : Yields (x >>= f) Q := by
  intro b hb
  obtain ⟨a, ha, hb⟩ := Option.bind_eq_some_iff.mp hb
  exact hf a (hx a ha) b hb

theorem mono {P' : α → Prop} {x : Option α} (hx : Yields x P) (h : ∀ a, P a → P' a) :
    Yields x P' :=
  fun a ha => h a (hx a ha)

theorem mapM {xs : List α} {f : α → Option β} (h : ∀ x ∈ xs, Yields (f x) Q) :
    Yields (xs.mapM f) fun ys => ∀ y ∈ ys, Q y := by
  induction xs with
  | nil => exact pure (by simp)
  | cons x xs ih =>
    rw [List.mapM_cons]
    refine bind (h x (by simp)) fun y hy =>
      bind (ih fun x hx => h x (by simp [hx])) fun ys hys => pure ?_
    simpa using ⟨hy, hys⟩

theorem foldlM {xs : List α} {f : σ → α → Option σ} {I : σ → Prop} {s : σ} (hs : I s)
    (h : ∀ s, I s → ∀ x ∈ xs, Yields (f s x) I) : Yields (xs.foldlM f s) I := by
  induction xs generalizing s with
  | nil => exact pure hs
  | cons x xs ih =>
    rw [List.foldlM_cons]
    exact bind (h s hs x (by simp)) fun s' hs' =>
      ih hs' fun s hs y hy => h s hs y (by simp [hy])

end Yields

/-! ### Where children come from -/

section Children

variable {source : Array Char} {f : Subtree → Option Node}

/-- A node that a whole node one level below became. -/
def Below (f : Subtree → Option Node) (n : Node) : Prop := ∃ c, f (.whole c) = some n

theorem yields_below (c : Cst) : Yields (f (.whole c)) (Below f) := fun _ h => ⟨c, h⟩

theorem yields_all (cs : List Cst) : Yields (all f cs) fun ns => ∀ n ∈ ns, Below f n :=
  .mapM fun c _ => yields_below c

theorem yields_block (o : Option Cst) : Yields (block f o) fun ns => ∀ n ∈ ns, Below f n :=
  yields_all _

/-- What a branch does otherwise comes from one level below, or is just what an `elif` became. -/
def OtherwiseOf (f : Subtree → Option Node) (ns : List Node) : Prop :=
  (∀ n ∈ ns, Below f n) ∨ ∃ n clause rest, f (.elifChain clause rest) = some n ∧ ns = [n]

theorem yields_alternatives (cs : List Cst) : Yields (alternatives f cs) (OtherwiseOf f) := by
  cases cs with
  | nil => exact .pure (.inl (by simp))
  | cons c rest =>
    rw [alternatives]
    split
    · intro ns hns
      obtain ⟨n, hn, hns⟩ := Option.bind_eq_some_iff.mp hns
      exact .inr ⟨n, c, rest, hn, (Option.some.inj hns).symm⟩
    · exact (yields_block _).mono fun ns hns => .inl hns

/-- A condition, a callee or the value of a named argument that a part of the tree should have
and has not. -/
inductive Lacks : Subtree → Cst → Prop
  | condition {c : Cst} (isIf : c.kind = .ifStatement) (missing : c.child? .condition = none) :
      Lacks (.whole c) c
  | elifCondition {c : Cst} {rest : List Cst} (missing : c.child? .condition = none) :
      Lacks (.elifChain c rest) c
  | callee {c : Cst} (isCall : c.kind = .call) (missing : c.child? .function = none) :
      Lacks (.whole c) c
  | argument {c list a : Cst} (isCall : c.kind = .call)
      (among : c.child? .arguments = some list) (isList : list.kind = .argumentList)
      (mem : a ∈ list.parts) (isNamed : a.kind = .keywordArgument)
      (missing : a.child? .value = none) : Lacks (.whole c) a

/-- A child of a lowered node comes from one level below, or stands for something missing. -/
def ChildOf (f : Subtree → Option Node) (t : Subtree) (n : Node) : Prop :=
  Below f n ∨ ∃ place, Lacks t place ∧ n = placeholder place

theorem yields_childOr {t : Subtree} (c place : Cst) (field : Field)
    (h : c.child? field = none → Lacks t place) :
    Yields (childOr f c place field) (ChildOf f t) := by
  unfold childOr
  split
  · exact (yields_below _).mono fun n hn => .inl hn
  · exact .pure (.inr ⟨place, h ‹_›, rfl⟩)

/-- A branch made of what lies one level below, which continues another one if it is an `elif`. -/
def BranchOf (f : Subtree → Option Node) (t : Subtree) (n : Node) : Prop :=
  ∃ lines test body orelse, n = .branch lines t.isElif test body orelse ∧ ChildOf f t test ∧
    (∀ k ∈ body, Below f k) ∧ OtherwiseOf f orelse

theorem yields_branch {t : Subtree} (lines : Span) (c : Cst) (rest : List Cst)
    (h : c.child? .condition = none → Lacks t c) :
    Yields (branch f lines t.isElif c rest) (BranchOf f t) :=
  (yields_childOr c c .condition h).bind fun test htest =>
    (yields_block _).bind fun body hbody => (yields_alternatives rest).bind fun orelse horelse =>
      .pure ⟨lines, test, body, orelse, rfl, htest, hbody, horelse⟩

/-- A node that continues no branch, and whose children come from one level below. -/
structure NodeOf (f : Subtree → Option Node) (n : Node) : Prop where
  isElif : n.isElif = false
  children : ∀ k ∈ n.children, Below f k

theorem yields_loop (c : Cst) (form : LoopForm) (header : List Field) :
    Yields (loop f c form header) (NodeOf f) :=
  (Yields.mapM fun field _ => yields_all _).bind fun headers hheaders =>
    (yields_block _).bind fun body hbody => (yields_block _).bind fun orelse horelse =>
      .pure ⟨rfl, fun k hk => by
        simp only [Node.children, List.mem_append, List.mem_flatten] at hk
        obtain (⟨ns, hns, hk⟩ | hk) | hk := hk
        · exact hheaders ns hns k hk
        · exact hbody k hk
        · exact horelse k hk⟩

theorem below_of_mem_getLast {nss : List (List Node)} (h : ∀ ns ∈ nss, ∀ n ∈ ns, Below f n)
    {n : Node} (hn : n ∈ nss.getLast?.getD []) : Below f n := by
  cases hlast : nss.getLast? with
  | none => simp [hlast] at hn
  | some ns =>
    rw [hlast, Option.getD_some] at hn
    exact h ns (List.mem_of_getLast? hlast) n hn

theorem yields_tryExcept (c : Cst) : Yields (tryExcept f c) (NodeOf f) :=
  (yields_block _).bind fun body hbody => (yields_all _).bind fun handlers hhandlers =>
    (Yields.mapM fun d _ => yields_block _).bind fun others hothers =>
      (Yields.mapM fun d _ => yields_block _).bind fun finals hfinals =>
        .pure ⟨rfl, fun k hk => by
          simp only [Node.children, List.mem_append] at hk
          obtain ((hk | hk) | hk) | hk := hk
          · exact hbody k hk
          · exact hhandlers k hk
          · exact below_of_mem_getLast hothers hk
          · exact below_of_mem_getLast hfinals hk⟩

theorem yields_caught (cs : List Cst) :
    Yields (caught source f cs) fun p => ∀ n ∈ p.1, Below f n := by
  cases cs with
  | nil => exact .pure (by simp)
  | cons p rest =>
    rw [caught]
    split
    · exact (yields_all _).bind fun types htypes => .pure fun n hn =>
        htypes n (List.mem_of_head? hn)
    · exact (yields_below _).bind fun type htype => .pure fun n hn => by
        obtain rfl := Option.mem_some_iff.mp hn
        exact htype

theorem yields_handler (c : Cst) : Yields (handler source f c) (NodeOf f) :=
  (yields_caught _).bind fun (type, name) htype => (yields_block _).bind fun body hbody =>
    .pure ⟨rfl, fun k hk => by
      simp only [Node.children, List.mem_append, Option.mem_toList] at hk
      rcases hk with hk | hk
      · exact htype k hk
      · exact hbody k hk⟩

theorem yields_withBlock (c : Cst) : Yields (withBlock f c) (NodeOf f) :=
  (yields_all _).bind fun items hitems => (yields_block _).bind fun body hbody =>
    .pure ⟨rfl, fun k hk => by
      simp only [Node.children, List.mem_append] at hk
      rcases hk with hk | hk
      · exact hitems k hk
      · exact hbody k hk⟩

theorem yields_collected (c : Cst) :
    Yields (collected f c) fun ns => ∀ n ∈ ns, Below f n := by
  unfold collected
  split
  · exact .pure (by simp)
  · split
    · exact (yields_all _).bind fun key hkey => (yields_all _).bind fun value hvalue =>
        .pure fun n hn => (List.mem_append.mp hn).elim (hkey n) (hvalue n)
    · exact yields_all _

theorem yields_addClause (gs : List (Generator Node)) (c : Cst)
    (hgs : ∀ n ∈ Node.clauseNodes gs, Below f n) :
    Yields (addClause f gs c) fun gs => ∀ n ∈ Node.clauseNodes gs, Below f n := by
  unfold addClause
  split
  · refine (yields_all _).bind fun targets htargets => (yields_all _).bind fun sources hsources =>
      .pure fun n hn => ?_
    simp only [Node.clauseNodes, List.append_nil, List.mem_append] at hn
    obtain (hn | hn) | hn := hn
    · exact htargets n hn
    · exact hsources n hn
    · exact hgs n hn
  · refine (yields_all _).bind fun tests htests => .pure fun n hn => ?_
    simp only [Node.clauseNodes, List.mem_append] at hn hgs
    obtain (hn | hn | hn) | hn := hn
    · exact hgs n (.inl (.inl hn))
    · exact hgs n (.inl (.inr hn))
    · exact htests n hn
    · exact hgs n (.inr hn)
  · exact .pure hgs

theorem yields_comprehension (c : Cst) : Yields (comprehension f c) (NodeOf f) :=
  (yields_collected c).bind fun element helement =>
    (Yields.foldlM (I := fun gs => ∀ n ∈ Node.clauseNodes gs, Below f n)
      (by simp [Node.clauseNodes]) fun gs hgs d _ => yields_addClause gs d hgs).bind
        fun clauses hclauses => .pure ⟨rfl, fun k hk => by
      simp only [Node.children, List.mem_append, Node.mem_clauseNodes, List.mem_reverse] at hk
      rcases hk with hk | hk
      · exact helement k hk
      · exact hclauses k (Node.mem_clauseNodes.mpr hk)⟩

theorem yields_call (c : Cst) (hk : c.kind = .call) : Yields (call source f c) fun n =>
    n.isElif = false ∧ ∀ k ∈ n.children, ChildOf f (.whole c) k := by
  have harguments : Yields (arguments f (c.child? .arguments)) fun ns =>
      ∀ n ∈ ns, ChildOf f (.whole c) n := by
    cases hlist : c.child? .arguments with
    | none => exact .pure (by simp)
    | some list =>
      rw [arguments]
      split
      · refine Yields.mapM fun a ha => ?_
        unfold argument
        split
        · exact yields_childOr a a .value fun missing =>
            .argument hk hlist ‹_› ha ‹_› missing
        · exact (yields_below _).mono fun n hn => .inl hn
      · exact (yields_all _).mono fun ns hns n hn => .inl (hns n hn)
  refine harguments.bind fun arguments harguments =>
    (yields_childOr c c .function fun missing => .callee hk missing).bind fun func hfunc =>
      .pure ⟨rfl, fun k hk => ?_⟩
  rcases List.mem_cons.mp hk with rfl | hk
  · exact hfunc
  · exact harguments k hk

theorem yields_raise (c : Cst) : Yields (raise f c) (NodeOf f) :=
  (yields_all _).bind fun raised hraised => (yields_all _).bind fun cause hcause =>
    .pure ⟨rfl, fun k hk => by
      simp only [Node.children, List.mem_append, Option.mem_toList] at hk
      rcases hk with hk | hk
      · exact hraised k (List.mem_of_head? hk)
      · exact hcause k (List.mem_of_head? hk)⟩

theorem yields_string (c : Cst) : Yields (string source f c) (NodeOf f) := by
  unfold string
  dsimp only
  split
  · exact (yields_all _).bind fun fields hfields => .pure ⟨rfl, hfields⟩
  · split <;> exact .pure ⟨rfl, by simp [Node.children]⟩

/-- What a level makes of a subtree: what one part of it became, or a node whose children come from
the parts of the subtree or stand for something missing. Only a branch also has what an `elif`
became below it. -/
inductive LevelOf (f : Subtree → Option Node) (t : Subtree) (n : Node) : Prop
  | part (below : Below f n)
  | node (isElif : n.isElif = false) (children : ∀ k ∈ n.children, ChildOf f t k)
  | branch (isBranch : BranchOf f t n)

/-- A node is what a subtree one level below became, or its children are that or stand for something
missing. -/
theorem LevelOf.origin {t : Subtree} {n : Node} (h : LevelOf f t n) : (∃ s, f s = some n) ∨
    ∀ k ∈ n.children, (∃ s, f s = some k) ∨ ∃ place, Lacks t place ∧ k = placeholder place := by
  have hbelow : ∀ {k}, Below f k → ∃ s, f s = some k := fun ⟨c, hc⟩ => ⟨.whole c, hc⟩
  cases h with
  | part below => exact .inl (hbelow below)
  | node _ children => exact .inr fun k hk => (children k hk).imp_left hbelow
  | branch isBranch =>
    obtain ⟨lines, test, body, orelse, rfl, htest, hbody, horelse⟩ := isBranch
    refine .inr fun k hk => ?_
    simp only [Node.children, List.mem_cons, List.mem_append] at hk
    rcases hk with rfl | hk | hk
    · exact htest.imp_left hbelow
    · exact .inl (hbelow (hbody k hk))
    · rcases horelse with hall | ⟨n, clause, rest, hn, rfl⟩
      · exact .inl (hbelow (hall k hk))
      · obtain rfl := List.mem_singleton.mp hk
        exact .inl ⟨_, hn⟩

theorem Yields.levelOf {t : Subtree} {x : Option Node} (h : Yields x (NodeOf f)) :
    Yields x (LevelOf f t) :=
  h.mono fun _ hn => .node hn.isElif fun k hk => .inl (hn.children k hk)

theorem yields_other (c : Cst) : Yields (other f c) (NodeOf f) :=
  (yields_all _).bind fun _ hns => .pure ⟨rfl, hns⟩

theorem yields_whole (c : Cst) : Yields (whole source f c) (LevelOf f (.whole c)) := by
  have hleaf : ∀ n : Node, n.isElif = false → n.children = [] →
      Yields (pure n) (LevelOf f (.whole c)) :=
    fun n helif hn => .pure (.node helif (by simp [hn]))
  have hone : ∀ d : Cst, Yields (f (.whole d)) (LevelOf f (.whole c)) :=
    fun d => (yields_below _).mono fun _ hn => .part hn
  have hall : ∀ (make : List Node → Node),
      (∀ ns, (make ns).isElif = false ∧ (make ns).children = ns) → ∀ cs : List Cst,
      Yields (do return make (← all f cs)) (LevelOf f (.whole c)) :=
    fun make hmake cs => (yields_all cs).bind fun ns hns =>
      .pure (.node (hmake ns).1 fun k hk => .inl (hns k ((hmake ns).2 ▸ hk)))
  unfold whole
  -- Names, constants and statements without expressions have no children.
  split <;> try exact hleaf _ rfl rfl
  · exact hall (.functionDef c.span (c.functionHead source)) (fun _ => ⟨rfl, rfl⟩) _
  · exact hall (.classDef c.span (c.classHead source)) (fun _ => ⟨rfl, rfl⟩) _
  · split
    · exact hone _
    · exact (yields_other c).levelOf
  · rename_i hk
    exact (yields_branch c.span c _ fun missing => .condition hk missing).mono
      fun _ hn => .branch hn
  · exact (yields_loop c _ _).levelOf
  · exact (yields_loop c _ _).levelOf
  · exact (yields_tryExcept c).levelOf
  · exact (yields_handler c).levelOf
  · exact (yields_handler c).levelOf
  · exact (yields_withBlock c).levelOf
  · exact hall (.boolOp c.span c.boolOperator) (fun _ => ⟨rfl, rfl⟩) _
  · exact (yields_comprehension c).levelOf
  · exact (yields_comprehension c).levelOf
  · exact (yields_comprehension c).levelOf
  · exact (yields_comprehension c).levelOf
  · exact (yields_call c ‹_›).mono fun _ hn => .node hn.1 hn.2
  · split
    · exact hleaf _ rfl rfl
    · exact hall (.other c.span) (fun _ => ⟨rfl, rfl⟩) _
  · exact (yields_raise c).levelOf
  · split
    · exact (yields_below _).bind fun value hvalue => .pure (.node rfl fun k hk => .inl (by
        obtain rfl := List.mem_singleton.mp hk
        exact hvalue))
    · exact hleaf _ rfl rfl
  · split
    · exact hone _
    · exact (yields_other c).levelOf
  · split
    · exact hone _
    · exact (yields_other c).levelOf
  · exact (yields_string c).levelOf
  · exact (yields_string c).levelOf
  · exact hall (.tuple c.span) (fun _ => ⟨rfl, rfl⟩) _
  · exact hall (.tuple c.span) (fun _ => ⟨rfl, rfl⟩) _
  · exact (yields_other c).levelOf

theorem yields_level (t : Subtree) : Yields (level source f t) (LevelOf f t) := by
  cases t with
  | whole c => exact yields_whole c
  | elifChain c rest =>
    exact (yields_branch _ c rest fun missing => .elifCondition missing).mono
      fun _ hn => .branch hn

end Children

end Lowering

end Python

end QualityGate
