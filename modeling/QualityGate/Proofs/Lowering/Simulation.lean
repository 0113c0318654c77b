import Mathlib.Data.List.Basic
import QualityGate.Proofs.Cst.Descent
import QualityGate.Python.Lowering

/-! Levels of lowering side by side. A level leaves only smaller subtrees to `descend`, and what
it makes of their results is the same in every monad. So a relation between computations that
returning and sequencing keep, and that holds between two ways to lower what is smaller than a
subtree, holds between the levels that use them. -/
namespace QualityGate.Python

/-- The number of nodes of a subtree; that of an `elif` includes the clauses behind it. -/
def Subtree.weight : Subtree → Nat
  | .whole c => c.count
  | .elifChain clause rest => clause.count + total (rest.map Cst.count)

variable {m m' : Type → Type} [Monad m] [Monad m']

/-- A relation between computations in two monads that returning and sequencing keep. -/
structure Simulates (R : ∀ α : Type, m α → m' α → Prop) : Prop where
  pure {α : Type} (a : α) : R α (Pure.pure a) (Pure.pure a)
  bind {α β : Type} {x : m α} {y : m' α} {f : α → m β} {g : α → m' β} :
    R α x y → (∀ a, R β (f a) (g a)) → R β (x >>= f) (y >>= g)

namespace Simulates

variable {R : ∀ α : Type, m α → m' α → Prop} (hR : Simulates R)
include hR

/-! ### Loops -/

theorem mapM {α β : Type} {xs : List α} {f : α → m β} {g : α → m' β}
    (h : ∀ x ∈ xs, R β (f x) (g x)) : R (List β) (xs.mapM f) (xs.mapM g) := by
  -- `mapM` carries the results so far along, and so does the induction.
  have hloop : ∀ done, R (List β) (List.mapM.loop f xs done) (List.mapM.loop g xs done) := by
    induction xs with
    | nil => exact fun done => hR.pure _
    | cons x xs ih =>
      intro done
      exact hR.bind (h x (by simp)) fun b => ih (fun y hy => h y (by simp [hy])) _
  exact hloop []

theorem foldlM {α σ : Type} {xs : List α} {f : σ → α → m σ} {g : σ → α → m' σ}
    (h : ∀ s, ∀ x ∈ xs, R σ (f s x) (g s x)) (s : σ) : R σ (xs.foldlM f s) (xs.foldlM g s) := by
  induction xs generalizing s with
  | nil => exact hR.pure s
  | cons x xs ih =>
    rw [List.foldlM_cons, List.foldlM_cons]
    exact hR.bind (h s x (by simp)) fun s' => ih (fun s y hy => h s y (by simp [hy])) s'

/-! ### Parts of a level -/

variable {source : Array Char} {f : Subtree → m Node} {g : Subtree → m' Node} {bound : Nat}
  (h : ∀ s, s.weight < bound → R Node (f s) (g s))
include h

theorem all {cs : List Cst} (hcs : ∀ c ∈ cs, c.count < bound) :
    R _ (Lowering.all f cs) (Lowering.all g cs) :=
  hR.mapM fun c hc => h (.whole c) (hcs c hc)

theorem parts {c : Cst} (hc : c.count ≤ bound) :
    R _ (Lowering.all f c.parts) (Lowering.all g c.parts) :=
  hR.all h fun d hd => by
    have := Cst.count_lt_of_mem_parts hd
    omega

theorem child {c : Cst} (hc : c.count ≤ bound) (field : Field) :
    R _ (Lowering.child f c field) (Lowering.child g c field) :=
  hR.all h fun d hd => by
    have := Cst.count_lt_of_child? (Option.mem_toList.mp hd)
    omega

theorem childOr {c : Cst} (hc : c.count ≤ bound) (place : Cst) (field : Field) :
    R _ (Lowering.childOr f c place field) (Lowering.childOr g c place field) := by
  unfold Lowering.childOr
  split
  · rename_i d hd
    have := Cst.count_lt_of_child? hd
    exact h (.whole d) (by rw [Subtree.weight]; omega)
  · exact hR.pure _

theorem block {o : Option Cst} (ho : ∀ c ∈ o, c.count ≤ bound) :
    R _ (Lowering.block f o) (Lowering.block g o) := by
  cases o with
  | none => exact hR.all h (by simp)
  | some c => exact hR.parts h (ho c rfl)

theorem blockOf {c : Cst} (hc : c.count ≤ bound) (field : Field) :
    R _ (Lowering.block f (c.child? field)) (Lowering.block g (c.child? field)) :=
  hR.block h fun d hd => by
    have := Cst.count_lt_of_child? hd
    omega

theorem blockIn {c : Cst} (hc : c.count ≤ bound) :
    R _ (Lowering.block f (c.part? .block)) (Lowering.block g (c.part? .block)) :=
  hR.block h fun d hd => by
    have := Cst.count_lt_of_part? hd
    omega

theorem otherwise {o : Option Cst} (ho : ∀ c ∈ o, c.count ≤ bound) :
    R _ (Lowering.otherwise f o) (Lowering.otherwise g o) := by
  refine hR.block h fun d hd => ?_
  obtain ⟨c, rfl, hd⟩ := Option.bind_eq_some_iff.mp hd
  have hc := ho c rfl
  rcases Option.or_eq_some_iff.mp hd with hbody | ⟨-, hblock⟩
  · have := Cst.count_lt_of_child? hbody
    omega
  · have := Cst.count_lt_of_part? hblock
    omega

theorem alternatives {cs : List Cst} (hcs : total (cs.map Cst.count) < bound) :
    R _ (Lowering.alternatives f cs) (Lowering.alternatives g cs) := by
  cases cs with
  | nil => exact hR.pure _
  | cons c rest =>
    rw [List.map_cons, total_cons] at hcs
    rw [Lowering.alternatives, Lowering.alternatives]
    split
    · exact hR.bind (h (.elifChain c rest) hcs) fun n => hR.pure _
    · exact hR.otherwise h fun d hd => by
        obtain rfl := Option.mem_some_iff.mp hd
        omega

theorem branch {c : Cst} {rest : List Cst} (hc : c.count ≤ bound)
    (hrest : total (rest.map Cst.count) < bound) (lines : Span) (isElif : Bool) :
    R _ (Lowering.branch f lines isElif c rest) (Lowering.branch g lines isElif c rest) :=
  hR.bind (hR.childOr h hc c .condition) fun _ =>
    hR.bind (hR.blockOf h hc .consequence) fun _ =>
      hR.bind (hR.alternatives h hrest) fun _ => hR.pure _

theorem loop {c : Cst} (hc : c.count ≤ bound) (form : LoopForm) (header : List Field) :
    R _ (Lowering.loop f c form header) (Lowering.loop g c form header) :=
  hR.bind (hR.mapM fun field _ => hR.child h hc field) fun _ =>
    hR.bind (hR.blockOf h hc .body) fun _ =>
      hR.bind (hR.otherwise h fun d hd => by
        have := Cst.count_lt_of_child? hd
        omega) fun _ => hR.pure _

theorem tryExcept {c : Cst} (hc : c.count ≤ bound) :
    R _ (Lowering.tryExcept f c) (Lowering.tryExcept g c) := by
  have hparts : ∀ p : Cst → Bool, ∀ d ∈ c.parts.filter p, d.count < bound := by
    intro p d hd
    have := Cst.count_lt_of_mem_parts (List.mem_filter.mp hd).1
    omega
  refine hR.bind (hR.blockOf h hc .body) fun body =>
    hR.bind (hR.all h (hparts _)) fun handlers =>
      hR.bind (hR.mapM fun d hd => hR.otherwise h ?_) fun others =>
        hR.bind (hR.mapM fun d hd => hR.blockIn h (Nat.le_of_lt (hparts _ d hd))) fun finals =>
          hR.pure _
  intro e he
  obtain rfl := Option.mem_some_iff.mp he
  exact Nat.le_of_lt (hparts _ d hd)

theorem caught {cs : List Cst} (hcs : ∀ c ∈ cs, c.count < bound) :
    R _ (Lowering.caught source f cs) (Lowering.caught source g cs) := by
  cases cs with
  | nil => exact hR.pure _
  | cons p rest =>
    have hp := hcs p (by simp)
    rw [Lowering.caught, Lowering.caught]
    split
    · refine hR.bind (hR.all h fun d hd => ?_) fun types => hR.pure _
      have := Cst.count_lt_of_mem_parts (List.mem_of_head? (Option.mem_toList.mp hd))
      omega
    · exact hR.bind (h (.whole p) hp) fun type => hR.pure _

theorem handler {c : Cst} (hc : c.count ≤ bound) :
    R _ (Lowering.handler source f c) (Lowering.handler source g c) := by
  refine hR.bind (hR.caught h fun d hd => ?_) fun (type, name) =>
    hR.bind (hR.blockIn h hc) fun body => hR.pure _
  have := Cst.count_lt_of_mem_parts (List.mem_filter.mp hd).1
  omega

theorem withBlock {c : Cst} (hc : c.count ≤ bound) :
    R _ (Lowering.withBlock f c) (Lowering.withBlock g c) := by
  refine hR.bind (hR.all h fun d hd => ?_) fun items =>
    hR.bind (hR.blockOf h hc .body) fun body => hR.pure _
  obtain ⟨item, hitem, rfl⟩ := List.mem_map.mp hd
  obtain ⟨clause, hclause, hitem⟩ : ∃ clause, c.part? .withClause = some clause ∧
      item ∈ clause.parts := by
    cases hclause : c.part? .withClause with
    | none => simp [hclause] at hitem
    | some clause => exact ⟨clause, rfl, by simpa [hclause] using hitem⟩
  have hclause := Cst.count_lt_of_part? hclause
  have hitem := Cst.count_lt_of_mem_parts hitem
  cases hvalue : item.child? .value with
  | none => rw [Option.getD_none]; omega
  | some value =>
    have := Cst.count_lt_of_child? hvalue
    rw [Option.getD_some]
    omega

theorem collected {c : Cst} (hc : c.count ≤ bound) :
    R _ (Lowering.collected f c) (Lowering.collected g c) := by
  unfold Lowering.collected
  split
  · exact hR.pure _
  · rename_i d hd
    have hd := Cst.count_lt_of_child? hd
    split
    · exact hR.bind (hR.child h (by omega) .key) fun key =>
        hR.bind (hR.child h (by omega) .value) fun value => hR.pure _
    · exact hR.all h (by simp; omega)

theorem addClause {c : Cst} (hc : c.count ≤ bound) (gs : List (Generator Node)) :
    R _ (Lowering.addClause f gs c) (Lowering.addClause g gs c) := by
  unfold Lowering.addClause
  split
  · refine hR.bind (hR.child h hc .left) fun targets =>
      hR.bind (hR.all h fun d hd => ?_) fun sources => hR.pure _
    have := Cst.count_lt_of_mem_children (List.mem_filter.mp hd).1
    omega
  · refine hR.bind (hR.all h fun d hd => ?_) fun tests => hR.pure _
    have := Cst.count_lt_of_mem_parts (List.mem_of_head? (Option.mem_toList.mp hd))
    omega
  · exact hR.pure _

theorem comprehension {c : Cst} (hc : c.count ≤ bound) :
    R _ (Lowering.comprehension f c) (Lowering.comprehension g c) :=
  hR.bind (hR.collected h hc) fun element =>
    hR.bind (hR.foldlM (fun gs d hd => hR.addClause h (by
      have := Cst.count_lt_of_mem_parts hd
      omega) gs) []) fun clauses => hR.pure _

theorem argument {c : Cst} (hc : c.count < bound) :
    R _ (Lowering.argument f c) (Lowering.argument g c) := by
  unfold Lowering.argument
  split
  · exact hR.childOr h (Nat.le_of_lt hc) c .value
  · exact h (.whole c) hc

theorem arguments {o : Option Cst} (ho : ∀ c ∈ o, c.count < bound) :
    R _ (Lowering.arguments f o) (Lowering.arguments g o) := by
  cases o with
  | none => exact hR.pure _
  | some c =>
    have hc := ho c rfl
    rw [Lowering.arguments, Lowering.arguments]
    split
    · refine hR.mapM fun d hd => hR.argument h ?_
      have := Cst.count_lt_of_mem_parts hd
      omega
    · exact hR.all h (by simpa using hc)

theorem call {c : Cst} (hc : c.count ≤ bound) :
    R _ (Lowering.call source f c) (Lowering.call source g c) :=
  hR.bind (hR.arguments h fun d hd => by
    have := Cst.count_lt_of_child? hd
    omega) fun arguments =>
    hR.bind (hR.childOr h hc c .function) fun func => hR.pure _

theorem raise {c : Cst} (hc : c.count ≤ bound) :
    R _ (Lowering.raise f c) (Lowering.raise g c) := by
  refine hR.bind (hR.all h fun d hd => ?_) fun raised =>
    hR.bind (hR.child h hc .cause) fun cause => hR.pure _
  have := Cst.count_lt_of_mem_parts (List.mem_of_find?_eq_some (Option.mem_toList.mp hd))
  omega

theorem string {c : Cst} (hc : c.count ≤ bound) :
    R _ (Lowering.string source f c) (Lowering.string source g c) := by
  unfold Lowering.string
  dsimp only
  split
  · refine hR.bind (hR.all h fun d hd => ?_) fun fields => hR.pure _
    obtain ⟨piece, hpiece, hd⟩ := List.mem_filterMap.mp hd
    obtain rfl := Sum.getRight?_eq_some_iff.mp hd
    have := Cst.count_lt_of_mem_stringPieces hpiece
    omega
  · split <;> exact hR.pure _

theorem other {c : Cst} (hc : c.count ≤ bound) : R _ (Lowering.other f c) (Lowering.other g c) :=
  hR.bind (hR.parts h hc) fun _ => hR.pure _

/-- Around one expression nothing is left, else the parts count. -/
theorem only {c : Cst} (hc : c.count ≤ bound) :
    R _ (match c.parts with
      | [only] => f (.whole only)
      | _ => Lowering.other f c)
    (match c.parts with
      | [only] => g (.whole only)
      | _ => Lowering.other g c) := by
  split
  · rename_i d hd
    have := Cst.count_lt_of_mem_parts (hd ▸ List.mem_singleton_self d : d ∈ c.parts)
    exact h (.whole d) (by rw [Subtree.weight]; omega)
  · exact hR.other h hc

/-! ### Whole levels -/

theorem whole {c : Cst} (hc : c.count ≤ bound) :
    R _ (Lowering.whole source f c) (Lowering.whole source g c) := by
  unfold Lowering.whole
  -- Names, constants and statements without expressions leave nothing to `descend`.
  split <;> try exact hR.pure _
  · exact hR.bind (hR.blockOf h hc .body) fun body => hR.pure _
  · exact hR.bind (hR.blockOf h hc .body) fun body => hR.pure _
  · split
    · rename_i d hd
      have := Cst.count_lt_of_child? hd
      exact h (.whole d) (by rw [Subtree.weight]; omega)
    · exact hR.other h hc
  · refine hR.branch h hc ?_ c.span false
    have := c.total_count_childrenAs_lt .alternative
    omega
  · exact hR.loop h hc _ _
  · exact hR.loop h hc _ _
  · exact hR.tryExcept h hc
  · exact hR.handler h hc
  · exact hR.handler h hc
  · exact hR.withBlock h hc
  · rename_i hk
    refine hR.bind (hR.all h fun d hd => ?_) fun values => hR.pure _
    have := Cst.count_lt_of_mem_operands hk hd
    omega
  · exact hR.comprehension h hc
  · exact hR.comprehension h hc
  · exact hR.comprehension h hc
  · exact hR.comprehension h hc
  · exact hR.call h hc
  · split
    · exact hR.pure _
    · exact hR.bind (hR.child h hc .object) fun object => hR.pure _
  · exact hR.raise h hc
  · split
    · rename_i value rest hparts
      have := Cst.count_lt_of_mem_parts (hparts ▸ List.mem_cons_self : value ∈ c.parts)
      exact hR.bind (h (.whole value) (by rw [Subtree.weight]; omega)) fun value => hR.pure _
    · exact hR.pure _
  · exact hR.only h hc
  · exact hR.only h hc
  · exact hR.string h hc
  · exact hR.string h hc
  · exact hR.bind (hR.parts h hc) fun items => hR.pure _
  · exact hR.bind (hR.parts h hc) fun items => hR.pure _
  · exact hR.other h hc

variable (source) in
/-- Levels are alike when they are for what is smaller than the subtree. -/
theorem level {t : Subtree} (ht : t.weight ≤ bound) :
    R _ (Lowering.level source f t) (Lowering.level source g t) := by
  cases t with
  | whole c => exact hR.whole h ht
  | elifChain c rest =>
    rw [Subtree.weight] at ht
    have := c.count_eq
    exact hR.branch h (by omega) (by omega) _ true

end Simulates

end QualityGate.Python
