import Mathlib.Data.List.Infix
import Mathlib.Data.List.Nodup
import QualityGate.Proofs.Node.Inheritance

/-! Where nodes stand. The address of a node says which child to take at every level on the way
down to it, so that one address comes before another just when its node stands around the other's
node. What encloses a node the most closely is the longest such address where a definition stands.
The scope of a definition, which a walk finds by leaving out inner definitions, is found by these
addresses. -/
namespace QualityGate.Node

/-- The way down to a node: the number of the sibling that it starts from, then that of the
child at every level. -/
abbrev Address := List Nat

/-- The node at an address below a node. -/
def descendant? : Node → Address → Option Node
  | n, [] => some n
  | n, i :: a => n.children[i]?.bind (descendant? · a)

/-- The node at an address among siblings and below them. -/
def nodeAt? (ns : List Node) : Address → Option Node
  | [] => none
  | i :: a => ns[i]?.bind (descendant? · a)

/-- The address of the nearest definition around an address: the longest of the ways down that
it goes on from, at the end of which a definition stands. -/
def enclosing? (ns : List Node) (a : Address) : Option Address :=
  a.inits.dropLast.reverse.find? fun b => (nodeAt? ns b).any isDefinition

/-- The definition that encloses an address the most closely. -/
def definitionAround? (ns : List Node) (a : Address) : Option Node :=
  (enclosing? ns a).bind (nodeAt? ns)

/-- One more step at the start of the way down. -/
def under (i : Nat) (p : Address × Node) : Address × Node := (i :: p.1, p.2)

/-- The node and everything below it in source order, each node with its address. -/
def placesIn (n : Node) : List (Address × Node) :=
  ([], n) :: n.children.attach.zipIdx.flatMap fun c => (placesIn c.1.1).map (under c.2)
termination_by sizeOf n
decreasing_by exact sizeOf_lt_of_mem_children c.1.2

/-- Siblings and everything below them in source order, each node with its address. -/
def places (ns : List Node) : List (Address × Node) :=
  ns.zipIdx.flatMap fun c => (placesIn c.1).map (under c.2)

/-- The nodes whose nearest definition stands at an address, in source order. -/
def enclosedBy (ns : List Node) (a : Address) : List Node :=
  ((places ns).filter fun p => enclosing? ns p.1 = some a).map Prod.snd

/-! ### Siblings by their numbers -/

theorem flatMap_eq_flatMap_zipIdx {β : Type} (f : Node → List β) (ns : List Node) :
    ns.flatMap f = ns.zipIdx.flatMap fun c => f c.1 := by
  conv_lhs => rw [← List.zipIdx_map_fst 0 ns, List.flatMap_map]

/-- Where one sibling only adds something, all of them add what it does. -/
theorem flatMap_zipIdx_single {α β : Type} {xs : List α} {f : α × Nat → List β} {i k : Nat} {x : α}
    (hx : xs[i]? = some x) (h : ∀ c ∈ xs.zipIdx k, c.2 ≠ k + i → f c = []) :
    (xs.zipIdx k).flatMap f = f (x, k + i) := by
  induction xs generalizing i k with
  | nil => simp at hx
  | cons y xs ih =>
    rw [List.zipIdx_cons] at h
    rw [List.zipIdx_cons, List.flatMap_cons]
    cases i with
    | zero =>
      obtain rfl : y = x := by simpa using hx
      have hrest : (xs.zipIdx (k + 1)).flatMap f = [] := by
        refine List.flatMap_eq_nil_iff.mpr fun c hc => h c (List.mem_cons_of_mem _ hc) ?_
        have := List.le_snd_of_mem_zipIdx hc
        omega
      rw [hrest, List.append_nil, Nat.add_zero]
    | succ i =>
      have hfirst : f (y, k) = [] := h (y, k) List.mem_cons_self (by simp)
      have hnext : k + (i + 1) = k + 1 + i := by omega
      rw [hfirst, List.nil_append, hnext]
      refine ih (by simpa using hx) fun c hc hne => h c (List.mem_cons_of_mem _ hc) ?_
      omega

theorem placesIn_eq (n : Node) : placesIn n = ([], n) :: places n.children := by
  have hattach : n.children.zipIdx = n.children.attach.zipIdx.map (Prod.map Subtype.val id) := by
    rw [← List.zipIdx_map, List.attach_map_subtype_val]
  rw [placesIn, places, hattach, List.flatMap_map]
  rfl

theorem map_under_placesIn (i : Nat) (n : Node) :
    (placesIn n).map (under i) = ([i], n) :: (places n.children).map (under i) := by
  rw [placesIn_eq, List.map_cons]
  rfl

/-! ### Addresses -/

variable {ns : List Node} {a b : Address}

theorem descendant?_of_ne_nil (n : Node) (ha : a ≠ []) :
    descendant? n a = nodeAt? n.children a := by
  cases a with
  | nil => exact absurd rfl ha
  | cons i a => rfl

theorem mem_places_iff {p : Address × Node} : p ∈ places ns ↔ nodeAt? ns p.1 = some p.2 := by
  obtain ⟨a, m⟩ := p
  induction a generalizing ns with
  | nil => simp [places, under, nodeAt?]
  | cons i a ih =>
    have hin : ∀ n : Node, (a, m) ∈ placesIn n ↔ descendant? n a = some m := by
      intro n
      rw [placesIn_eq, List.mem_cons, ih]
      cases a with
      | nil => simp [nodeAt?, descendant?, eq_comm]
      | cons j a => simp [descendant?_of_ne_nil]
    simp only [places, List.mem_flatMap, List.mem_map, nodeAt?, Option.bind_eq_some_iff]
    constructor
    · rintro ⟨⟨n, j⟩, hn, ⟨b, m'⟩, hp, heq⟩
      obtain ⟨⟨rfl, rfl⟩, rfl⟩ := by simpa [under] using heq
      exact ⟨n, List.mem_zipIdx_iff_getElem?.mp hn, (hin n).mp hp⟩
    · rintro ⟨n, hn, hm⟩
      exact ⟨(n, i), List.mem_zipIdx_iff_getElem?.mpr hn, (a, m), (hin n).mpr hm, rfl⟩

theorem address_ne_nil {p : Address × Node} (hp : p ∈ places ns) : p.1 ≠ [] := by
  intro hnil
  rw [mem_places_iff, hnil] at hp
  cases hp

/-- Induction on siblings: what holds of siblings when it holds of the children of each of them
holds of all siblings. -/
theorem induction_on_siblings {P : List Node → Prop}
    (step : ∀ ns, (∀ n ∈ ns, P n.children) → P ns) (ns : List Node) : P ns :=
  step ns fun n _ => induction_on_children (P := fun n => P n.children) (fun n ih =>
    step n.children ih) n

theorem mem_of_mem_zipIdx {c : Node × Nat} (hc : c ∈ ns.zipIdx) : c.1 ∈ ns :=
  List.mem_of_getElem? (List.mem_zipIdx_iff_getElem?.mp hc)

theorem map_snd_places (ns : List Node) : (places ns).map Prod.snd = walkAll ns := by
  induction ns using induction_on_siblings with
  | step ns ih =>
    rw [places, List.map_flatMap, walkAll, flatMap_eq_flatMap_zipIdx]
    refine List.flatMap_congr fun c hc => ?_
    rw [walk_eq, ← ih c.1 (mem_of_mem_zipIdx hc), placesIn_eq, List.map_map]
    rfl

theorem map_snd_filter_places (p : Node → Bool) (ns : List Node) :
    ((places ns).filter (p ·.2)).map Prod.snd = (walkAll ns).filter p := by
  rw [← map_snd_places, List.filter_map]
  rfl

theorem mem_filter_places_iff (p : Node → Bool) {q : Address × Node} :
    q ∈ (places ns).filter (p ·.2) ↔ nodeAt? ns q.1 = some q.2 ∧ p q.2 := by
  rw [List.mem_filter, mem_places_iff]

/-- In source order the addresses grow. -/
theorem pairwise_lt_addresses (ns : List Node) :
    ((places ns).map Prod.fst).Pairwise (· < ·) := by
  induction ns using induction_on_siblings with
  | step ns ih =>
    rw [places, List.map_flatMap, List.pairwise_flatMap]
    constructor
    · intro c hc
      have hmap : ((placesIn c.1).map (under c.2)).map Prod.fst =
          [c.2] :: ((places c.1.children).map Prod.fst).map (c.2 :: ·) := by
        rw [map_under_placesIn, List.map_cons, List.map_map, List.map_map]
        rfl
      rw [hmap, List.pairwise_cons, List.pairwise_map]
      refine ⟨fun a ha => ?_, (ih c.1 (mem_of_mem_zipIdx hc)).imp fun hlt => ?_⟩
      · obtain ⟨b, hb, rfl⟩ := List.mem_map.mp ha
        obtain ⟨p, hp, rfl⟩ := List.mem_map.mp hb
        obtain ⟨j, b, hcons⟩ := List.exists_cons_of_ne_nil (address_ne_nil hp)
        rw [hcons]
        exact List.cons_lt_cons_iff.mpr (.inr ⟨rfl, List.nil_lt_cons j b⟩)
      · exact List.cons_lt_cons_iff.mpr (.inr ⟨rfl, hlt⟩)
    · have hindices : (ns.zipIdx.map Prod.snd).Pairwise (· < ·) := by
        rw [List.zipIdx_map_snd]
        exact List.pairwise_lt_range' ..
      refine (List.pairwise_map.mp hindices).imp fun {c d} hlt x hx y hy => ?_
      simp only [List.map_map, List.mem_map, Function.comp_apply, under] at hx hy
      obtain ⟨p, -, rfl⟩ := hx
      obtain ⟨q, -, rfl⟩ := hy
      exact List.cons_lt_cons_iff.mpr (.inl hlt)

/-- No two nodes have the same address. -/
theorem nodup_addresses (ns : List Node) : ((places ns).map Prod.fst).Nodup := by
  refine (pairwise_lt_addresses ns).imp fun {a b} hlt heq => ?_
  rw [heq] at hlt
  exact List.lt_irrefl b hlt

/-! ### The nearest definition -/

theorem dropLast_inits_cons (i : Nat) (a : Address) :
    (i :: a).inits.dropLast = [] :: a.inits.dropLast.map (i :: ·) := by
  have hne : a.inits.map (i :: ·) ≠ [] := by
    cases a <;> simp
  rw [List.inits_cons, List.dropLast_cons_of_ne_nil hne, List.map_dropLast]

theorem reverse_dropLast_inits_cons (i : Nat) (a : Address) : (i :: a).inits.dropLast.reverse =
    a.inits.dropLast.reverse.map (i :: ·) ++ [[]] := by
  rw [dropLast_inits_cons, List.reverse_cons, List.map_reverse]

/-- Below a sibling the nearest definition is found among its children, or it is the sibling. -/
theorem enclosing?_cons {n : Node} {i : Nat} (hn : ns[i]? = some n) (a : Address) :
    enclosing? ns (i :: a) = ((enclosing? n.children a).map (i :: ·)).or
      (if n.isDefinition && a ≠ [] then some [i] else none) := by
  have hbelow : enclosing? ns (i :: a) = (a.inits.dropLast.reverse.find? fun b =>
      (descendant? n b).any isDefinition).map (i :: ·) := by
    rw [enclosing?, reverse_dropLast_inits_cons, List.find?_append, List.find?_map]
    simp [nodeAt?, hn, Function.comp_def]
  rw [hbelow]
  cases a with
  | nil => simp [enclosing?]
  | cons j a =>
    rw [enclosing?, reverse_dropLast_inits_cons, List.find?_append, List.find?_append,
      List.find?_map, List.find?_map]
    have hown : [[]].find? (fun b => (descendant? n b).any isDefinition) =
        if n.isDefinition then some [] else none := by
      cases hdef : n.isDefinition <;> simp [descendant?, hdef]
    have hnone : [[]].find? (fun b => (nodeAt? n.children b).any isDefinition) = none := by
      simp [nodeAt?]
    rw [hown, hnone, Option.or_none]
    -- one step further down, the two searches ask the same of every address
    change Option.map _ ((Option.map _ ?found).or _) = (Option.map _ (Option.map _ ?found)).or _
    generalize List.find? _ _ = found
    cases found <;> cases n.isDefinition <;> rfl

/-- A definition stands at an address on the way down to another. -/
def Encloses (ns : List Node) (b a : Address) : Prop :=
  b <+: a ∧ b ≠ a ∧ ∃ d, nodeAt? ns b = some d ∧ d.isDefinition

theorem mem_dropLast_inits : b ∈ a.inits.dropLast ↔ b <+: a ∧ b ≠ a := by
  induction a generalizing b with
  | nil => simp
  | cons i a ih =>
    have hmem : b ∈ (i :: a).inits.dropLast ↔ b = [] ∨ ∃ b' ∈ a.inits.dropLast, i :: b' = b := by
      rw [← List.mem_reverse, reverse_dropLast_inits_cons, List.mem_append, or_comm]
      simp only [List.mem_map, List.mem_reverse, List.mem_singleton]
    rw [hmem]
    cases b with
    | nil => simp
    | cons j b =>
      simp only [reduceCtorEq, false_or, List.cons.injEq, ih, List.cons_prefix_cons, ne_eq]
      constructor
      · rintro ⟨b', ⟨hpre, hne⟩, rfl, rfl⟩
        exact ⟨⟨rfl, hpre⟩, fun h => hne h.2⟩
      · rintro ⟨⟨rfl, hpre⟩, hne⟩
        exact ⟨b, ⟨hpre, fun h => hne ⟨rfl, h⟩⟩, rfl, rfl⟩

theorem encloses_iff : Encloses ns b a ↔
    b ∈ a.inits.dropLast.reverse ∧ (nodeAt? ns b).any isDefinition := by
  rw [Encloses, List.mem_reverse, mem_dropLast_inits, Option.any_eq_true, and_assoc]

/-- The ways down that an address goes on from, the longest first. -/
theorem pairwise_reverse_dropLast_inits (a : Address) :
    a.inits.dropLast.reverse.Pairwise fun b b' => b' <+: b := by
  induction a with
  | nil => simp
  | cons i a ih =>
    rw [reverse_dropLast_inits_cons, List.pairwise_append]
    refine ⟨List.pairwise_map.mpr (ih.imp fun h => ?_), List.pairwise_singleton .., by simp⟩
    exact List.cons_prefix_cons.mpr ⟨rfl, h⟩

/-- Without an enclosing definition there is no definition on the way down. -/
theorem enclosing?_eq_none_iff : enclosing? ns a = none ↔ ∀ b, ¬ Encloses ns b a := by
  simp only [enclosing?, List.find?_eq_none, encloses_iff, not_and]

/-- The enclosing definition is the one that all the others on the way down come before. -/
theorem enclosing?_eq_some_iff : enclosing? ns a = some b ↔
    Encloses ns b a ∧ ∀ b', Encloses ns b' a → b' <+: b := by
  have hnearest : ∀ b, enclosing? ns a = some b →
      Encloses ns b a ∧ ∀ b', Encloses ns b' a → b' <+: b := by
    intro b h
    obtain ⟨hdef, before, after, hsplit, hnone⟩ := List.find?_eq_some_iff_append.mp h
    have horder := pairwise_reverse_dropLast_inits a
    rw [hsplit, List.pairwise_append, List.pairwise_cons] at horder
    refine ⟨encloses_iff.mpr ⟨by simp [hsplit], hdef⟩, fun b' hb' => ?_⟩
    obtain ⟨hmem, hdef'⟩ := encloses_iff.mp hb'
    rw [hsplit, List.mem_append, List.mem_cons] at hmem
    rcases hmem with hmem | rfl | hmem
    · have hno := hnone b' hmem
      rw [hdef'] at hno
      cases hno
    · exact List.prefix_rfl
    · exact horder.2.1.1 b' hmem
  refine ⟨hnearest b, fun ⟨hb, hlast⟩ => ?_⟩
  cases h : enclosing? ns a with
  | none => exact absurd hb (enclosing?_eq_none_iff.mp h b)
  | some b₀ =>
    obtain ⟨hb₀, hlast₀⟩ := hnearest b₀ h
    have hsame : b₀ = b :=
      (hlast b₀ hb₀).eq_of_length_le (hlast₀ b hb).length_le
    rw [hsame]

-- a `pass` in a branch in a method, and the method in its class
example :
    let body : List Node := [.classDef ⟨1, 4⟩ ⟨"C", []⟩ [.functionDef ⟨2, 4⟩ ⟨"f", [], false⟩
      [.branch ⟨3, 4⟩ false (.name ⟨3, 3⟩ "x") [.pass ⟨4, 4⟩] []]]]
    enclosing? body [0, 0, 0, 1] = some [0, 0] ∧ enclosing? body [0, 0] = some [0] := by decide

theorem enclosing?_ne_nil (ns : List Node) (a : Address) : enclosing? ns a ≠ some [] := by
  intro h
  simpa [nodeAt?] using List.find?_some h

/-- What encloses a node is a definition. -/
theorem isDefinition_of_enclosing? (h : enclosing? ns a = some b) :
    ∃ d, nodeAt? ns b = some d ∧ d.isDefinition := by
  have hdef := List.find?_some (p := fun b => (nodeAt? ns b).any isDefinition) h
  exact (Option.any_eq_true ..).mp hdef

/-- Around siblings that are nobody's children there is no definition. -/
theorem enclosing?_singleton (ns : List Node) (i : Nat) : enclosing? ns [i] = none := by
  simp [enclosing?, nodeAt?]

theorem enclosing?_below {n : Node} {i : Nat} (hn : ns[i]? = some n) {p : Address × Node}
    (hp : p ∈ places n.children) :
    enclosing? ns (i :: p.1) = ((enclosing? n.children p.1).map (i :: ·)).or
      (if n.isDefinition then some [i] else none) := by
  rw [enclosing?_cons hn]
  simp [address_ne_nil hp]

/-! ### Scopes -/

/-- The scope that siblings span is what stands in no definition, without the definitions. -/
theorem scopeAll_eq (ns : List Node) : scopeAll ns =
    ((places ns).filter fun p => (enclosing? ns p.1).isNone && !p.2.isDefinition).map Prod.snd := by
  induction ns using induction_on_siblings with
  | step ns ih =>
    rw [places, List.filter_flatMap, List.map_flatMap, scopeAll, flatMap_eq_flatMap_zipIdx]
    refine List.flatMap_congr fun c hc => ?_
    have hn : ns[c.2]? = some c.1 := List.mem_zipIdx_iff_getElem?.mp hc
    have hbelow : ∀ p ∈ places c.1.children,
        ((enclosing? ns (c.2 :: p.1)).isNone && !p.2.isDefinition) =
          (!c.1.isDefinition && ((enclosing? c.1.children p.1).isNone && !p.2.isDefinition)) := by
      intro p hp
      rw [enclosing?_below hn hp]
      cases enclosing? c.1.children p.1 <;> cases c.1.isDefinition <;> rfl
    have hrest : (((places c.1.children).map (under c.2)).filter fun p =>
        (enclosing? ns p.1).isNone && !p.2.isDefinition).map Prod.snd =
          if c.1.isDefinition then [] else scopeAll c.1.children := by
      rw [List.filter_map, List.map_map, ih c.1 (mem_of_mem_zipIdx hc)]
      refine (congrArg (List.map _) (List.filter_congr hbelow)).trans ?_
      cases c.1.isDefinition with
      | true => simp
      | false => rfl
    rw [scope_eq, map_under_placesIn, List.filter_cons, enclosing?_singleton]
    cases hdef : c.1.isDefinition with
    | true => simp [hrest, hdef]
    | false => simp [hrest, hdef]

section Sibling

variable {n : Node} {i : Nat} (hn : ns[i]? = some n)
include hn

/-- What is enclosed by a sibling or by what is below it is below it. -/
theorem enclosedBy_cons (a : Address) : enclosedBy ns (i :: a) =
    ((places n.children).filter fun p =>
      enclosing? ns (i :: p.1) = some (i :: a)).map Prod.snd := by
  have hothers : ∀ c ∈ ns.zipIdx, c.2 ≠ 0 + i →
      (((placesIn c.1).map (under c.2)).filter fun p =>
        enclosing? ns p.1 = some (i :: a)).map Prod.snd = [] := by
    intro c hc hne
    rw [List.map_eq_nil_iff, List.filter_eq_nil_iff]
    intro p hp
    obtain ⟨q, -, rfl⟩ := List.mem_map.mp hp
    have hc := List.mem_zipIdx_iff_getElem?.mp hc
    rw [under, enclosing?_cons hc]
    have hfar : c.2 ≠ i := by omega
    cases enclosing? c.1.children q.1 <;> simp [hfar]
  rw [enclosedBy, places, List.filter_flatMap, List.map_flatMap, flatMap_zipIdx_single hn hothers,
    Nat.zero_add, map_under_placesIn, List.filter_cons, enclosing?_singleton, List.filter_map]
  simp only [reduceCtorEq, decide_false, Bool.false_eq_true, if_false, List.map_map]
  rfl

theorem enclosedBy_cons_of_ne_nil (ha : a ≠ []) :
    enclosedBy ns (i :: a) = enclosedBy n.children a := by
  rw [enclosedBy_cons hn, enclosedBy]
  congr 1
  refine List.filter_congr fun p hp => ?_
  rw [enclosing?_below hn hp]
  cases enclosing? n.children p.1 <;> cases n.isDefinition <;> simp [Ne.symm ha]

theorem enclosedBy_singleton (hdef : n.isDefinition) : enclosedBy ns [i] =
    ((places n.children).filter fun p => (enclosing? n.children p.1).isNone).map Prod.snd := by
  rw [enclosedBy_cons hn]
  congr 1
  refine List.filter_congr fun p hp => ?_
  rw [enclosing?_below hn hp, hdef]
  have hne := enclosing?_ne_nil n.children p.1
  cases henclosing : enclosing? n.children p.1 with
  | none => simp
  | some b =>
    rw [henclosing] at hne
    simpa using hne

end Sibling

/-- The scope of a definition is what it encloses the nearest, without the definitions. -/
theorem filter_enclosedBy {d : Node} (hd : nodeAt? ns a = some d) (hdef : d.isDefinition) :
    (enclosedBy ns a).filter (!·.isDefinition) = scopeAll d.children := by
  induction a generalizing ns with
  | nil => cases hd
  | cons i a ih =>
    rw [nodeAt?] at hd
    obtain ⟨n, hn, hd⟩ := Option.bind_eq_some_iff.mp hd
    by_cases ha : a = []
    · subst ha
      obtain rfl : n = d := by simpa [descendant?] using hd
      rw [enclosedBy_singleton hn hdef, scopeAll_eq, List.filter_map, List.filter_filter]
      congr 1
      refine List.filter_congr fun p _ => ?_
      simp [Bool.and_comm]
    · rw [descendant?_of_ne_nil n ha] at hd
      rw [enclosedBy_cons_of_ne_nil hn ha, ih hd]

end QualityGate.Node
