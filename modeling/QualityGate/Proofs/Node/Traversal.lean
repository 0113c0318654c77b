import QualityGate.Proofs.Node.Place
import QualityGate.Proofs.Sequence.Keyed

/-! Three ways through a tree. A cursor keeps the nodes to be visited on a stack, and what it still
yields is at every step the listing of what is pending there. A visit hands the nodes of the same
listing to its action. The scopes of a tree, that of its siblings and those of the definitions in
it, share out all nodes but the definitions themselves. -/
namespace QualityGate.Node

variable {ns : List Node} {a : Address}

/-! ### Cursors -/

/-- Induction on what is pending: the first node goes, or its children take its place. -/
theorem induction_on_pending {P : List Node → Prop} (nil : P [])
    (cons : ∀ n ns, P ns → P (n.children ++ ns) → P (n :: ns)) : ∀ ns, P ns
  | [] => nil
  | n :: ns => cons n ns (induction_on_pending nil cons ns)
      (induction_on_pending nil cons (n.children ++ ns))
termination_by ns => total (ns.map count)
decreasing_by
  all_goals
    simp only [List.map_cons, List.map_append, total_cons, total_append, count_eq n]
    omega

namespace Cursor

/-- What a traversal lists: everything that is pending, or what is pending in the scope. -/
def listing (entersDefinitions : Bool) (ns : List Node) : List Node :=
  if entersDefinitions then walkAll ns else scopeAll ns

theorem listing_cons (enters : Bool) (n : Node) (ns : List Node) : listing enters (n :: ns) =
    if !enters && n.isDefinition then listing enters ns
    else n :: listing enters (n.children ++ ns) := by
  cases enters with
  | true => simp [listing, walk_eq]
  | false => cases hdef : n.isDefinition <;> simp [listing, scope_eq, scopeAll, hdef]

theorem toList_start (enters : Bool) (ns : List Node) :
    (start enters ns).toList = listing enters ns := by
  induction ns using induction_on_pending with
  | nil =>
    rw [toList_eq, next?_start_nil]
    cases enters <;> rfl
  | cons n ns hdropped hvisited =>
    have hnext := next?_start_cons enters n ns
    rw [listing_cons]
    split at hnext
    next hskip => rw [if_pos hskip, toList_eq, hnext, ← toList_eq, hdropped]
    next henter => rw [if_neg henter, ← hvisited, toList_eq, hnext]

-- a method in a class, with a statement before it and one behind the class
example :
    let body : List Node := [.classDef ⟨1, 4⟩ ⟨"C", []⟩ [.pass ⟨2, 2⟩,
      .functionDef ⟨3, 4⟩ ⟨"f", [], false⟩ [.pass ⟨4, 4⟩]], .pass ⟨5, 5⟩]
    (ofSiblings body).toList.map line = [1, 2, 3, 4, 5] ∧
      (ofScope body).toList.map line = [5] := by decide +kernel

/-- No traversal goes on for ever. -/
theorem wellFounded_next? : WellFounded fun c' c : Cursor => ∃ n, c.next? = some (n, c') :=
  Subrelation.wf (fun ⟨_, h⟩ => weight_lt_of_next? h) (measure weight).wf

end Cursor

/-! ### Visits -/

theorem visitAll_eq_foldl {σ : Type} (act : Node → σ → σ) (ns : List Node) (s : σ) :
    visitAll act ns s = (walkAll ns).foldl (fun s n => act n s) s := by
  induction ns using induction_on_siblings generalizing s with
  | step ns ih =>
    rw [visitAll, walkAll, List.foldl_flatMap]
    refine List.foldl_ext _ _ s fun s n hn => ?_
    rw [visit_eq, walk_eq, List.foldl_cons, ← ih n hn, visitAll]

/-! ### Scopes -/

/-- Whether a definition stands at an address or on the way down to it. -/
def inDefinition (ns : List Node) (a : Address) : Bool :=
  a.inits.any fun b => (nodeAt? ns b).any isDefinition

theorem inDefinition_iff : inDefinition ns a ↔
    ∃ b d, b <+: a ∧ nodeAt? ns b = some d ∧ d.isDefinition := by
  simp only [inDefinition, List.any_eq_true, List.mem_inits, Option.any_eq_true]
  exact exists_congr fun b => exists_and_left.symm

theorem inDefinition_eq_false_iff {p : Address × Node} (hp : p ∈ places ns) :
    inDefinition ns p.1 = false ↔ enclosing? ns p.1 = none ∧ p.2.isDefinition = false := by
  have hnode := mem_places_iff.mp hp
  rw [← Bool.not_eq_true, inDefinition_iff, enclosing?_eq_none_iff]
  constructor
  · intro hout
    refine ⟨fun b ⟨hpre, _, d, hd, hdef⟩ => hout ⟨b, d, hpre, hd, hdef⟩, ?_⟩
    exact Bool.eq_false_iff.mpr fun hdef => hout ⟨p.1, p.2, List.prefix_rfl, hnode, hdef⟩
  · rintro ⟨hnone, hno⟩ ⟨b, d, hpre, hd, hdef⟩
    by_cases heq : b = p.1
    · rw [heq, hnode] at hd
      rw [← Option.some.inj hd, hno] at hdef
      cases hdef
    · exact hnone b ⟨hpre, heq, d, hd, hdef⟩

/-- The scope that siblings span is what is left of them without the definitions and everything
below these. -/
theorem scopeAll_eq_filter (ns : List Node) :
    scopeAll ns = ((places ns).filter fun p => !inDefinition ns p.1).map Prod.snd := by
  rw [scopeAll_eq]
  congr 1
  refine List.filter_congr fun p hp => ?_
  rw [Bool.eq_iff_iff]
  simp [inDefinition_eq_false_iff hp]

/-- The places of the nodes in a scope: that of the siblings, or that of a definition among them
or below them. The definitions in it have no part in it. -/
def scopePlaces (ns : List Node) (owner : Option Address) : List (Address × Node) :=
  (places ns).filter fun p => enclosing? ns p.1 = owner && !p.2.isDefinition

def definitionPlaces (ns : List Node) : List (Address × Node) :=
  (places ns).filter fun p => p.2.isDefinition

theorem scopePlaces_none (ns : List Node) :
    (scopePlaces ns none).map Prod.snd = scopeAll ns := by
  rw [scopeAll_eq, scopePlaces]
  congr 2
  funext p
  cases enclosing? ns p.1 <;> simp

theorem scopePlaces_some {d : Address × Node} (hd : d ∈ definitionPlaces ns) :
    (scopePlaces ns (some d.1)).map Prod.snd = scopeAll d.2.children := by
  obtain ⟨hnode, hdef⟩ := (mem_filter_places_iff isDefinition).mp hd
  rw [← filter_enclosedBy hnode hdef, enclosedBy, List.filter_map, List.filter_filter, scopePlaces]
  congr 1
  refine List.filter_congr fun p _ => ?_
  exact Bool.and_comm _ _

/-- The scopes and the definitions share out the nodes. -/
theorem perm_places (ns : List Node) : (places ns).Perm (scopePlaces ns none ++
    (definitionPlaces ns ++ (definitionPlaces ns).flatMap fun d => scopePlaces ns (some d.1))) := by
  have howners : (none :: (definitionPlaces ns).map fun d => some d.1).Nodup := by
    have hsub : ((definitionPlaces ns).map Prod.fst).Sublist ((places ns).map Prod.fst) :=
      List.filter_sublist.map Prod.fst
    have hdistinct := ((nodup_addresses ns).sublist hsub).map (fun _ _ => Option.some.inj)
    rw [List.map_map] at hdistinct
    exact List.nodup_cons.mpr ⟨by simp, hdistinct⟩
  have howned : ∀ p ∈ (places ns).filter (!·.2.isDefinition),
      enclosing? ns p.1 ∈ none :: (definitionPlaces ns).map fun d => some d.1 := by
    intro p _
    cases howner : enclosing? ns p.1 with
    | none => exact List.mem_cons_self
    | some b =>
      obtain ⟨d, hd, hdef⟩ := isDefinition_of_enclosing? howner
      have hmem : (b, d) ∈ definitionPlaces ns :=
        (mem_filter_places_iff isDefinition).mpr ⟨hd, hdef⟩
      exact List.mem_cons_of_mem _ (List.mem_map.mpr ⟨(b, d), hmem, rfl⟩)
  have hscopes := perm_flatMap_filter_key howners howned
  simp only [List.filter_filter] at hscopes
  rw [List.flatMap_cons, List.flatMap_map] at hscopes
  have hsplit := List.filter_append_perm (fun p => p.2.isDefinition) (places ns)
  exact hsplit.symm.trans ((hscopes.append_left _).trans (List.perm_append_comm_assoc ..))

/-- A tree is the scope that it spans, its definitions, and the scopes of these. -/
theorem perm_walkAll (ns : List Node) : (walkAll ns).Perm (scopeAll ns ++
    ((walkAll ns).filter isDefinition ++
      ((walkAll ns).filter isDefinition).flatMap fun d => scopeAll d.children)) := by
  have hdefinitions : (definitionPlaces ns).map Prod.snd = (walkAll ns).filter isDefinition :=
    map_snd_filter_places isDefinition ns
  have hscopes : ((definitionPlaces ns).flatMap fun d => scopePlaces ns (some d.1)).map Prod.snd =
      ((walkAll ns).filter isDefinition).flatMap fun d => scopeAll d.children := by
    rw [← hdefinitions, List.map_flatMap, List.flatMap_map]
    exact List.flatMap_congr fun d hd => scopePlaces_some hd
  have hperm := (perm_places ns).map Prod.snd
  rwa [List.map_append, List.map_append, map_snd_places, scopePlaces_none, hdefinitions,
    hscopes] at hperm

/-- Every traversal ends. One of siblings yields what recursion lists: the node at every address
once, in the order of the addresses, where a node comes before its children and these are ordered
by their numbers. A visit acts on the nodes in this order. A traversal of a scope leaves out the
definitions with everything in them, and the nodes are shared out among the scope of the siblings,
the definitions, and the scopes of these. -/
theorem traversals_agree (ns : List Node) :
    (WellFounded fun c' c : Cursor => ∃ n, c.next? = some (n, c')) ∧
    (Cursor.ofSiblings ns).toList = walkAll ns ∧
    walkAll ns = (places ns).map Prod.snd ∧
    ((places ns).map Prod.fst).Pairwise (· < ·) ∧
    (∀ a n, (a, n) ∈ places ns ↔ nodeAt? ns a = some n) ∧
    (∀ {σ : Type} (act : Node → σ → σ) (s : σ), visitAll act ns s =
      (Cursor.ofSiblings ns).toList.foldl (fun s n => act n s) s) ∧
    (Cursor.ofScope ns).toList =
      ((places ns).filter fun p => !inDefinition ns p.1).map Prod.snd ∧
    (places ns).Perm (scopePlaces ns none ++ (definitionPlaces ns ++
      (definitionPlaces ns).flatMap fun d => scopePlaces ns (some d.1))) ∧
    (scopePlaces ns none).map Prod.snd = (Cursor.ofScope ns).toList ∧
    (∀ d ∈ definitionPlaces ns,
      (scopePlaces ns (some d.1)).map Prod.snd = (Cursor.ofScope d.2.children).toList) ∧
    (Cursor.ofSiblings ns).toList.Perm ((Cursor.ofScope ns).toList ++
      ((Cursor.ofSiblings ns).toList.filter isDefinition ++
        ((Cursor.ofSiblings ns).toList.filter isDefinition).flatMap fun d =>
          (Cursor.ofScope d.children).toList)) := by
  have hover : (Cursor.ofSiblings ns).toList = walkAll ns := Cursor.toList_start true ns
  have hscope : ∀ ns, (Cursor.ofScope ns).toList = scopeAll ns := Cursor.toList_start false
  simp only [hover, hscope]
  exact ⟨Cursor.wellFounded_next?, trivial, (map_snd_places ns).symm, pairwise_lt_addresses ns,
    fun _ _ => mem_places_iff, fun act => visitAll_eq_foldl act ns, scopeAll_eq_filter ns,
    perm_places ns, scopePlaces_none ns, fun _ => scopePlaces_some, perm_walkAll ns⟩

end QualityGate.Node
