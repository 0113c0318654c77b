import QualityGate.Proofs.Node.Place

/-! What stands around a node. The ancestors of a node are the nodes on the way down to its address.
A traversal that hands something down gives each node what its ancestors, from the outermost on, make
of what the traversal starts with. So the function around a node, the definition around it and
everything else that rules keep on a stack while they walk are read off one list. -/
namespace QualityGate.Node

/-- The nodes on the way down to an address, the outermost first. -/
def ancestors (ns : List Node) (a : Address) : List Node :=
  a.inits.dropLast.filterMap (nodeAt? ns)

/-- The function that stands the furthest down on the way to an address. -/
def functionAround? (ns : List Node) (a : Address) : Option FunctionHead :=
  ((ancestors ns a).filterMap functionHead?).getLast?

-- a `pass` in a function in a class in a function, and the inner function
example :
    let inner : Node := .functionDef ⟨3, 4⟩ ⟨"g", [], false⟩ [.pass ⟨4, 4⟩]
    let body : List Node := [.functionDef ⟨1, 4⟩ ⟨"f", [], false⟩ [.classDef ⟨2, 4⟩ ⟨"C", []⟩ [inner]]]
    (functionAround? body [0, 0, 0, 0]).map (·.name) = some "g" ∧
      (functionAround? body [0, 0, 0]).map (·.name) = some "f" := by decide

variable {ns : List Node} {a : Address}

@[simp] theorem ancestors_singleton (ns : List Node) (i : Nat) : ancestors ns [i] = [] := rfl

theorem ancestors_cons {n : Node} {i : Nat} (hn : ns[i]? = some n) (ha : a ≠ []) :
    ancestors ns (i :: a) = n :: ancestors n.children a := by
  obtain ⟨j, b, rfl⟩ := List.exists_cons_of_ne_nil ha
  simp only [ancestors, dropLast_inits_cons, List.map_cons, List.map_map, List.filterMap_cons,
    List.filterMap_map]
  simp only [nodeAt?, hn, Option.bind_some, descendant?, Function.comp_def]

/-! ### Handing down -/

section Handing

variable {σ : Type} {hand : σ → Node → σ}

/-- A node inherits what its ancestors make, one after the other, of what the siblings inherit. -/
theorem walkAllWith_eq_foldl (hand : σ → Node → σ) (s : σ) (ns : List Node) :
    walkAllWith hand s ns = (places ns).map fun p => ((ancestors ns p.1).foldl hand s, p.2) := by
  induction ns using induction_on_siblings generalizing s with
  | step ns ih =>
    rw [walkAllWith, flatMap_eq_flatMap_zipIdx, places, List.map_flatMap]
    apply List.flatMap_congr
    intro c hc
    have hn : ns[c.2]? = some c.1 := List.mem_zipIdx_iff_getElem?.mp hc
    have hbelow : ∀ p ∈ places c.1.children,
        ancestors ns (c.2 :: p.1) = c.1 :: ancestors c.1.children p.1 :=
      fun p hp => ancestors_cons hn (address_ne_nil hp)
    rw [walkWith_eq, map_under_placesIn, ← walkAllWith, ih c.1 (mem_of_mem_zipIdx hc),
      List.map_cons, List.map_map, ancestors_singleton]
    refine congrArg ((s, c.1) :: ·) (List.map_congr_left fun p hp => ?_)
    simp only [Function.comp_apply, under]
    rw [hbelow p hp, List.foldl_cons]

theorem flatMap_filter_of_eq_nil {α β : Type} {xs : List α} {p : α → Bool} {f : α → List β}
    (h : ∀ x, p x = false → f x = []) : (xs.filter p).flatMap f = xs.flatMap f := by
  induction xs with
  | nil => rfl
  | cons x xs ih =>
    cases hp : p x with
    | true => rw [List.filter_cons_of_pos hp, List.flatMap_cons, List.flatMap_cons, ih]
    | false =>
      rw [List.filter_cons_of_neg (by simp [hp]), List.flatMap_cons, h x hp, List.nil_append, ih]

/-- Where only nodes of one sort give something, a traversal lists what the nodes of this sort give,
each below its ancestors. -/
theorem flatMap_walkAllWith_filter {α : Type} {own : σ → Node → List α} {p : Node → Bool}
    (h : ∀ s n, p n = false → own s n = []) (s : σ) (ns : List Node) :
    ((walkAllWith hand s ns).flatMap fun q => own q.1 q.2) =
      ((places ns).filter (p ·.2)).flatMap fun q => own ((ancestors ns q.1).foldl hand s) q.2 := by
  rw [walkAllWith_eq_foldl, List.flatMap_map]
  exact (flatMap_filter_of_eq_nil fun q hq => h _ q.2 hq).symm

/-! ### Handing down from definitions -/

/-- What a node is handed down by its nearest definition. -/
def handedAt (hand : σ → Node → σ) (s : σ) (ns : List Node) (a : Address) : σ :=
  ((definitionAround? ns a).map (hand s)).getD s

/-- The nearest definition is the last ancestor that is a definition. -/
theorem definitionAround?_eq (ns : List Node) (a : Address) :
    definitionAround? ns a = (ancestors ns a).reverse.find? isDefinition := by
  rw [ancestors, ← List.filterMap_reverse, List.find?_filterMap, definitionAround?, enclosing?]

/-- Where definitions hand down something of their own and other nodes what they inherit, every
node inherits from its nearest definition. -/
theorem walkAllWith_eq_places (hdef : ∀ s t n, n.isDefinition → hand s n = hand t n)
    (hother : ∀ s n, n.isDefinition = false → hand s n = s) (s : σ) (ns : List Node) :
    walkAllWith hand s ns = (places ns).map fun p => (handedAt hand s ns p.1, p.2) := by
  have hlast : ∀ a, (ancestors ns a).foldl hand s = handedAt hand s ns a := by
    intro a
    rw [handedAt, definitionAround?_eq]
    induction ancestors ns a using List.reverseRecOn with
    | nil => rfl
    | append_singleton as n ih =>
      rw [List.foldl_concat, List.reverse_concat]
      cases hn : n.isDefinition with
      | true => simpa [hn] using hdef _ _ n hn
      | false => simpa [hn, hother _ n hn] using ih
  rw [walkAllWith_eq_foldl]
  simp only [hlast]

end Handing

/-! ### The function around a node -/

theorem getLast?_filterMap_concat {β : Type} (f : Node → Option β) (as : List Node) (n : Node) :
    ((as ++ [n]).filterMap f).getLast? = (f n).or (as.filterMap f).getLast? := by
  rw [List.filterMap_append]
  cases hn : f n with
  | none => simp [hn]
  | some b => simp [hn]

end QualityGate.Node
