import QualityGate.Node.Basic
import QualityGate.Total

/-! Depth-first traversal in source order. `walk` lists a node before its children,
by recursion on the tree; `scope` does the same but leaves nested definitions out;
a `Cursor` yields the same nodes one by one from a stack of pending ones. -/
namespace QualityGate.Node

/-- The node and everything below it, each node before its children. -/
def walk (n : Node) : List Node := n :: n.children.attach.flatMap fun ⟨c, _⟩ => walk c
termination_by sizeOf n
decreasing_by exact sizeOf_lt_of_mem_children ‹_›

/-- The nodes of several siblings and everything below them. -/
def walkAll (ns : List Node) : List Node := ns.flatMap walk

/-- The node and what is below it in the same scope; a definition has no part in
the scope around it. -/
def scope (n : Node) : List Node :=
  if n.isDefinition then [] else n :: n.children.attach.flatMap fun ⟨c, _⟩ => scope c
termination_by sizeOf n
decreasing_by exact sizeOf_lt_of_mem_children ‹_›

/-- The scope that a body spans. -/
def scopeAll (ns : List Node) : List Node := ns.flatMap scope

def count (n : Node) : Nat := 1 + total (n.children.attach.map fun ⟨c, _⟩ => count c)
termination_by sizeOf n
decreasing_by exact sizeOf_lt_of_mem_children ‹_›

theorem walk_eq (n : Node) : n.walk = n :: walkAll n.children := by
  rw [walk, walkAll]; simp

theorem scope_eq (n : Node) :
    n.scope = if n.isDefinition then [] else n :: scopeAll n.children := by
  rw [scope, scopeAll]; simp

theorem count_eq (n : Node) : n.count = 1 + total (n.children.map count) := by
  rw [count]; simp

@[simp] theorem walkAll_nil : walkAll [] = [] := rfl

@[simp] theorem walkAll_cons (n : Node) (ns : List Node) :
    walkAll (n :: ns) = n.walk ++ walkAll ns := rfl

@[simp] theorem walkAll_append (ms ns : List Node) :
    walkAll (ms ++ ns) = walkAll ms ++ walkAll ns := by simp [walkAll]

@[simp] theorem scopeAll_nil : scopeAll [] = [] := rfl

@[simp] theorem scopeAll_cons (n : Node) (ns : List Node) :
    scopeAll (n :: ns) = n.scope ++ scopeAll ns := rfl

/-! ### Cursors -/

/-- A traversal under way: the nodes still to be visited, on a stack that grows to the right, and
whether definitions are visited at all. -/
structure Cursor where
  stack : Array Node
  entersDefinitions : Bool

namespace Cursor

/-- A traversal that has siblings before it, the first one on top of the stack. -/
def start (entersDefinitions : Bool) (ns : List Node) : Cursor :=
  ⟨ns.reverse.toArray, entersDefinitions⟩

def ofSiblings (ns : List Node) : Cursor := start true ns

def ofScope (ns : List Node) : Cursor := start false ns

/-- The next node of a traversal, and the traversal behind it. The node leaves the top of the
stack, and its children are put there so that the first one is on top. A definition that is not
visited is dropped with everything in it. -/
def next? (c : Cursor) : Option (Node × Cursor) :=
  if h : 0 < c.stack.size then
    let n := c.stack.back h
    if !c.entersDefinitions && n.isDefinition then next? { c with stack := c.stack.pop }
    else some (n, { c with stack := c.stack.pop ++ n.children.reverse })
  else none
termination_by c.stack.size
decreasing_by
  rw [Array.size_pop]
  omega

/-- The nodes on the stack, the next one first. -/
def pending (c : Cursor) : List Node := c.stack.toList.reverse

@[simp] theorem pending_start (enters : Bool) (ns : List Node) :
    (start enters ns).pending = ns := by
  simp [pending, start]

theorem start_pending (c : Cursor) : start c.entersDefinitions c.pending = c := by
  simp [pending, start]

@[simp] theorem next?_start_nil (enters : Bool) : (start enters []).next? = none := by
  rw [next?]
  rfl

/-- What stands first is dropped or visited; its children come next, then what stood behind it. -/
theorem next?_start_cons (enters : Bool) (n : Node) (ns : List Node) :
    (start enters (n :: ns)).next? = if !enters && n.isDefinition then (start enters ns).next?
      else some (n, start enters (n.children ++ ns)) := by
  have hstack : start enters (n :: ns) = ⟨ns.reverse.toArray.push n, enters⟩ := by
    simp [start]
  have hchildren : ns.reverse.toArray ++ n.children.reverse =
      (n.children ++ ns).reverse.toArray := by
    simp
  have hsize : 0 < (ns.reverse.toArray.push n).size := by
    simp
  have htop : (ns.reverse.toArray.push n).back hsize = n := by
    simp [Array.back]
  rw [hstack, next?, dif_pos hsize]
  simp only [htop, Array.pop_push, hchildren]
  rfl

/-- The number of nodes on the stack and below them. -/
def weight (c : Cursor) : Nat := total (c.pending.map count)

theorem weight_lt_of_next? {c c' : Cursor} {n : Node} (h : c.next? = some (n, c')) :
    c'.weight < c.weight := by
  rw [← start_pending c] at h ⊢
  generalize c.entersDefinitions = enters, c.pending = ns at h
  induction ns with
  | nil => simp at h
  | cons m ns ih =>
    rw [next?_start_cons] at h
    have hcount := count_eq m
    simp only [weight, pending_start, List.map_cons, total_cons] at ih ⊢
    split at h
    · have := ih h
      omega
    · obtain ⟨rfl, rfl⟩ := by simpa using h
      simp only [pending_start, List.map_append, total_append]
      omega

/-- The nodes that a traversal yields until there is no next one. -/
def toList (c : Cursor) : List Node :=
  match _h : c.next? with
  | none => []
  | some (n, rest) => n :: rest.toList
termination_by c.weight
decreasing_by exact weight_lt_of_next? _h

theorem toList_eq (c : Cursor) : c.toList =
    match c.next? with
    | none => []
    | some (n, rest) => n :: rest.toList := by
  rw [toList]
  split
  next h => rw [h]
  next h => rw [h]

end Cursor

/-! ### Visits -/

/-- A visit hands every node to an action on a state, a node before its children. -/
def visit {σ : Type} (act : Node → σ → σ) (n : Node) (s : σ) : σ :=
  n.children.attach.foldl (fun s ⟨c, _⟩ => visit act c s) (act n s)
termination_by sizeOf n
decreasing_by exact sizeOf_lt_of_mem_children ‹_›

theorem visit_eq {σ : Type} (act : Node → σ → σ) (n : Node) (s : σ) :
    visit act n s = n.children.foldl (fun s c => visit act c s) (act n s) := by
  rw [visit]; simp

def visitAll {σ : Type} (act : Node → σ → σ) (ns : List Node) (s : σ) : σ :=
  ns.foldl (fun s n => visit act n s) s

end QualityGate.Node
