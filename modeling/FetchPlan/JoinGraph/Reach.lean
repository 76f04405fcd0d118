import FetchPlan.JoinGraph.Lemmas

/-!
# Reachable nodes

Two walks along the directed connections, both depth first and in the order of the connections.
`reachable` lists the nodes; `tour` lists the connections and tells which of them lead to a node
for the first time. Both end because a node hands out its connections only once:
`unspent` counts those that are still to come.
-/

namespace FetchPlan.JoinGraph

/-- The number of connections of the nodes not seen. -/
def unspent (g : JoinGraph) (seen : List Nat) : Nat :=
  ((g.ids.filter (· ∉ seen)).flatMap g.connections).length

private theorem length_flatMap_filter_cons {α : Type} (f : Nat → List α) {id : Nat}
    {seen l : List Nat} (hl : l.Nodup) (hid : id ∉ seen) :
    ((l.filter (· ∉ id :: seen)).flatMap f).length + (if id ∈ l then (f id).length else 0) =
      ((l.filter (· ∉ seen)).flatMap f).length := by
  induction l with
  | nil => simp
  | cons a l ih =>
    obtain ⟨ha, hl⟩ := List.nodup_cons.1 hl
    have ih := ih hl
    by_cases h : a = id
    · subst h
      simp only [List.filter_cons, hid, List.mem_cons, true_or, not_true, decide_false,
        not_false_eq_true, decide_true, if_true, List.flatMap_cons, List.length_append, ha,
        if_false] at ih ⊢
      simp only [Bool.false_eq_true, if_false]
      omega
    · have h' : id ≠ a := fun e => h e.symm
      by_cases hs : a ∈ seen <;>
        simp only [List.filter_cons, List.mem_cons, h, h', hs, or_true, false_or, not_true,
          not_false_eq_true, decide_true, decide_false, Bool.false_eq_true, if_true, if_false,
          List.flatMap_cons, List.length_append] at ih ⊢ <;> omega

/-- A node seen for the first time spends its connections. -/
theorem unspent_cons {g : JoinGraph} {id : Nat} {seen : List Nat} (h : id ∉ seen) :
    g.unspent (id :: seen) + (g.connections id).length = g.unspent seen := by
  have := length_flatMap_filter_cons g.connections (l := g.ids) List.nodup_range h
  by_cases hid : id ∈ g.ids
  · simpa [hid, unspent] using this
  · have hnil : g.connections id = [] := connections_of_size_le (by simpa using hid)
    simpa [hid, unspent, hnil] using this

/-- The nodes that a walk lists which has the nodes of `stack` before it and has listed `seen`,
the last of them first. -/
def walk (g : JoinGraph) : (stack seen : List Nat) → List Nat
  | [], seen => seen.reverse
  | id :: stack, seen =>
    if id ∈ seen then g.walk stack seen
    else g.walk ((g.connections id).map Connection.target ++ stack) (id :: seen)
termination_by stack seen => stack.length + g.unspent seen
decreasing_by
  · simp
  · have := unspent_cons (g := g) ‹id ∉ seen›
    simp
    omega

/-- The nodes that directed connections lead to from the root, depth first. -/
def reachable (g : JoinGraph) : List Nat := g.walk [root] []

/-- Whether directed connections lead to a node from the root. -/
def isReachable (g : JoinGraph) (id : Nat) : Bool := id ∈ g.reachable

/-- The number of connections of the reachable nodes. -/
def connectionCount (g : JoinGraph) : Nat := (g.reachable.flatMap g.connections).length

/-- A connection met on a tour, and whether its target was met there for the first time. -/
structure Passage where
  owner : Nat
  connection : Connection
  isFirst : Bool

/-- The rest of a tour that has the connections `pending` before it, each with its owner, and has
met the nodes `seen`. -/
def tourFrom (g : JoinGraph) : (pending : List (Nat × Connection)) → (seen : List Nat) →
    List Passage
  | [], _ => []
  | (owner, c) :: pending, seen =>
    if c.target ∈ seen then ⟨owner, c, false⟩ :: g.tourFrom pending seen
    else ⟨owner, c, true⟩ ::
      g.tourFrom ((g.connections c.target).map (c.target, ·) ++ pending) (c.target :: seen)
termination_by pending seen => pending.length + g.unspent seen
decreasing_by
  · simp
  · have := unspent_cons (g := g) ‹c.target ∉ seen›
    simp
    omega

/-- The connections met on the way from the root, depth first: behind a connection to a new node
come all that lead on from there. -/
def tour (g : JoinGraph) : List Passage :=
  g.tourFrom ((g.connections root).map (root, ·)) [root]

/-- Every node must be reachable. The error names the relation of the first that is not. -/
def validate (g : JoinGraph) : Except Error Unit :=
  let reached := g.reachable
  match g.ids.find? (· ∉ reached) with
  | some id => .error (Cause.disconnectedRelation (g.relation id))
  | none => .ok ()

end FetchPlan.JoinGraph
