import FetchPlan.JoinGraph.Reach

/-!
# Contractions of join graphs

Two nodes that stand for the same rows are folded into one. They do so when a node leads to both
by connections on the same fields to the same relation (`duplicate`), and when a step from one
node to another is walked back to the relation it came from (`roundTrip`). Every contraction
takes at least one connection away.
-/

namespace FetchPlan.JoinGraph

/-! ## Folding a node into another -/

/-- The connections of node `id` once those to `dropped` lead to `kept`. One that would lead from
`kept` to itself, or repeat a connection between the same nodes, is left out. `back` are the
connections of `kept`; `done` are the connections of `id` that have been looked at. -/
def redirect (id dropped kept : Nat) (back : List Connection) :
    (done rest : List Connection) → List Connection
  | done, [] => done
  | done, c :: rest =>
    if c.target ≠ dropped then redirect id dropped kept back (done ++ [c]) rest
    -- A loop at `kept`, or a repetition in either direction.
    else if id = kept ∨
        (done ++ c :: rest).any (fun d => d.target = kept ∧ d.fields = c.fields) ∨
        back.any (fun d => d.target = id ∧ d.fields = c.fields.reversed) then
      redirect id dropped kept back done rest
    else redirect id dropped kept back (done ++ [{ c with target := kept }]) rest

/-- The graph in which all connections to `dropped` lead to `kept`, node after node. -/
def redirectAll (g : JoinGraph) (dropped kept : Nat) : JoinGraph :=
  g.ids.foldl
    (fun g id =>
      g.setConnections id (redirect id dropped kept (g.connections kept) [] (g.connections id)))
    g

/-- The connections of `dropped` that `kept` takes over. -/
def inherited (g : JoinGraph) (kept dropped : Nat) : List Connection :=
  (g.connections dropped).filter fun c => c.target ≠ kept ∧ c.target ≠ dropped

/-- The graph in which `kept` has the fields of `dropped` too, and `dropped` has neither fields
nor connections. -/
def strip (g : JoinGraph) (kept dropped : Nat) : JoinGraph :=
  (g.update dropped fun n => { n with used := ∅, connections := [] }).use kept
    (g.used dropped).toList

/-- The graph in which connections lead on from `owner`, as far as they are new. -/
def connectAll (g : JoinGraph) (owner : Nat) (cs : List Connection) : JoinGraph :=
  cs.foldl (fun g c => g.connect owner c) g

/-- Folds `dropped` into `kept`: its fields and its connections move there, and every connection
to it leads to `kept`. -/
def fold (g : JoinGraph) (kept dropped : Nat) : JoinGraph :=
  ((g.strip kept dropped).connectAll kept (g.inherited kept dropped)).redirectAll dropped kept

/-- The graph without one connection of a node. -/
def disconnect (g : JoinGraph) (id : Nat) (index : Nat) : JoinGraph :=
  g.setConnections id ((g.connections id).eraseIdx index)

/-! ## Contractions -/

/-- A place where a graph can be made smaller. -/
inductive Contraction
  /-- The connection at `index` of `id` repeats another one. Its node `dropped`, unless this is
  `kept` itself, is folded into `kept`. -/
  | duplicate (id : Nat) (index : Nat) (kept dropped : Nat)
  /-- The connection at `index` of `via` leads back over a connection from `id` to `via`, to a
  node `back` of the relation of `id`. -/
  | roundTrip (id via : Nat) (index : Nat) (back : Nat)
deriving DecidableEq, Repr

namespace Contraction

/-- The node whose connection is removed, and the place of the connection there. -/
def removed : Contraction → Nat × Nat
  | duplicate id index _ _ => (id, index)
  | roundTrip _ via index _ => (via, index)

/-- The node that is kept and the node that is folded into it, if one is. The root is kept. -/
def folded? : Contraction → Option (Nat × Nat)
  | duplicate _ _ kept dropped => if kept = dropped then none else some (kept, dropped)
  | roundTrip id _ _ back =>
    -- The step leads back to the very node it came from: there is nothing to fold.
    if back = id then none
    else if back = root then some (back, id)
    else some (id, back)

/-- The graph without the connection that a contraction removes. -/
def trim (x : Contraction) (g : JoinGraph) : JoinGraph := g.disconnect x.removed.1 x.removed.2

/-- The graph after a contraction. -/
def apply (x : Contraction) (g : JoinGraph) : JoinGraph :=
  match x.folded? with
  | none => x.trim g
  | some (kept, dropped) => (x.trim g).fold kept dropped

end Contraction

/-- Two connections of a node that fetch the same rows: on the same fields to the same relation.
The later one is removed and its target folded into the other's, unless its target is the root:
then it is the other way round. -/
def duplicate? (g : JoinGraph) (id : Nat) : Option Contraction :=
  let cs := (g.connections id).zipIdx
  cs.findSome? fun (first, i) =>
    (cs.drop (i + 1)).findSome? fun (second, j) =>
      if g.relation first.target = g.relation second.target ∧ first.fields = second.fields then
        some <| if second.target = root then .duplicate id i second.target first.target
          else .duplicate id j first.target second.target
      else none

/-- A connection of a node, and one of its target that walks it back to the node's relation. -/
def roundTrip? (g : JoinGraph) (id : Nat) : Option Contraction :=
  (g.connections id).findSome? fun forth =>
    (g.connections forth.target).zipIdx.findSome? fun (back, index) =>
      if g.relation back.target = g.relation id ∧ back.fields.isReverseOf forth.fields then
        some (.roundTrip id forth.target index back.target)
      else none

/-- The contraction to be done at a node, if there is one. -/
def contractionAt? (g : JoinGraph) (id : Nat) : Option Contraction :=
  (g.duplicate? id).or (g.roundTrip? id)

end FetchPlan.JoinGraph
