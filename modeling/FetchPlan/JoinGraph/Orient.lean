import FetchPlan.JoinGraph.Reach

/-!
# Orienting connections

The direction of a connection found in a comparison is settled before it is known which of its
ends the root leads to. Connections that lead from an unreachable node into the reachable part
are turned round, one at a time and the lowest node first, until there is none.
-/

namespace FetchPlan.JoinGraph

/-- A connection to turn round: its owner, its place there, and the connection. -/
structure Flip where
  owner : Nat
  index : Nat
  connection : Connection

/-- The first connection of an unreachable node that leads to a reachable one. -/
def flip? (g : JoinGraph) : Option Flip :=
  let reached := g.reachable
  -- `ids` is in increasing order, so the lowest node comes first.
  (g.ids.filter (· ∉ reached)).findSome? fun owner =>
    ((g.connections owner).zipIdx.find? (·.1.target ∈ reached)).map fun (connection, index) =>
      { owner, index, connection }

/-- The graph with a connection turned round. It becomes the last one of its new owner. -/
def turn (g : JoinGraph) (f : Flip) : JoinGraph :=
  (g.setConnections f.owner ((g.connections f.owner).eraseIdx f.index)).push f.connection.target
    ⟨f.owner, f.connection.fields.reversed⟩

/-- Turns connections round, at most `rounds` of them, and tells which. -/
def orientFor : (rounds : Nat) → JoinGraph → List Flip × JoinGraph
  | 0, g => ([], g)
  | rounds + 1, g =>
    match g.flip? with
    | none => ([], g)
    | some f =>
      let (flips, g) := orientFor rounds (g.turn f)
      (f :: flips, g)

/-- Makes all nodes reachable that the root is joined to in any direction. Every turn adds a node
to the reachable ones, so there are fewer turns than nodes. -/
def orient (g : JoinGraph) : List Flip × JoinGraph := orientFor g.size g

end FetchPlan.JoinGraph
