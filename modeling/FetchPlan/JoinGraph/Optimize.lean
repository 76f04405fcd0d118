import FetchPlan.JoinGraph.Contraction

/-!
# Optimizing join graphs

A graph is contracted until there is nothing left to contract. A sweep visits the reachable nodes
depth first and contracts at each of them as long as it can; sweeps are repeated until one finds
nothing. Since every contraction takes a connection away, the number of connections bounds both.
-/

namespace FetchPlan.JoinGraph

/-- Contracts at one node, at most `budget` times, and tells what was done. -/
def settle : (budget : Nat) → JoinGraph → Nat → List Contraction × JoinGraph
  | 0, g, _ => ([], g)
  | budget + 1, g, id =>
    match g.contractionAt? id with
    | none => ([], g)
    | some x =>
      let (done, g) := settle budget (x.apply g) id
      (x :: done, g)

/-- Contracts at each of the nodes that is still reachable when its turn comes. -/
def sweepOver : List Nat → JoinGraph → List Contraction × JoinGraph
  | [], g => ([], g)
  | id :: ids, g =>
    -- What was contracted before may have cut the node off.
    if g.isReachable id then
      let (done, g) := settle g.totalConnections g id
      let (later, g) := sweepOver ids g
      (done ++ later, g)
    else sweepOver ids g

/-- Contracts at every reachable node. -/
def sweep (g : JoinGraph) : List Contraction × JoinGraph := sweepOver g.reachable g

/-- A graph nothing is left to contract in, and how it came about. -/
structure Optimized where
  contractions : List Contraction
  sweeps : Nat
  graph : JoinGraph

/-- Sweeps until nothing is contracted, at most `budget` times. -/
def optimizeFor : (budget : Nat) → JoinGraph → Optimized
  | 0, g => ⟨[], 0, g⟩
  | budget + 1, g =>
    match g.sweep with
    | ([], g) => ⟨[], 1, g⟩
    | (done, g) =>
      let rest := optimizeFor budget g
      ⟨done ++ rest.contractions, rest.sweeps + 1, rest.graph⟩

/-- Contracts a graph until nothing is left to contract. -/
def optimize (g : JoinGraph) : Optimized := optimizeFor (g.totalConnections + 1) g

end FetchPlan.JoinGraph
