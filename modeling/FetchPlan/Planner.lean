import FetchPlan.Batch.OfGraph
import FetchPlan.Batch.Sql
import FetchPlan.Event.OfContraction
import FetchPlan.Flow.OfQuery
import FetchPlan.JoinGraph.OfFlow

/-!
# Planning

A query becomes a path, the path a join graph, and the graph a batch. The first stage that fails
ends the run. A planner keeps nothing between runs.
-/

namespace FetchPlan

/-- A schema, and how the batches over it are to look. -/
structure Planner where
  schema : Schema
  config : Config := {}

namespace Planner

/-- The graph that batches are made from: optimized, unless this is turned off. -/
def optimized (p : Planner) (g : JoinGraph) : Traced JoinGraph := do
  if p.config.optimize then
    let o := g.optimize
    -- The contractions are reported before the result that they lead to.
    Traced.report (g.contractionsEvents o.contractions)
    Traced.report [.optimized o.contractions.length o.sweeps]
    return o.graph
  else return g

/-- The batch of a query, with the events reported on the way. -/
def plan (p : Planner) (query : Expr) : Traced Batch := do
  let flow ← query.toPath
  Traced.report [.builtFlow flow.count]
  let g ← JoinGraph.ofPath p.schema flow.path
  Traced.report [.builtGraph (g.relation JoinGraph.root) g.size g.connectionCount]
  let g ← p.optimized g
  let batch ← Batch.ofGraph p.schema p.config g
  Traced.report [.emitted batch.declarations.length batch.fetches.length]
  return batch

/-- The SQL text of a query's batch, with the events reported on the way. -/
def sql (p : Planner) (query : Expr) : Traced String := return (← p.plan query).sql

end Planner
end FetchPlan
