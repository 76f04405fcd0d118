import FetchPlan.Batch.Basic
import FetchPlan.Event.Traced
import FetchPlan.JoinGraph.Reach

/-!
# From join graphs to batches

The root is fetched by its primary key. The tour of the graph then gives the order of the other
fetches: a connection that leads to a node for the first time becomes the join that fetches it.
Every connection, also one that fetches nothing, must be keyed on one of its sides.
-/

namespace FetchPlan

/-- How the names of a batch begin, and whether its graph is optimized. -/
structure Config where
  /-- The start of every table variable's name. -/
  variableStem : String := "@table"
  /-- The start of the name of every parameter of the root's key. -/
  parameterStem : String := "@p"
  optimize : Bool := true
deriving DecidableEq, Repr

/-- The first name not taken among `base`, `base1`, `base2` and so on, with numbers from `n` on
and `tries` attempts. -/
def numberedName (taken : List String) (base : String) : (tries n : Nat) → String
  | 0, n => base ++ toString n
  | tries + 1, n =>
    let name := base ++ toString n
    if name ∈ taken then numberedName taken base tries (n + 1) else name

/-- The name of a new table variable for a relation. One more attempt than there are names taken
always finds a new one. -/
def freshName (stem : String) (taken : List String) (relation : String) : String :=
  let base := stem ++ relation.map fun c => if c = '.' then '_' else c
  if base ∈ taken then numberedName taken base taken.length 1 else base

/-- The batch so far, and the table variables of the nodes that are fetched. -/
structure Emission where
  vars : List (Nat × String) := []
  declarations : List Declaration := []
  fetches : List Fetch := []

/-- Computations that emit declarations and fetches. -/
abbrev Emitting := StateT Emission Traced

namespace Emitting

/-- A column of a relation with the type it is staged as. -/
def columnDef (s : Schema) (relation name : String) : Except Error ColumnDef :=
  return ⟨name, ← s.sqlType relation name⟩

/-- The staged fields of a node as columns. -/
def stagedColumns (s : Schema) (g : JoinGraph) (id : Nat) : Except Error (List ColumnDef) := do
  (← g.stagedFields s id).toList.mapM (columnDef s (g.relation id))

/-- Declares a table variable for the staged fields of a node. -/
def declare (s : Schema) (config : Config) (g : JoinGraph) (id : Nat) : Emitting String := do
  let columns ← stagedColumns s g id
  let taken := (← get).vars.map Prod.snd
  let var := freshName config.variableStem taken (g.relation id)
  (Traced.report [.declared var (g.name id)] : Traced Unit)
  modify fun e => { e with
    vars := e.vars ++ [(id, var)]
    declarations := e.declarations ++ [{ var, columns }] }
  return var

/-- Fetches the rows of a node into its table variable. -/
def stage (s : Schema) (g : JoinGraph) (id : Nat) (target : String) (source : Source) :
    Emitting Unit := do
  let fields ← g.stagedFields s id
  let f : Fetch := { target, columns := fields.toList, relation := g.relation id, source }
  modify fun e => { e with fetches := e.fetches ++ [f] }

/-- The comparisons of a primary key with the parameters numbered from zero. -/
def keyFilters (config : Config) (key : List String) : List KeyFilter :=
  key.zipIdx.map fun (column, i) => ⟨column, config.parameterStem ++ toString i⟩

/-- Fetches the root by its primary key. -/
def fetchRoot (s : Schema) (config : Config) (g : JoinGraph) : Emitting Unit := do
  let target ← declare s config g JoinGraph.root
  let key ← s.primaryKey (g.relation JoinGraph.root)
  stage s g JoinGraph.root target (.key (keyFilters config key))

/-- Whether a connection is keyed on its owner's side. It is an error if it is keyed on neither. -/
def keyedOnOwner (s : Schema) (g : JoinGraph) (owner : Nat) (c : Connection) :
    Except Error Bool := do
  let sources := c.fields.sources.toList
  let targets := c.fields.targets.toList
  if ← s.isPrimaryKey (g.relation owner) sources then return true
  if ← s.isPrimaryKey (g.relation c.target) targets then return false
  .error (Cause.invalidJoin (g.relation owner) sources (g.relation c.target) targets)

/-- The rows that a connection joins: if it is keyed on its owner's side, each key once. -/
def joinSource (var : String) (fields : FieldPairs) (keyedOnOwner : Bool) : Source :=
  .join (if keyedOnOwner then .distinct var fields.sources.toList else .var var)
    (fields.toList.map fun p => (p.target, p.source))

/-- Fetches the node that a passage of the tour leads to for the first time. -/
def pass (s : Schema) (config : Config) (g : JoinGraph) (p : JoinGraph.Passage) :
    Emitting Unit := do
  -- A connection that fetches nothing is checked all the same.
  let keyed ← keyedOnOwner s g p.owner p.connection
  if p.isFirst then
    -- The owner was met before the connection, so it has a table variable.
    let var := ((← get).vars.lookup p.owner).getD ""
    let target ← declare s config g p.connection.target
    stage s g p.connection.target target (joinSource var p.connection.fields keyed)
  else
    (Traced.report [.alreadyFetched (g.name p.connection.target) (g.name p.owner)] : Traced Unit)

end Emitting

/-- The batch of a graph. -/
def Batch.ofGraph (s : Schema) (config : Config) (g : JoinGraph) : Traced Batch := do
  let emit : Emitting Unit := do
    Emitting.fetchRoot s config g
    g.tour.forM (Emitting.pass s config g)
  let (_, e) ← emit.run {}
  return ⟨e.declarations, e.fetches⟩

end FetchPlan
