import FetchPlan.Event.Traced
import FetchPlan.Flow.Basic
import FetchPlan.JoinGraph.Orient

/-!
# From flows to join graphs

A path is walked step by step. Its relation and each of its associations become a node;
associations, and equalities between rows, become connections. What each step stands for is noted
under its number, where the parameters bound to it look it up.
-/

namespace FetchPlan

/-- The association that a node was reached by. -/
structure Hop where
  origin : Nat
  column : String
  key : String
deriving DecidableEq, Repr

/-- What a flow stands for. -/
inductive Resolved
  /-- The rows of a node. -/
  | rows (id : Nat) (hop : Option Hop)
  /-- A field of the rows of a node. -/
  | field (id : Nat) (name : String) (hop : Option Hop)
  /-- The named outputs of a projection. -/
  | record (outputs : List (String × Resolved))
  /-- A value that is neither rows nor a field. -/
  | scalar

namespace Resolved

/-- What a parameter bound to it stands for: rows, but not the way that led to them. -/
def bound : Resolved → Resolved
  | rows id _ => rows id none
  | other => other

end Resolved

/-- A graph under construction, and what the steps walked so far stand for. -/
structure Draft where
  graph : JoinGraph
  sources : List (Nat × Resolved) := []

/-- Computations that build a graph. -/
abbrev Building := StateT Draft Traced

namespace Building

/-- Ends with an error. -/
def fail {α : Type} (e : Error) : Building α := (Traced.fail e : Traced α)

/-- Reports an event. -/
def report (e : Event) : Building Unit := (Traced.report [e] : Traced Unit)

/-- The graph so far. -/
def graph : Building JoinGraph := return (← get).graph

/-- Puts another graph in place of the graph so far. -/
def setGraph (g : JoinGraph) : Building Unit := modify fun d => { d with graph := g }

/-- Notes what a step stands for. -/
def note (id : Nat) (r : Resolved) : Building Resolved := do
  modify fun d => { d with sources := (id, r) :: d.sources }
  return r

/-- A new node. -/
def addNode (relation : String) : Building Nat := do
  let g ← graph
  setGraph (g.addNode relation)
  return g.size

/-- Joins two nodes, unless they are joined on these fields. -/
def connect (owner : Nat) (c : Connection) : Building Unit := do
  let g ← graph
  if let some g' := g.connect? owner c then
    report (.connected (g.name owner) (g.name c.target) c.fields)
    setGraph g'

/-- Adds a pair of fields to a connection, unless it is there. -/
def extend (owner : Nat) (index : Nat) (pair : FieldPair) : Building Unit := do
  let g ← graph
  if let some g' := g.extend? owner index pair then
    if let some c := (g.connections owner)[index]? then
      report (.extended (g.name owner) (g.name c.target) pair)
    setGraph g'

/-! ## Steps -/

/-- Follows an association, which always leads to a node of its own. -/
def follow (s : Schema) (current : Resolved) (column relation key : String) :
    Building Resolved := do
  match current with
  | .rows origin _ =>
    -- Both ends of the association must be declared.
    discard <| s.sqlType ((← graph).relation origin) column
    discard <| s.sqlType relation key
    let target ← addNode relation
    connect origin ⟨target, FieldPairs.zip [column] [key]⟩
    return .rows target (some { origin, column, key })
  | _ => fail (Unresolved.notARow relation).error

/-- Reads a column of rows, or an output of a projection. -/
def read (s : Schema) (current : Resolved) (name : String) : Building Resolved := do
  match current with
  | .rows id hop =>
    let g ← graph
    discard <| s.sqlType (g.relation id) name
    setGraph (g.use id [name])
    return .field id name hop
  | .record outputs =>
    match outputs.lookup name with
    | some r => return r
    | none => fail (Unresolved.noMember name).error
  | .field .. | .scalar => fail (Unresolved.memberOfScalar name).error

/-! ## Comparisons -/

/-- The node and the fields that one side of an equality compares. Rows stand for their primary
key; rows reached by an association stand for the column it leaves from, and so does their key
that it leads to if this is their whole primary key. -/
def side (s : Schema) : Resolved → Building (Nat × List String)
  | .rows _ (some hop) => return (hop.origin, [hop.column])
  | .rows id none => return (id, ← s.primaryKey ((← graph).relation id))
  | .field id name (some hop) => do
    -- To know the key is to know the row, and so the column that led to it.
    if name = hop.key then
      if ← s.isPrimaryKey ((← graph).relation id) [name] then
        return (hop.origin, [hop.column])
    return (id, [name])
  | .field id name none => return (id, [name])
  | .record _ | .scalar => fail Unsupported.neitherRowNorField.error

/-- Adds the pairs of two lists of fields to a connection between `a` and another node. -/
def extendAll (owner : Nat) (index : Nat) (a : Nat) (pairs : List (String × String)) :
    Building Unit :=
  pairs.forM fun (field, otherField) =>
    extend owner index (JoinGraph.pairFrom owner a field otherField)

/-- Joins what the two sides of an equality compare. Fields of one node are only used; a
connection between the nodes takes the pairs over; a new one hangs off the side that the root
leads to, off the left one in doubt. -/
def equate (s : Schema) (lhs rhs : Resolved) : Building Unit := do
  let (a, fields) ← side s lhs
  let (b, otherFields) ← side s rhs
  let g ← graph
  if fields.length ≠ otherFields.length then
    fail (Unsupported.fieldCounts fields.length (g.relation a) otherFields.length
      (g.relation b)).error
  else if a = b then
    report (.comparedWithin (g.name a))
    setGraph ((g.use a fields).use a otherFields)
  else match g.between? a b with
    | some (owner, index) => extendAll owner index a (fields.zip otherFields)
    | none =>
      -- Only the right side can be reached: the connection is seen from there.
      if g.isReachable b && !g.isReachable a then
        connect b ⟨a, FieldPairs.zip otherFields fields⟩
      else connect a ⟨b, FieldPairs.zip fields otherFields⟩

end Building

/-! ## Walking -/

open Building

mutual

/-- Walks an operand. An equality between operands that are not fixed joins them; any other
operation only uses the fields it reads. -/
def Flow.walk (s : Schema) : Flow → Building Resolved
  | .path p => p.walk s
  | .binary _ op lhs rhs => do
    if op = .eq && !lhs.isFixed && !rhs.isFixed then
      let l ← lhs.walk s
      let r ← rhs.walk s
      equate s l r
    else
      -- A fixed side reads no fields.
      unless lhs.isFixed do discard <| lhs.walk s
      unless rhs.isFixed do discard <| rhs.walk s
    return .scalar
  | .unary _ _ operand => do
    discard <| operand.walk s
    return .scalar
  | .fixed _ => return .scalar

/-- Walks a path. The relation that the query starts at is the root. -/
def Path.walk (s : Schema) : Path → Building Resolved
  | .table id relation => do
    -- The step made first of all is the relation the query starts at; its node is there already.
    if id = 0 then note id (.rows JoinGraph.root none)
    else
      discard <| s.primaryKey relation
      note id (.rows (← addNode relation) none)
  | .reference id target => do
    match (← get).sources.lookup target with
    | some r => note id r.bound
    | none => fail Unresolved.neverBuilt.error
  | .association init id column relation key => do
    let current ← init.walk s
    note id (← follow s current column relation key)
  | .column init id name | .output init id name => do
    let current ← init.walk s
    note id (← read s current name)
  | .select init id outputs => do
    discard <| init.walk s
    note id (← outputs.walk s)
  | .filter init id inner => do
    let current ← init.walk s
    discard <| inner.walk s
    note id current

/-- Walks what a projection makes of a row. -/
def Outputs.walk (s : Schema) : Outputs → Building Resolved
  | .single inner => inner.walk s
  | .record fields => return .record (← fields.walk s)

/-- Walks the fields of a record, in order. -/
def FlowFields.walk (s : Schema) : FlowFields → Building (List (String × Resolved))
  | .nil => return []
  | .cons name inner rest => do
    let r ← inner.walk s
    return (name, r) :: (← rest.walk s)

end

namespace JoinGraph

/-- The graph of a path before its connections are oriented. -/
def draftOfPath (s : Schema) (p : Path) : Traced JoinGraph := do
  match p.relation? with
  | none => Traced.fail Unsupported.notAChain.error
  | some relation =>
    discard <| s.primaryKey relation
    let (_, draft) ← (p.walk s).run { graph := ofRoot relation }
    return draft.graph

/-- The graph, oriented, and validated to be connected. -/
def finish (draft : JoinGraph) : Traced JoinGraph := do
  let (flips, g) := draft.orient
  Traced.report <| flips.map fun f =>
    .turned (draft.name f.owner) (draft.name f.connection.target) f.connection.fields
  g.validate
  return g

/-- The graph of a path. -/
def ofPath (s : Schema) (p : Path) : Traced JoinGraph := do
  let draft ← draftOfPath s p
  draft.finish

end JoinGraph
end FetchPlan
