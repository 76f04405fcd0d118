import FetchPlan.JoinGraph.FieldPairs
import FetchPlan.Schema.Basic

/-!
# Join graphs

The relations a query touches and the connections between them. A relation may occur as several
nodes. Nodes are numbered from zero and the root is node zero; a node is never taken out of the
graph, it can only lose its connections. A number that no node has stands for a node of no name,
without fields and connections.
-/

namespace FetchPlan

/-- A way from the node that owns it to the rows of another node, by equal fields. -/
structure Connection where
  target : Nat
  fields : FieldPairs
deriving DecidableEq

/-- One occurrence of a relation. -/
structure Node where
  relation : String
  /-- The fields that are read or joined on. -/
  used : FieldSet := ∅
  /-- The outgoing connections, in the order in which they were found. -/
  connections : List Connection := []
deriving DecidableEq

instance : Inhabited Node := ⟨⟨"", ∅, []⟩⟩

/-- The nodes of a join graph, by number. -/
structure JoinGraph where
  nodes : Array Node
deriving DecidableEq

namespace JoinGraph

/-- The node that everything is fetched from. -/
def root : Nat := 0

/-- The graph of one relation. -/
def ofRoot (relation : String) : JoinGraph := ⟨#[{ relation }]⟩

/-- The number of nodes. -/
def size (g : JoinGraph) : Nat := g.nodes.size

/-- The numbers of the nodes. -/
def ids (g : JoinGraph) : List Nat := List.range g.size

/-- The node of a number. -/
def node (g : JoinGraph) (id : Nat) : Node := g.nodes[id]?.getD default

/-- The relation of a node. -/
def relation (g : JoinGraph) (id : Nat) : String := (g.node id).relation

/-- The used fields of a node. -/
def used (g : JoinGraph) (id : Nat) : FieldSet := (g.node id).used

/-- The connections of a node. -/
def connections (g : JoinGraph) (id : Nat) : List Connection := (g.node id).connections

/-- A node without connections. -/
def isLeaf (g : JoinGraph) (id : Nat) : Bool := (g.connections id).isEmpty

/-- The number of connections of all nodes. -/
def totalConnections (g : JoinGraph) : Nat := (g.ids.flatMap g.connections).length

/-- The graph with one node changed. -/
def update (g : JoinGraph) (id : Nat) (f : Node → Node) : JoinGraph := ⟨g.nodes.modify id f⟩

/-- The graph with a new node, whose number is `g.size`. -/
def addNode (g : JoinGraph) (relation : String) : JoinGraph := ⟨g.nodes.push { relation }⟩

/-- Records that fields of a node are used. -/
def use (g : JoinGraph) (id : Nat) (fields : List String) : JoinGraph :=
  g.update id fun n => { n with used := n.used.insertAll fields }

/-- Puts other connections in place of a node's. -/
def setConnections (g : JoinGraph) (id : Nat) (cs : List Connection) : JoinGraph :=
  g.update id fun n => { n with connections := cs }

/-- Appends a connection as it is. -/
def push (g : JoinGraph) (id : Nat) (c : Connection) : JoinGraph :=
  g.setConnections id (g.connections id ++ [c])

/-! ## Connecting nodes -/

/-- Whether two nodes are joined on exactly these fields, in either direction. -/
def isJoined (g : JoinGraph) (a b : Nat) (fields : FieldPairs) : Bool :=
  (g.connections a).any (fun c => c.target = b ∧ c.fields = fields) ||
    (g.connections b).any fun c => c.target = a ∧ c.fields = fields.reversed

/-- The graph with a new connection, whose fields are used from then on. There is none if the
nodes are joined on these fields already. -/
def connect? (g : JoinGraph) (owner : Nat) (c : Connection) : Option JoinGraph :=
  if g.isJoined owner c.target c.fields then none
  else some <|
    ((g.use owner c.fields.sources.toList).use c.target c.fields.targets.toList).push owner c

/-- The graph in which two nodes are joined on these fields. -/
def connect (g : JoinGraph) (owner : Nat) (c : Connection) : JoinGraph :=
  (g.connect? owner c).getD g

/-- A connection between two nodes in either direction: its owner and its place there. -/
def between? (g : JoinGraph) (a b : Nat) : Option (Nat × Nat) :=
  match (g.connections a).findIdx? (·.target = b) with
  | some index => some (a, index)
  | none => ((g.connections b).findIdx? (·.target = a)).map (b, ·)

/-- A pair of fields of the nodes `a` and another, as the owner of their connection sees it. -/
def pairFrom (owner a : Nat) (field otherField : String) : FieldPair :=
  if owner = a then ⟨field, otherField⟩ else ⟨otherField, field⟩

/-- The graph with a pair of fields added to a connection. There is none if the pair is there
already. -/
def extend? (g : JoinGraph) (owner : Nat) (index : Nat) (pair : FieldPair) :
    Option JoinGraph := do
  let c ← (g.connections owner)[index]?
  if pair ∈ c.fields then none
  else
    -- The connection keeps its place.
    let c := { c with fields := c.fields.insert pair }
    let g := g.setConnections owner ((g.connections owner).set index c)
    some ((g.use owner [pair.source]).use c.target [pair.target])

/-- The fields staged for a node. A leaf stages its primary key too. -/
def stagedFields (g : JoinGraph) (s : Schema) (id : Nat) : Except Error FieldSet :=
  if g.isLeaf id then return (g.used id).insertAll (← s.primaryKey (g.relation id))
  else return g.used id

end JoinGraph
end FetchPlan
