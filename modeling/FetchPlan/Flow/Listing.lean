import FetchPlan.Flow.Basic

/-!
# Flows as lists of entries

The steps and operations of a flow in the order of their numbers. An entry refers to others by
number: to the steps before and after it on its path, and, if it is the first of its
path or an operation, to the entry it is a part of. For a query, these are the steps and operations
in its arena (`Expr.toArena`).
-/

namespace FetchPlan

/-- A step or an operation, its parts given by number. -/
inductive EntryKind
  | table (relation : String)
  | association (column relation key : String)
  | column (name : String)
  | reference (target : Nat)
  /-- The parts of a projection, each with its name if it is a field of a record. -/
  | select (outputs : List (Option String × Nat))
  | filter (inner : Nat)
  | binary (op : BinaryOp) (lhs rhs : Nat)
  | unary (op : UnaryOp) (operand : Nat)
  | fixed
deriving DecidableEq, Repr

/-- A step or an operation with its neighbours. -/
structure Entry where
  kind : EntryKind
  previous : Option Nat
  next : Option Nat
  parent : Option Nat
  isFixed : Bool := false
  isTree : Bool := false
deriving DecidableEq, Repr

/-- The entry of a member access. -/
def Path.stepKind : Member → EntryKind
  | .column name | .projected name => .column name
  | .association a => .association a.thisKey a.otherRelation a.otherKey

/-- The names of the fields with the numbers of what they hold. -/
def FlowFields.heads : FlowFields → List (Option String × Nat)
  | nil => []
  | cons name inner rest => (some name, inner.headId) :: rest.heads

/-- The outputs with the numbers of what they hold. -/
def Outputs.heads : Outputs → List (Option String × Nat)
  | single inner => [(none, inner.headId)]
  | record fields => fields.heads

mutual

/-- The entries of an operand of `parent`. -/
def Flow.entries (parent : Option Nat) : Flow → List Entry
  | .path p => p.entries parent none
  | .binary id op lhs rhs =>
    lhs.entries (some id) ++ rhs.entries (some id) ++
      [{ kind := .binary op lhs.headId rhs.headId, previous := none, next := none, parent,
         isFixed := lhs.isFixed && rhs.isFixed, isTree := true }]
  | .unary id op operand =>
    operand.entries (some id) ++
      [{ kind := .unary op operand.headId, previous := none, next := none, parent,
         isFixed := operand.isFixed, isTree := true }]
  | .fixed _ =>
    [{ kind := .fixed, previous := none, next := none, parent, isFixed := true, isTree := true }]

/-- The entries of a path that is a part of `parent` and goes on with the step `next`. -/
def Path.entries (parent next : Option Nat) : Path → List Entry
  | .table _ relation => [{ kind := .table relation, previous := none, next, parent }]
  | .reference _ target => [{ kind := .reference target, previous := none, next, parent }]
  | .association init id column relation key =>
    init.entries parent (some id) ++
      [{ kind := .association column relation key, previous := some init.lastId, next,
         parent := none }]
  | .column init id name | .output init id name =>
    init.entries parent (some id) ++
      [{ kind := .column name, previous := some init.lastId, next, parent := none }]
  | .select init id outputs =>
    init.entries parent (some id) ++ outputs.entries id ++
      [{ kind := .select outputs.heads, previous := some init.lastId, next, parent := none }]
  | .filter init id inner =>
    init.entries parent (some id) ++ inner.entries (some id) ++
      [{ kind := .filter inner.headId, previous := some init.lastId, next, parent := none }]

/-- The entries of the outputs of the projection `id`. -/
def Outputs.entries (id : Nat) : Outputs → List Entry
  | .single inner => inner.entries (some id)
  | .record fields => fields.entries id

/-- The entries of the fields of the projection `id`. -/
def FlowFields.entries (id : Nat) : FlowFields → List Entry
  | .nil => []
  | .cons _ inner rest => inner.entries (some id) ++ rest.entries id

end

/-- The entries of the path of a query. -/
def Path.listing (p : Path) : List Entry := p.entries none none

end FetchPlan
