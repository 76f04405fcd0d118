import FetchPlan.Query.Basic

/-!
# Flows

A query with its names resolved. A `Path` starts at a relation or at the rows a parameter stands
for and leads through steps; a `Flow` is a path or an operator over flows. Every step carries the
number it was made under: the parts of a step are made before the step itself, so numbers grow
from the source of a path to its end and from operands to operators.
-/

namespace FetchPlan

mutual

/-- An operand: a path, an operation over operands, or a value fixed for the query. -/
inductive Flow
  | path (p : Path)
  | binary (id : Nat) (op : BinaryOp) (lhs rhs : Flow)
  | unary (id : Nat) (op : UnaryOp) (operand : Flow)
  | fixed (id : Nat)

/-- Rows, and the steps that lead on from them. -/
inductive Path
  /-- The rows of a relation. -/
  | table (id : Nat) (relation : String)
  /-- The rows that the step numbered `target` stands for. -/
  | reference (id target : Nat)
  /-- The rows of `relation` whose `key` equals the column `column` of the rows before. -/
  | association (init : Path) (id : Nat) (column relation key : String)
  /-- A field of the rows before. -/
  | column (init : Path) (id : Nat) (name : String)
  /-- A named output of the projection before. -/
  | output (init : Path) (id : Nat) (name : String)
  /-- A projection. -/
  | select (init : Path) (id : Nat) (outputs : Outputs)
  /-- A condition on the rows before. -/
  | filter (init : Path) (id : Nat) (inner : Flow)

/-- What a projection makes of a row: one value, or a record. -/
inductive Outputs
  | single (inner : Flow)
  | record (fields : FlowFields)

/-- The named values of a record, in order. -/
inductive FlowFields
  | nil
  | cons (name : String) (inner : Flow) (rest : FlowFields)

end

namespace Path

/-- The number of the last step. -/
def lastId : Path → Nat
  | table id _ | reference id _ | association _ id .. | column _ id _ | output _ id _
  | select _ id _ | filter _ id _ => id

/-- The number of the first step. -/
def headId : Path → Nat
  | table id _ | reference id _ => id
  | association init .. | column init .. | output init .. | select init .. | filter init .. =>
    init.headId

/-- The numbers of the steps, the first step first. -/
def stepIds : Path → List Nat
  | table id _ | reference id _ => [id]
  | association init id .. | column init id _ | output init id _ | select init id _
  | filter init id _ => init.stepIds ++ [id]

/-- The relation that the path starts at, if it starts at one. -/
def relation? : Path → Option String
  | table _ relation => some relation
  | reference .. => none
  | association init .. | column init .. | output init .. | select init .. | filter init .. =>
    init.relation?

/-- The step whose rows the path yields, if it yields rows. A parameter bound to the path stands
for this step. A column ends the rows; an output of a projection may be rows. -/
def rowSource? : Path → Option Nat
  | table id _ => some id
  | reference _ target => some target
  | association _ id .. => some id
  | column .. => none
  | output _ id _ => some id
  | select _ id _ => some id
  | filter init .. => init.rowSource?

end Path

namespace Flow

/-- The number by which an operator refers to the flow. -/
def headId : Flow → Nat
  | path p => p.headId
  | binary id .. | unary id .. | fixed id => id

/-- Only fixed values take part. -/
def isFixed : Flow → Bool
  | path _ => false
  | binary _ _ lhs rhs => lhs.isFixed && rhs.isFixed
  | unary _ _ operand => operand.isFixed
  | fixed _ => true

/-- Whether the flow is an operation or a fixed value. -/
def isTree : Flow → Bool
  | path _ => false
  | _ => true

end Flow
end FetchPlan
