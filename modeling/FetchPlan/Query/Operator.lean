/-!
# Operators of the query language

Binary and unary operators of predicates, with the families that decide which of them a
query may use, and the two kinds of calls a chain is made of.
-/

namespace FetchPlan

/-- An operator between two operands. -/
inductive BinaryOp
  | and | or
  | eq | ne | ge | gt | le | lt
  | add | sub | mul | div | mod
  | coalesce
  | bitAnd | bitOr | bitXor
deriving DecidableEq, Repr

namespace BinaryOp

/-- The operator's spelling. -/
def symbol : BinaryOp → String
  | and => "&&" | or => "||"
  | eq => "==" | ne => "!=" | ge => ">=" | gt => ">" | le => "<=" | lt => "<"
  | add => "+" | sub => "-" | mul => "*" | div => "/" | mod => "%"
  | coalesce => "??"
  | bitAnd => "&" | bitOr => "|" | bitXor => "^"

/-- All operators. -/
def all : List BinaryOp :=
  [and, or, eq, ne, ge, gt, le, lt, add, sub, mul, div, mod, coalesce, bitAnd, bitOr, bitXor]

theorem mem_all (op : BinaryOp) : op ∈ all := by cases op <;> decide

/-- The operator with a given spelling. -/
def ofSymbol? (s : String) : Option BinaryOp := all.find? (·.symbol = s)

/-- The operator that can join relations. -/
def isEq (op : BinaryOp) : Bool := op = eq

/-- Operators on truth values. -/
def isLogical : BinaryOp → Bool
  | and | or => true
  | _ => false

/-- Operators that compare two values. -/
def isComparison : BinaryOp → Bool
  | eq | ne | ge | gt | le | lt => true
  | _ => false

/-- Operators that compute a number. -/
def isArithmetic : BinaryOp → Bool
  | add | sub | mul | div | mod => true
  | _ => false

/-- Queries may use the logical, comparison and arithmetic operators. -/
def isSupported (op : BinaryOp) : Bool := op.isLogical || op.isComparison || op.isArithmetic

end BinaryOp

/-- An operator on one operand. -/
inductive UnaryOp
  | not | negate | bitNot
deriving DecidableEq, Repr

namespace UnaryOp

/-- The operator's spelling. -/
def symbol : UnaryOp → String
  | not => "!" | negate => "-" | bitNot => "~"

/-- All operators. -/
def all : List UnaryOp := [not, negate, bitNot]

/-- The operator with a given spelling. -/
def ofSymbol? (s : String) : Option UnaryOp := all.find? (·.symbol = s)

/-- Queries may use logical and arithmetic negation. -/
def isSupported : UnaryOp → Bool
  | not | negate => true
  | bitNot => false

end UnaryOp

/-- A call that keeps some of the rows of its source. -/
inductive Narrowing
  | filter | any | single
deriving DecidableEq, Repr

/-- A call that makes something else out of the rows of its source. -/
inductive Projecting
  | select | selectMany
deriving DecidableEq, Repr

/-- The name of a call, as errors give it. -/
def Narrowing.name : Narrowing → String
  | filter => "Filter" | any => "Any" | single => "Single"

/-- The name of a call, as errors give it. -/
def Projecting.name : Projecting → String
  | select => "Select" | selectMany => "SelectMany"

/-- A call a chain may hold. -/
inductive ChainOp
  | narrow (op : Narrowing)
  | project (op : Projecting)
deriving DecidableEq, Repr

namespace ChainOp

/-- The name of a call, as errors give it. -/
def name : ChainOp → String
  | narrow op => op.name
  | project op => op.name

/-- The call that a method name stands for. -/
def ofMethod? : String → Option ChainOp
  | "Where" => some (narrow .filter)
  | "Any" => some (narrow .any)
  | "Single" => some (narrow .single)
  | "Select" => some (project .select)
  | "SelectMany" => some (project .selectMany)
  | _ => none

end ChainOp
end FetchPlan
