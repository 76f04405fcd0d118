import FetchPlan.Query.Operator
import FetchPlan.Query.Value
import FetchPlan.Schema.Basic

/-!
# Query expressions

The expressions a query builder hands over. A chained call holds its source as its first
argument, and a lambda binds its parameter to the rows of the call's source. Quotes and plain
conversions have no meaning of their own.
-/

namespace FetchPlan

/-- What a member access reads. -/
inductive Member
  /-- A column of the row. -/
  | column (name : String)
  /-- The rows an association leads to. -/
  | association (a : Association)
  /-- A named output of a projection. -/
  | projected (name : String)
deriving DecidableEq, Repr

/-- The name by which a member is accessed. -/
def Member.name : Member → String
  | column name => name
  | association a => a.name
  | projected name => name

/-- A query expression. -/
inductive Expr
  /-- The rows of a relation. -/
  | table (relation : String)
  /-- The parameter of an enclosing lambda. -/
  | param (name : String)
  /-- A variable of the caller, fixed for the query. -/
  | captured (name : String)
  | value (v : Value)
  | member (base : Expr) (m : Member)
  /-- A method call, the source first among the arguments. -/
  | call (type method : String) (args : List Expr)
  | lambda (params : List String) (body : Expr)
  | quote (e : Expr)
  /-- A conversion, through an operator of the caller's if it has a method. -/
  | convert (e : Expr) (method : Option String)
  | binary (op : BinaryOp) (lhs rhs : Expr)
  | unary (op : UnaryOp) (operand : Expr)
  /-- The construction of a record with named fields. -/
  | record (fields : List (String × Expr))
deriving Repr, Inhabited

namespace Expr

/-- The declaring type of calls over remote rows. -/
def queryable : String := "Queryable"

/-- The declaring type of calls over collections of a row. -/
def enumerable : String := "Enumerable"

/-- The rows of `source` that satisfy a quoted lambda. -/
def filter (source lambda : Expr) : Expr := call queryable "Where" [source, quote lambda]

/-- Whether a row of a collection satisfies a lambda. -/
def any (source lambda : Expr) : Expr := call enumerable "Any" [source, lambda]

/-- The only row of a collection that satisfies a lambda. -/
def single (source lambda : Expr) : Expr := call enumerable "Single" [source, lambda]

/-- The results of a quoted lambda on the rows of `source`. -/
def select (source lambda : Expr) : Expr := call queryable "Select" [source, quote lambda]

/-- The concatenated results of a quoted lambda on the rows of `source`. -/
def selectMany (source lambda : Expr) : Expr := call queryable "SelectMany" [source, quote lambda]

/-- The expression itself is a literal or a captured variable. -/
def isFixed : Expr → Bool
  | value _ | captured _ => true
  | _ => false

/-- The expression itself is an equality. -/
def isEq : Expr → Bool
  | binary .eq _ _ => true
  | _ => false

/-- The parameters, if the expression itself is a lambda. -/
def lambdaParams? : Expr → Option (List String)
  | lambda params _ => some params
  | _ => none

mutual

/-- Equality of expressions, literals compared as values. -/
def sameAs : Expr → Expr → Bool
  | table r, table s => r = s
  | param x, param y => x = y
  | captured x, captured y => x = y
  | value v, value w => v.sameAs w
  | member a m, member b n => sameAs a b && m = n
  | call t m as, call u n bs => t = u && m = n && sameArgs as bs
  | lambda ps a, lambda qs b => ps = qs && sameAs a b
  | quote a, quote b => sameAs a b
  | convert a m, convert b n => sameAs a b && m = n
  | binary o a b, binary p c d => o = p && sameAs a c && sameAs b d
  | unary o a, unary p b => o = p && sameAs a b
  | record fs, record gs => sameFields fs gs
  | _, _ => false

/-- Equality of argument lists. -/
def sameArgs : List Expr → List Expr → Bool
  | [], [] => true
  | a :: as, b :: bs => sameAs a b && sameArgs as bs
  | _, _ => false

/-- Equality of record fields. -/
def sameFields : List (String × Expr) → List (String × Expr) → Bool
  | [], [] => true
  | (x, a) :: as, (y, b) :: bs => x = y && sameAs a b && sameFields as bs
  | _, _ => false

end

end Expr
end FetchPlan
