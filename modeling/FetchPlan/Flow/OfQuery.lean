import FetchPlan.Flow.Basic
import FetchPlan.Query.Shape

/-!
# From queries to flows

Parameters are resolved against the lambdas around them, and the steps are numbered as they are
made. A query is a chain that starts at a relation.
-/

namespace FetchPlan

/-- The bound parameters with the steps they stand for, the innermost first. -/
abbrev Scope := List (String × Nat)

namespace Scope

/-- The step a parameter stands for. -/
def resolve? (scope : Scope) (param : String) : Option Nat := scope.lookup param

/-- The scope with one parameter more. A bound parameter cannot be bound again. -/
def bind (scope : Scope) (param : String) (target : Nat) : Except Error Scope :=
  if (scope.resolve? param).isSome then .error (Unsupported.rebound param).error
  else .ok ((param, target) :: scope)

end Scope

/-- Computations that number steps; the state is the next number. -/
abbrev Numbering := StateT Nat (Except Error)

/-- The next number. -/
def Numbering.fresh : Numbering Nat := modifyGet fun n => (n, n + 1)

/-- The step that a lambda called `call` on `p` binds its parameter to. -/
def Path.binding (p : Path) (call : String) : Except Error Nat :=
  match p.rowSource? with
  | some target => .ok target
  | none => .error (Unresolved.callOnScalar call).error

/-- The path that a member access makes of `p`. -/
def Path.access (p : Path) (m : Member) : Numbering Path := do
  if p.rowSource?.isNone then throw (Unresolved.memberOfScalar m.name).error
  let id ← Numbering.fresh
  match m with
  | .column name => return .column p id name
  | .projected name => return .output p id name
  | .association a => return .association p id a.thisKey a.otherRelation a.otherKey

mutual

/-- The flow of an operand. -/
def Shape.flow (scope : Scope) : Shape → Numbering Flow
  | .literal | .captured => return .fixed (← Numbering.fresh)
  | .binary op lhs rhs => do
    unless op.isSupported do throw (Unsupported.binaryOperator op).error
    -- The operands are numbered before the operation.
    let lhs ← lhs.flow scope
    let rhs ← rhs.flow scope
    return .binary (← Numbering.fresh) op lhs rhs
  | .unary op operand => do
    unless op.isSupported do throw (Unsupported.unaryOperator op).error
    let operand ← operand.flow scope
    return .unary (← Numbering.fresh) op operand
  | .chain c => return .path (← c.path scope)
  | .lambda .. => throw Unsupported.looseLambda.error
  | .record _ => throw Unsupported.looseRecord.error
  | .converted method => throw (Unsupported.conversion method).error
  | .broken reason => throw reason.error

/-- The path of a chain. -/
def Chain.path (scope : Scope) : Chain → Numbering Path
  | .table relation => return .table (← Numbering.fresh) relation
  | .param name => do
    match scope.resolve? name with
    | some target => return .reference (← Numbering.fresh) target
    | none => throw (Unresolved.unbound name).error
  | .member source m => do (← source.path scope).access m
  | .bare source _ => source.path scope
  | .narrow source op param body => do
    let p ← source.path scope
    -- A source without rows is refused before the parameter is looked at.
    let scope ← scope.bind param (← p.binding op.name)
    let inner ← body.flow scope
    return .filter p (← Numbering.fresh) inner
  | .project source op param (.record fields) => do
    let p ← source.path scope
    let scope ← scope.bind param (← p.binding op.name)
    let fields ← fields.flows scope
    return .select p (← Numbering.fresh) (.record fields)
  | .project source op param body => do
    let p ← source.path scope
    let scope ← scope.bind param (← p.binding op.name)
    let inner ← body.flow scope
    return .select p (← Numbering.fresh) (.single inner)

/-- The flows of the fields of a record, in order. -/
def ShapeFields.flows (scope : Scope) : ShapeFields → Numbering FlowFields
  | .nil => return .nil
  | .cons name value rest => do
    let inner ← value.flow scope
    return .cons name inner (← rest.flows scope)

end

/-- A query with the number of steps it took. -/
structure NumberedPath where
  path : Path
  count : Nat

/-- The path of a query. -/
def Expr.toPath (e : Expr) : Except Error NumberedPath := do
  let shape := e.shape
  -- The outermost expression must be an operand before it must be a chain.
  if let some reason := shape.refusal? then throw reason.error
  match shape with
  | .chain c =>
    unless c.startsAtTable do throw Unsupported.notAChain.error
    let (path, count) ← (c.path []).run 0
    return ⟨path, count⟩
  | _ => throw Unsupported.notAChain.error

end FetchPlan
