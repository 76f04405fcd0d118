import FetchPlan.Query.Basic

/-!
# The shape of a query expression

What an expression is once quotes and plain conversions are stripped and chained calls are
recognized. A chain starts at a relation or a parameter and grows by member accesses and calls,
so it is built from its source outwards.

Nothing is refused while a shape is made: a chain that cannot be formed is `broken` and keeps the
reason, which counts only where the expression is used as rows or as an operand.
-/

namespace FetchPlan

mutual

/-- An expression without its quotes and plain conversions. -/
inductive Shape
  | literal
  | captured
  | binary (op : BinaryOp) (lhs rhs : Shape)
  | unary (op : UnaryOp) (operand : Shape)
  | chain (c : Chain)
  | lambda (params : List String) (body : Shape)
  | record (fields : ShapeFields)
  /-- A conversion through an operator of the caller's. -/
  | converted (method : String)
  /-- A member access or a call that is not a chain. -/
  | broken (reason : Unsupported)

/-- A relation or a parameter with the steps taken from it. -/
inductive Chain
  | table (relation : String)
  | param (name : String)
  | member (source : Chain) (m : Member)
  /-- A call without a lambda, which asks only whether there are rows. -/
  | bare (source : Chain) (op : Narrowing)
  | narrow (source : Chain) (op : Narrowing) (param : String) (body : Shape)
  | project (source : Chain) (op : Projecting) (param : String) (body : Shape)

/-- The fields of a constructed record, in order. -/
inductive ShapeFields
  | nil
  | cons (name : String) (value : Shape) (rest : ShapeFields)

end

namespace Shape

/-- The chain that an expression used as rows is. -/
def asChain : Shape → Except Unsupported Chain
  | chain c => .ok c
  | broken reason => .error reason
  | converted method => .error (.conversion method)
  | literal => .error (.chainHead "a literal")
  | captured => .error (.chainHead "a captured variable")
  | binary .. => .error (.chainHead "a binary operation")
  | unary .. => .error (.chainHead "a unary operation")
  | lambda .. => .error (.chainHead "a lambda")
  | record _ => .error (.chainHead "an object construction")

/-- The parameter and the body of an expression passed to `method` as a lambda. -/
def asLambda (method : String) : Shape → Except Unsupported (String × Shape)
  | lambda [param] body => .ok (param, body)
  | lambda params _ => .error (.lambdaArity method params.length)
  | converted conversion => .error (.conversion conversion)
  | _ => .error (.notALambda method)

/-- Why an expression cannot be an operand, if so. -/
def refusal? : Shape → Option Unsupported
  | literal | captured | chain _ => none
  | binary op _ _ => if op.isSupported then none else some (.binaryOperator op)
  | unary op _ => if op.isSupported then none else some (.unaryOperator op)
  | lambda .. => some .looseLambda
  | record _ => some .looseRecord
  | converted method => some (.conversion method)
  | broken reason => some reason

/-- A chain, or the reason why there is none. -/
def ofChain : Except Unsupported Chain → Shape
  | .ok c => chain c
  | .error reason => broken reason

end Shape

/-- The call that a method of a declaring type stands for. -/
def ChainOp.ofCall (type method : String) : Except Unsupported ChainOp :=
  if type ≠ Expr.queryable ∧ type ≠ Expr.enumerable then .error (.unknownType type method)
  else match ChainOp.ofMethod? method with
    | some op => .ok op
    | none => .error (.unknownMethod type method)

namespace Chain

/-- The chain of a member access. -/
def ofMember (base : Shape) (m : Member) : Except Unsupported Chain :=
  return .member (← base.asChain) m

/-- The chain of a method call. The method is checked first, then the source, and then that
exactly one lambda follows, which only a test for existence may leave out. -/
def ofCall (type method : String) (args : List Shape) : Except Unsupported Chain := do
  let op ← ChainOp.ofCall type method
  match args with
  | [] => .error (.noSource method)
  | source :: rest =>
    let source ← source.asChain
    match rest, op with
    -- Without a condition a filter would keep every row, and so is no call of the language.
    | [], .narrow .filter => .error (.noLambda method)
    | [], .narrow op => return .bare source op
    | [], .project _ => .error (.noLambda method)
    | [lambda], .narrow op =>
      let (x, body) ← lambda.asLambda method
      return .narrow source op x body
    | [lambda], .project op =>
      let (x, body) ← lambda.asLambda method
      return .project source op x body
    | _, _ => .error (.overload method args.length)

/-- Whether the chain reads a relation of its own. -/
def startsAtTable : Chain → Bool
  | table _ => true
  | param _ => false
  | member source _ | bare source _ | narrow source .. | project source .. => source.startsAtTable

end Chain

mutual

/-- The shape of an expression. -/
def Expr.shape : Expr → Shape
  | .table relation => .chain (.table relation)
  | .param name => .chain (.param name)
  | .captured _ => .captured
  | .value _ => .literal
  | .member base m => .ofChain (Chain.ofMember base.shape m)
  | .call type method args => .ofChain (Chain.ofCall type method (shapes args))
  | .lambda params body => .lambda params body.shape
  | .quote e => e.shape
  | .convert e none => e.shape
  | .convert _ (some method) => .converted method
  | .binary op lhs rhs => .binary op lhs.shape rhs.shape
  | .unary op operand => .unary op operand.shape
  | .record fields => .record (fieldShapes fields)

/-- The shapes of a list of arguments. -/
def shapes : List Expr → List Shape
  | [] => []
  | e :: es => e.shape :: shapes es

/-- The shapes of the fields of a record. -/
def fieldShapes : List (String × Expr) → ShapeFields
  | [] => .nil
  | (name, e) :: fields => .cons name e.shape (fieldShapes fields)

end

end FetchPlan
