import FetchPlan.Query.Operator

/-!
# Why a query or a schema is refused

One constructor per rule that can be broken, with the names the rule was broken by, and the
wording of each. `described` stands for a reason given in words only.
-/

namespace FetchPlan

/-- Why an expression is outside the query language. -/
inductive Unsupported
  | unknownType (type method : String)
  | unknownMethod (type method : String)
  | noSource (method : String)
  | noLambda (method : String)
  | notALambda (method : String)
  | lambdaArity (method : String) (count : Nat)
  | overload (method : String) (count : Nat)
  | chainHead (found : String)
  | binaryOperator (op : BinaryOp)
  | unaryOperator (op : UnaryOp)
  | conversion (method : String)
  | looseLambda
  | looseRecord
  | notAChain
  | rebound (param : String)
  | fieldCounts (count : Nat) (relation : String) (otherCount : Nat) (otherRelation : String)
  | neitherRowNorField
  | described (text : String)
deriving DecidableEq

/-- The wording of a reason. -/
def Unsupported.message : Unsupported → String
  | .unknownType type method => s!"method `{method}` declared on `{type}`"
  | .unknownMethod type method => s!"method `{method}` on `{type}`"
  | .noSource method => s!"call to `{method}` without a source"
  | .noLambda method => s!"call to `{method}` without a lambda"
  | .notALambda method => s!"argument of `{method}` is not a lambda"
  | .lambdaArity method count => s!"lambda passed to `{method}` takes {count} parameters"
  | .overload method count => s!"overload of `{method}` with {count} arguments"
  | .chainHead found => s!"chain must start at a relation or a parameter, found {found}"
  | .binaryOperator op => s!"binary operator `{op.symbol}`"
  | .unaryOperator op => s!"unary operator `{op.symbol}`"
  | .conversion method => s!"conversion through custom operator `{method}`"
  | .looseLambda => "lambda outside of a chained call"
  | .looseRecord => "object construction outside of a projection"
  | .notAChain => "query must be a chain starting at a relation"
  | .rebound param => s!"parameter `{param}` is already bound"
  | .fieldCounts count relation otherCount otherRelation =>
    s!"comparison between {count} field(s) of `{relation}` and {otherCount} field(s) of " ++
      s!"`{otherRelation}`"
  | .neitherRowNorField => "equality between expressions that are neither rows nor fields"
  | .described text => text

/-- Why a name does not lead to rows or to a field. -/
inductive Unresolved
  | unbound (param : String)
  | memberOfScalar (member : String)
  | callOnScalar (call : String)
  | neverBuilt
  | notARow (relation : String)
  | noMember (member : String)
  | noAssociation (relation name : String)
  | described (text : String)
deriving DecidableEq

/-- The wording of a reason. -/
def Unresolved.message : Unresolved → String
  | .unbound param => s!"parameter `{param}` is not bound"
  | .memberOfScalar member => s!"member `{member}` accessed on a scalar"
  | .callOnScalar call => s!"`{call}` applied to a scalar"
  | .neverBuilt => "parameter refers to a row source that was never built"
  | .notARow relation => s!"association to `{relation}` is not navigated from a row"
  | .noMember member => s!"projection has no member `{member}`"
  | .noAssociation relation name => s!"relation `{relation}` has no association `{name}`"
  | .described text => text

/-- Why a list of relations is not a schema. -/
inductive Inconsistency
  | repeatedRelation (relation : String)
  | repeatedColumn (relation column : String)
  | noPrimaryKey (relation : String)
  | undeclaredKey (relation field : String)
  | repeatedKey (relation field : String)
  | undeclaredThisKey (relation association column : String)
  | unknownTarget (relation association : String)
  | undeclaredOtherKey (relation association target column : String)
  | described (text : String)
deriving DecidableEq

/-- The wording of a reason. -/
def Inconsistency.message : Inconsistency → String
  | .repeatedRelation relation => s!"relation `{relation}` is declared more than once"
  | .repeatedColumn relation column => s!"column `{relation}.{column}` is declared more than once"
  | .noPrimaryKey relation => s!"relation `{relation}` has no primary key"
  | .undeclaredKey relation field =>
    s!"primary key of `{relation}` references undeclared column `{field}`"
  | .repeatedKey relation field => s!"primary key of `{relation}` lists `{field}` more than once"
  | .undeclaredThisKey relation association column =>
    s!"association `{relation}.{association}` joins on undeclared column `{column}`"
  | .unknownTarget relation association =>
    s!"association `{relation}.{association}` targets an unknown relation"
  | .undeclaredOtherKey relation association target column =>
    s!"association `{relation}.{association}` joins on undeclared column `{target}.{column}`"
  | .described text => text

end FetchPlan
