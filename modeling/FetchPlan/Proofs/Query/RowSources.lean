import FetchPlan.Proofs.Flow.OnlyNavigates
import Mathlib.Data.List.Perm.Basic

/-!
# The row sources of a query

Every relation and every association in a query is a source of rows. An association leads on from
the rows of another source, which its base names directly, through a parameter or through an output
of a projection: `Expr.meaning` follows the bindings, and `Expr.rowSources` lists the sources in
the order in which they are met.
-/

namespace FetchPlan

/-- Where rows come from: a relation, or an association that is followed from another source. -/
inductive RowSource
  | table (relation : String)
  | step (source : RowSource) (a : Association)
deriving DecidableEq, Repr

/-- The relation that the rows are of. -/
def RowSource.relation : RowSource → String
  | table relation => relation
  | step _ a => a.otherRelation

/-- What an expression stands for. -/
inductive Meaning
  | rows (source : RowSource)
  /-- The named outputs of a projection. -/
  | record (outputs : List (String × Meaning))
  /-- A value that is neither rows nor a record. -/
  | scalar

namespace Meaning

/-- The source that an association leads on from. Nothing but rows can be followed, so what stands
for other meanings is of no account. -/
def source : Meaning → RowSource
  | rows source => source
  | _ => .table ""

/-- What a member that is no association reads. -/
def output (name : String) : Meaning → Meaning
  | record outputs => (outputs.lookup name).getD scalar
  | _ => scalar

end Meaning

/-- What the bound parameters stand for, the innermost first. -/
abbrev Bindings := List (String × Meaning)

/-- The method makes something else of the rows of its source. -/
def projects (method : String) : Bool :=
  match ChainOp.ofMethod? method with
  | some (.project _) => true
  | _ => false

mutual

/-- What an expression stands for. A lambda stands for its body, with its parameters bound to
`given`. -/
def Expr.meaning (env : Bindings) (given : Meaning) : Expr → Meaning
  | .table relation => .rows (.table relation)
  | .param name => (env.lookup name).getD .scalar
  | .member base (.association a) => .rows (.step (base.meaning env .scalar).source a)
  | .member base (.column name) => (base.meaning env .scalar).output name
  | .member base (.projected name) => (base.meaning env .scalar).output name
  | .call _ method args => callMeaning env (projects method) args
  | .lambda params body => body.meaning (params.map (·, given) ++ env) .scalar
  | .quote e => e.meaning env given
  | .convert e _ => e.meaning env given
  | .record fields => .record (fieldMeanings env fields)
  | .captured _ => .scalar
  | .value _ => .scalar
  | .binary .. => .scalar
  | .unary .. => .scalar

/-- What a call stands for: its source, or what its lambda makes of it. -/
def callMeaning (env : Bindings) (projects : Bool) : List Expr → Meaning
  | [] => .scalar
  | source :: rest =>
    if projects then lambdaMeaning env (source.meaning env .scalar) rest
    else source.meaning env .scalar

/-- What the lambda of a call stands for. -/
def lambdaMeaning (env : Bindings) (given : Meaning) : List Expr → Meaning
  | [] => .scalar
  | lambda :: _ => lambda.meaning env given

/-- What the fields of a record stand for. -/
def fieldMeanings (env : Bindings) : List (String × Expr) → List (String × Meaning)
  | [] => []
  | (name, e) :: fields => (name, e.meaning env .scalar) :: fieldMeanings env fields

end

mutual

/-- The row sources in an expression. See `Expr.meaning`. -/
def Expr.rowSources (env : Bindings) (given : Meaning) : Expr → List RowSource
  | .table relation => [.table relation]
  | .member base (.association a) =>
    base.rowSources env .scalar ++ [.step (base.meaning env .scalar).source a]
  | .member base (.column _) => base.rowSources env .scalar
  | .member base (.projected _) => base.rowSources env .scalar
  | .call _ _ args => callSources env args
  | .lambda params body => body.rowSources (params.map (·, given) ++ env) .scalar
  | .quote e => e.rowSources env given
  | .convert e _ => e.rowSources env given
  | .binary _ lhs rhs => lhs.rowSources env .scalar ++ rhs.rowSources env .scalar
  | .unary _ operand => operand.rowSources env .scalar
  | .record fields => fieldSources env fields
  | .param _ => []
  | .captured _ => []
  | .value _ => []

/-- The row sources in the arguments of a call. A lambda is given the rows of the first one. -/
def callSources (env : Bindings) : List Expr → List RowSource
  | [] => []
  | source :: rest =>
    source.rowSources env .scalar ++ lambdaSources env (source.meaning env .scalar) rest

/-- The row sources in the further arguments of a call. -/
def lambdaSources (env : Bindings) (given : Meaning) : List Expr → List RowSource
  | [] => []
  | e :: es => e.rowSources env given ++ lambdaSources env given es

/-- The row sources in the fields of a record. -/
def fieldSources (env : Bindings) : List (String × Expr) → List RowSource
  | [] => []
  | (_, e) :: fields => e.rowSources env .scalar ++ fieldSources env fields

end

/-- A constant is no source of rows. -/
theorem Expr.rowSources_constant : ∀ e : Expr, e.isConstant → ∀ {env : Bindings} {given : Meaning},
    e.rowSources env given = []
  | .captured _, _, _, _ => rfl
  | .value _, _, _, _ => rfl
  | .quote e, h, _, _ => e.rowSources_constant h
  | .convert e none, h, _, _ => e.rowSources_constant h
  | .binary _ lhs rhs, h, _, _ => by
    rw [isConstant, Bool.and_eq_true] at h
    rw [rowSources, lhs.rowSources_constant h.1, rhs.rowSources_constant h.2, List.append_nil]
  | .unary _ operand, h, _, _ => operand.rowSources_constant h

/-! ## Counting -/

/-- The relation that an expression itself brings into a query. -/
def Expr.relation? : Expr → Option String
  | .table relation => some relation
  | .member _ (.association a) => some a.otherRelation
  | _ => none

mutual

/-- The sources are one for each relation and each association in an expression, whatever the
parameters stand for. -/
theorem Expr.perm_relation_rowSources (env : Bindings) (given : Meaning) : ∀ e : Expr,
    ((e.rowSources env given).map RowSource.relation).Perm (e.parts.filterMap Expr.relation?)
  | .table _ => .refl _
  | .member base (.association a) => by
    have ih := base.perm_relation_rowSources env .scalar
    show ((base.rowSources env .scalar ++ [_]).map RowSource.relation).Perm
      (a.otherRelation :: base.parts.filterMap Expr.relation?)
    rw [List.map_append]
    exact (List.perm_append_singleton _ _).trans (ih.cons _)
  | .member base (.column _) => base.perm_relation_rowSources env .scalar
  | .member base (.projected _) => base.perm_relation_rowSources env .scalar
  | .call _ _ args => perm_relation_callSources env args
  | .lambda _ body => body.perm_relation_rowSources _ .scalar
  | .quote e => e.perm_relation_rowSources env given
  | .convert e _ => e.perm_relation_rowSources env given
  | .binary _ lhs rhs => by
    have hl := lhs.perm_relation_rowSources env .scalar
    have hr := rhs.perm_relation_rowSources env .scalar
    show ((lhs.rowSources env .scalar ++ rhs.rowSources env .scalar).map RowSource.relation).Perm
      ((lhs.parts ++ rhs.parts).filterMap Expr.relation?)
    rw [List.map_append, List.filterMap_append]
    exact hl.append hr
  | .unary _ operand => operand.perm_relation_rowSources env .scalar
  | .record fields => perm_relation_fieldSources env fields
  | .param _ => .refl _
  | .captured _ => .refl _
  | .value _ => .refl _

/-- See `Expr.perm_relation_rowSources`. -/
theorem perm_relation_callSources (env : Bindings) : ∀ es : List Expr,
    ((callSources env es).map RowSource.relation).Perm ((argumentParts es).filterMap Expr.relation?)
  | [] => .refl _
  | source :: rest => by
    have hsource := source.perm_relation_rowSources env .scalar
    have hrest := perm_relation_lambdaSources env (source.meaning env .scalar) rest
    rw [callSources, argumentParts, List.map_append, List.filterMap_append]
    exact hsource.append hrest

/-- See `Expr.perm_relation_rowSources`. -/
theorem perm_relation_lambdaSources (env : Bindings) (given : Meaning) : ∀ es : List Expr,
    ((lambdaSources env given es).map RowSource.relation).Perm
      ((argumentParts es).filterMap Expr.relation?)
  | [] => .refl _
  | e :: es => by
    have he := e.perm_relation_rowSources env given
    have hes := perm_relation_lambdaSources env given es
    rw [lambdaSources, argumentParts, List.map_append, List.filterMap_append]
    exact he.append hes

/-- See `Expr.perm_relation_rowSources`. -/
theorem perm_relation_fieldSources (env : Bindings) : ∀ fields : List (String × Expr),
    ((fieldSources env fields).map RowSource.relation).Perm
      ((fieldParts fields).filterMap Expr.relation?)
  | [] => .refl _
  | (_, e) :: fields => by
    have he := e.perm_relation_rowSources env .scalar
    have hfields := perm_relation_fieldSources env fields
    rw [fieldSources, fieldParts, List.map_append, List.filterMap_append]
    exact he.append hfields

end

end FetchPlan
