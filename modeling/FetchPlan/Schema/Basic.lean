import FetchPlan.Error.Basic

/-!
# Schemas

The relations a query may touch: their columns with the types these are staged as, their
primary keys, and the associations that lead from one relation to another.
-/

namespace FetchPlan

/-- A column and the SQL type it is staged as. -/
structure Column where
  name : String
  sqlType : String
deriving DecidableEq, Repr

/-- A named way from the rows of a relation to those rows of `otherRelation` whose `otherKey`
equals their `thisKey`. -/
structure Association where
  name : String
  thisKey : String
  otherRelation : String
  otherKey : String
deriving DecidableEq, Repr

/-- A relation, its primary key listed in key order. -/
structure Relation where
  name : String
  columns : List Column := []
  primaryKey : List String := []
  associations : List Association := []
deriving DecidableEq, Repr

namespace Relation

/-- The first column of a name. -/
def column? (r : Relation) (name : String) : Option Column := r.columns.find? (·.name = name)

/-- The first association of a name. -/
def association? (r : Relation) (name : String) : Option Association :=
  r.associations.find? (·.name = name)

end Relation

/-- The relations a query may touch, in the order in which they were declared. -/
structure Schema where
  relations : List Relation := []
deriving DecidableEq, Repr

namespace Schema

/-- The relation of a name. -/
def relation? (s : Schema) (name : String) : Option Relation := s.relations.find? (·.name = name)

/-- The relation of a name, or an error that it is unknown. -/
def relation (s : Schema) (name : String) : Except Error Relation :=
  match s.relation? name with
  | some r => .ok r
  | none => .error (Cause.unknownRelation name)

/-- The primary key of a relation, in key order. -/
def primaryKey (s : Schema) (relation : String) : Except Error (List String) :=
  return (← s.relation relation).primaryKey

/-- The type a column is staged as. -/
def sqlType (s : Schema) (relation column : String) : Except Error String := do
  match (← s.relation relation).column? column with
  | some c => return c.sqlType
  | none => .error (Cause.unknownColumn relation column)

/-- Whether `fields` are the primary key of a relation, in any order. -/
def isPrimaryKey (s : Schema) (relation : String) (fields : List String) : Except Error Bool :=
  return let key := (← s.relation relation).primaryKey
    key.length == fields.length && fields.all (key.contains ·) && key.all (fields.contains ·)

/-- The association of a name that leaves a relation. -/
def association (s : Schema) (relation name : String) : Except Error Association := do
  match (← s.relation relation).association? name with
  | some a => return a
  | none => .error (Unresolved.noAssociation relation name).error

end Schema
end FetchPlan
