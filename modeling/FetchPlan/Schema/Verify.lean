import FetchPlan.Schema.Basic

/-!
# Verification of schemas

A list of relations is a schema if it is consistent. The checks run in a fixed order: relation
names first, then relation by relation its columns, its primary key and its associations. The
first check that fails is the error.
-/

namespace FetchPlan

private def reject {α : Type} (reason : Inconsistency) : Except Error α :=
  .error (Cause.invalidSchema reason)

/-- The first name of a list that repeats an earlier one or one of `seen`. -/
def firstRepeated? (seen : List String) : List String → Option String
  | [] => none
  | name :: names => if name ∈ seen then some name else firstRepeated? (name :: seen) names

namespace Relation

/-- Column names are distinct. -/
def verifyColumns (r : Relation) : Except Error Unit :=
  match firstRepeated? [] (r.columns.map Column.name) with
  | some column => reject (.repeatedColumn r.name column)
  | none => .ok ()

/-- Key fields are declared, and none is listed twice. -/
def verifyKeyFields (r : Relation) (seen : List String) : List String → Except Error Unit
  | [] => .ok ()
  | field :: fields =>
    if (r.column? field).isNone then reject (.undeclaredKey r.name field)
    else if field ∈ seen then reject (.repeatedKey r.name field)
    else r.verifyKeyFields (field :: seen) fields

/-- The primary key is not empty, and its fields are distinct columns. -/
def verifyPrimaryKey (r : Relation) : Except Error Unit :=
  if r.primaryKey.isEmpty then reject (.noPrimaryKey r.name)
  else r.verifyKeyFields [] r.primaryKey

/-- An association leads from a declared column to a declared column of a known relation. -/
def verifyAssociation (s : Schema) (r : Relation) (a : Association) : Except Error Unit :=
  if (r.column? a.thisKey).isNone then reject (.undeclaredThisKey r.name a.name a.thisKey)
  else match s.relation a.otherRelation with
    -- The unknown relation stays known as the root cause.
    | .error e => .error (e.within (.invalidSchema (.unknownTarget r.name a.name)))
    | .ok target =>
      if (target.column? a.otherKey).isNone then
        reject (.undeclaredOtherKey r.name a.name target.name a.otherKey)
      else .ok ()

/-- The checks of one relation, in order. -/
def verify (s : Schema) (r : Relation) : Except Error Unit := do
  r.verifyColumns
  r.verifyPrimaryKey
  r.associations.forM (r.verifyAssociation s)

end Relation

namespace Schema

/-- The schema of a list of relations, or the first inconsistency found. -/
def ofRelations (relations : List Relation) : Except Error Schema := do
  if let some name := firstRepeated? [] (relations.map Relation.name) then
    reject (.repeatedRelation name)
  let s : Schema := ⟨relations⟩
  relations.forM (Relation.verify s)
  return s

end Schema
end FetchPlan
