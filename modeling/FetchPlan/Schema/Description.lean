import FetchPlan.Json.Parser
import FetchPlan.Json.Printer
import FetchPlan.Schema.Verify

/-!
# Schemas as JSON

A schema is described as a record of its relations. Every record may be given as an object, in
which unknown members are ignored, or as an array of its fields in order. Associations may be
left out of a relation; everything else must be there.
-/

namespace FetchPlan

namespace Column

/-- The names of the fields, in order. -/
def fields : List String := ["name", "sql_type"]

/-- A column as an object. -/
def toJson (c : Column) : JsonValue :=
  .object [(some "name", .string c.name), (some "sql_type", .string c.sqlType)]

/-- The column that a record describes. -/
def ofJson? (j : JsonValue) : Option Column := do
  match ← j.record? fields with
  | [some name, some sqlType] => return { name := ← name.string?, sqlType := ← sqlType.string? }
  | _ => none

end Column

namespace Association

/-- The names of the fields, in order. -/
def fields : List String := ["name", "this_key", "other_relation", "other_key"]

/-- An association as an object. -/
def toJson (a : Association) : JsonValue :=
  .object [(some "name", .string a.name), (some "this_key", .string a.thisKey),
    (some "other_relation", .string a.otherRelation), (some "other_key", .string a.otherKey)]

/-- The association that a record describes. -/
def ofJson? (j : JsonValue) : Option Association := do
  match ← j.record? fields with
  | [some name, some thisKey, some otherRelation, some otherKey] =>
    return {
      name := ← name.string?
      thisKey := ← thisKey.string?
      otherRelation := ← otherRelation.string?
      otherKey := ← otherKey.string? }
  | _ => none

end Association

namespace Relation

/-- The names of the fields, in order. -/
def fields : List String := ["name", "columns", "primary_key", "associations"]

/-- A relation as an object. -/
def toJson (r : Relation) : JsonValue :=
  .object [(some "name", .string r.name), (some "columns", .array (r.columns.map Column.toJson)),
    (some "primary_key", .array (r.primaryKey.map fun field => .string (some field))),
    (some "associations", .array (r.associations.map Association.toJson))]

/-- The relation that a record describes. -/
def ofJson? (j : JsonValue) : Option Relation := do
  match ← j.record? fields with
  | [some name, some columns, some primaryKey, associations] =>
    return {
      name := ← name.string?
      columns := ← columns.list? Column.ofJson?
      primaryKey := ← primaryKey.list? JsonValue.string?
      associations := ← match associations with
        | some associations => associations.list? Association.ofJson?
        | none => some [] }
  | _ => none

end Relation

namespace Schema

/-- The names of the fields, in order. -/
def fields : List String := ["relations"]

/-- A schema as an object. -/
def toJson (s : Schema) : JsonValue :=
  .object [(some "relations", .array (s.relations.map Relation.toJson))]

/-- The relations of a description. -/
def relationsOfJson? (j : JsonValue) : Option (List Relation) := do
  match ← j.record? fields with
  | [some relations] => relations.list? Relation.ofJson?
  | _ => none

/-- The description of a schema. -/
def describe (s : Schema) : String := JsonText.pretty s.toJson

/-- The schema of a description. -/
def ofDescription (text : String) : Except Error Schema :=
  match (JsonText.parse text).bind relationsOfJson? with
  | some relations => ofRelations relations
  | none => .error (Cause.foreign "the text does not describe a schema")

end Schema
end FetchPlan
