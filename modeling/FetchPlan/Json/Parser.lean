import FetchPlan.Json.Lexer

/-!
# Reading JSON texts

The parts of a text are taken one by one. What may come next is a `Place`; the arrays and objects
that are not closed yet are `Frame`s, the innermost first. So values may be nested to any depth.
-/

namespace FetchPlan.JsonText

/-- An array or an object that is not closed yet, with what came before the value that is being
read, the last of it first. -/
inductive Frame
  | array (before : List JsonValue)
  | object (before : List (Option String × JsonValue)) (name : Option String)

/-- What may come next. -/
inductive Place
  /-- A value. -/
  | value
  /-- A value, or the end of an array that has just begun. -/
  | firstItem
  /-- The name of a member, or the end of an object that has just begun. -/
  | firstName
  /-- The name of a member, after the members before. -/
  | name (before : List (Option String × JsonValue))
  /-- The colon after the name of a member. -/
  | colon (before : List (Option String × JsonValue)) (name : Option String)
  /-- What follows a value that has ended. -/
  | done (v : JsonValue)

/-- The beginning of a value. -/
def beginValue (frames : List Frame) : JsonToken → Option (Place × List Frame)
  | .atom v => some (.done v, frames)
  | .beginArray => some (.firstItem, frames)
  | .beginObject => some (.firstName, frames)
  | _ => none

/-- What may come after a part, if the part may come here. -/
def step : Place × List Frame → JsonToken → Option (Place × List Frame)
  | (.value, frames), t => beginValue frames t
  | (.firstItem, frames), .endArray => some (.done (.array []), frames)
  | (.firstItem, frames), t => beginValue (.array [] :: frames) t
  | (.firstName, frames), .endObject => some (.done (.object []), frames)
  | (.firstName, frames), .atom (.string name) => some (.colon [] name, frames)
  | (.name before, frames), .atom (.string name) => some (.colon before name, frames)
  | (.colon before name, frames), .colon => some (.value, .object before name :: frames)
  | (.done v, .array before :: frames), .comma => some (.value, .array (v :: before) :: frames)
  | (.done v, .array before :: frames), .endArray =>
    some (.done (.array (v :: before).reverse), frames)
  | (.done v, .object before name :: frames), .comma => some (.name ((name, v) :: before), frames)
  | (.done v, .object before name :: frames), .endObject =>
    some (.done (.object ((name, v) :: before).reverse), frames)
  | _, _ => none

/-- The value that parts make up, if they make up one. -/
def valueOf (ts : List JsonToken) : Option JsonValue :=
  match ts.foldlM step (.value, []) with
  -- Nothing may be left open, and nothing left over.
  | some (.done v, []) => some v
  | _ => none

/-- The value of a text. -/
def parse (text : String) : Option JsonValue := do valueOf (← tokens text.toList)

end FetchPlan.JsonText
