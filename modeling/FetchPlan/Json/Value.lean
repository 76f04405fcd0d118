/-!
# JSON values

A JSON text as data. Members of an object keep their order and may repeat a name. A string is
`none` if an escape in it names half of a surrogate pair, so that it denotes no characters: such
a string can be passed over but not read. Of a number only its text is kept.
-/

namespace FetchPlan

/-- A JSON value. -/
inductive JsonValue
  | null
  | bool (b : Bool)
  | number (text : String)
  | string (text : Option String)
  | array (items : List JsonValue)
  | object (members : List (Option String × JsonValue))
deriving Repr

/-- The parts that a JSON text is made of, without the blanks between them. Values other than
arrays and objects are parts of their own. -/
inductive JsonToken
  | beginArray | endArray
  | beginObject | endObject
  | comma | colon
  | atom (v : JsonValue)
deriving Repr

namespace JsonValue

/-- The text of a string. -/
def string? : JsonValue → Option String
  | string text => text
  | _ => none

/-- The items of an array, each read by `f`. -/
def list? {α : Type} (f : JsonValue → Option α) : JsonValue → Option (List α)
  | array items => items.mapM f
  | _ => none

/-- The value of the member `name`, if there is one. There must not be two. -/
def member? (name : String) (members : List (Option String × JsonValue)) :
    Option (Option JsonValue) :=
  match members.filter (·.1 = some name) with
  | [] => some none
  | [(_, v)] => some (some v)
  | _ => none

/-- The values of the fields of a record, where they are given. A record is an object, in which
other members are ignored, or an array of values in the order of the fields. -/
def record? (fields : List String) : JsonValue → Option (List (Option JsonValue))
  | object members =>
    -- Every name is read, also of members that are ignored.
    if members.any (·.1 = none) then none else fields.mapM fun name => member? name members
  | array items =>
    if items.length ≤ fields.length then
      some (items.map some ++ List.replicate (fields.length - items.length) none)
    else none
  | _ => none

end JsonValue
end FetchPlan
