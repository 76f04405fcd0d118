import FetchPlan.Json.StringText
import FetchPlan.Json.Value

/-!
# Writing JSON texts

Every item and every member stands on a line of its own, indented by two spaces for each array or
object around it. An empty array or object is written without a line end. A string that denotes
no characters is written as half of a surrogate pair.
-/

namespace FetchPlan.JsonText

/-- The spaces before a line at a depth. -/
def indent (depth : Nat) : String := String.ofList (List.replicate (2 * depth) ' ')

/-- Lines between brackets at a depth, separated by commas. -/
def block (opening closing : String) (depth : Nat) (lines : List String) : String :=
  if lines.isEmpty then opening ++ closing
  else opening ++ "\n" ++ ",\n".intercalate (lines.map (indent (depth + 1) ++ ·)) ++ "\n" ++
    indent depth ++ closing

/-- A string in quotes. -/
def printString : Option String → String
  | some s => quote s
  | none => "\"\\ud800\""

mutual

/-- A value at a depth. -/
def print (depth : Nat) : JsonValue → String
  | .null => "null"
  | .bool b => if b then "true" else "false"
  | .number text => text
  | .string text => printString text
  | .array items => block "[" "]" depth (printItems (depth + 1) items)
  | .object members => block "\x7b" "\x7d" depth (printMembers (depth + 1) members)

/-- The items of an array. -/
def printItems (depth : Nat) : List JsonValue → List String
  | [] => []
  | v :: vs => print depth v :: printItems depth vs

/-- The members of an object. -/
def printMembers (depth : Nat) : List (Option String × JsonValue) → List String
  | [] => []
  | (name, v) :: ms => (printString name ++ ": " ++ print depth v) :: printMembers depth ms

end

/-- The text of a value. -/
def pretty (v : JsonValue) : String := print 0 v

end FetchPlan.JsonText
