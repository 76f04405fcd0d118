import FetchPlan.Decimal.Shortest
import FetchPlan.Text.Quoted

/-!
# Literals

The values that stand in a query, how they are compared with each other and how they are shown.
-/

namespace FetchPlan

/-- A literal of a query. -/
inductive Value
  | null
  | bool (b : Bool)
  | int (n : Int64)
  | float (x : Binary64)
  | string (s : String)
deriving Repr

/-- Equality of literals. Floats compare as numbers, and an integer never equals a float. -/
def Value.sameAs : Value → Value → Bool
  | null, null => true
  | bool b, bool c => b = c
  | int m, int n => m = n
  | float x, float y => x.numEq y
  | string s, string t => s = t
  | _, _ => false

/-- A literal as it is written. -/
def Value.text : Value → String
  | null => "null"
  | bool b => if b then "true" else "false"
  | int n => toString n.toInt
  | float x => x.text
  | string s => Quoted.quote s

end FetchPlan
