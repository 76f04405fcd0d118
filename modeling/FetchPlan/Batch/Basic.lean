/-!
# Staged fetches

A batch declares table variables and fills them one after the other. The first fetch finds its
rows by key; each later one joins the rows staged by an earlier fetch.
-/

namespace FetchPlan

/-- A column of a table variable. -/
structure ColumnDef where
  name : String
  type : String
deriving DecidableEq, Repr

/-- The declaration of a table variable. -/
structure Declaration where
  var : String
  columns : List ColumnDef
deriving DecidableEq, Repr

/-- A column compared with a parameter. -/
structure KeyFilter where
  column : String
  param : String
deriving DecidableEq, Repr

/-- The earlier rows that a fetch joins. -/
inductive Previous
  /-- The rows of a table variable as they are. -/
  | var (name : String)
  /-- The distinct values of some columns of a table variable. -/
  | distinct (name : String) (columns : List String)
deriving DecidableEq, Repr

/-- The table variable that is joined. -/
def Previous.name : Previous → String
  | var name => name
  | distinct name _ => name

/-- How the rows of a fetch are found. -/
inductive Source
  | key (filters : List KeyFilter)
  /-- Rows whose first column of each pair equals the second column of an earlier row. -/
  | join (previous : Previous) (on : List (String × String))
deriving DecidableEq, Repr

/-- Stages columns of a relation in a table variable. -/
structure Fetch where
  target : String
  columns : List String
  relation : String
  source : Source
deriving DecidableEq, Repr

/-- One statement of a batch. -/
inductive Statement
  | declare (d : Declaration)
  | insert (f : Fetch)
  | selectAll (var : String)
deriving DecidableEq, Repr

/-- The declarations and the fetches, in order. -/
structure Batch where
  declarations : List Declaration := []
  fetches : List Fetch := []
deriving DecidableEq, Repr

namespace Batch

/-- Nothing is declared and nothing fetched. -/
def isEmpty (b : Batch) : Bool := b.declarations.isEmpty && b.fetches.isEmpty

/-- The statements in order. The rows of each fetch are read back as soon as they are staged. -/
def statements (b : Batch) : List Statement :=
  b.declarations.map .declare ++ b.fetches.flatMap fun f => [.insert f, .selectAll f.target]

end Batch
end FetchPlan
