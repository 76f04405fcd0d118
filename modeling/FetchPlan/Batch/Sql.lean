import FetchPlan.Batch.Basic

/-!
# SQL text

Names are written as they are. The relation being fetched goes by the alias `current`, the
earlier rows it joins by the alias `previous`.
-/

namespace FetchPlan

/-- A column with its type. -/
def ColumnDef.sql (c : ColumnDef) : String := c.name ++ " " ++ c.type

/-- The declaration of a table variable, without the semicolon. -/
def Declaration.sql (d : Declaration) : String :=
  "DECLARE " ++ d.var ++ " TABLE(" ++ ", ".intercalate (d.columns.map ColumnDef.sql) ++ ")"

/-- A column of the relation being fetched. -/
def currentColumn (name : String) : String := "current." ++ name

/-- A column of the earlier rows. -/
def previousColumn (name : String) : String := "previous." ++ name

/-- The comparison of a column with its parameter. -/
def KeyFilter.sql (f : KeyFilter) : String := currentColumn f.column ++ " = " ++ f.param

/-- The earlier rows, as a table variable or as a selection from one. -/
def Previous.sql : Previous → String
  | var name => name
  | distinct name columns =>
    "(SELECT DISTINCT " ++ ", ".intercalate columns ++ " FROM " ++ name ++ ")"

/-- A column of the relation being fetched compared with one of the earlier rows. -/
def joinSql (pair : String × String) : String :=
  currentColumn pair.1 ++ " = " ++ previousColumn pair.2

/-- The clause that finds the rows of a fetch. -/
def Source.sql : Source → String
  | key filters => " WHERE " ++ " AND ".intercalate (filters.map KeyFilter.sql)
  | join previous on =>
    " INNER JOIN " ++ previous.sql ++ " AS previous ON " ++ " AND ".intercalate (on.map joinSql)

/-- The insertion of the fetched rows into their table variable, without the semicolon. -/
def Fetch.sql (f : Fetch) : String :=
  "INSERT INTO " ++ f.target ++ " SELECT " ++ ", ".intercalate (f.columns.map currentColumn) ++
    " FROM " ++ f.relation ++ " AS current" ++ f.source.sql

/-- A statement with the semicolon that ends it. -/
def Statement.sql : Statement → String
  | declare d => d.sql ++ ";"
  | insert f => f.sql ++ ";"
  | selectAll var => "SELECT * FROM " ++ var ++ ";"

/-- A fetch and the statement that reads its rows back. -/
def Fetch.paragraph (f : Fetch) : String :=
  (Statement.insert f).sql ++ "\n" ++ (Statement.selectAll f.target).sql

/-- The declarations, one a line, and after a blank line the fetches, a paragraph each. -/
def Batch.sql (b : Batch) : String :=
  let declarations := "\n".intercalate (b.declarations.map fun d => (Statement.declare d).sql)
  if b.fetches.isEmpty then declarations
  else declarations ++ "\n\n" ++ "\n\n".intercalate (b.fetches.map Fetch.paragraph)

end FetchPlan
