import FetchPlan.Batch.OfGraph
import FetchPlan.Proofs.Yields
import Mathlib.Data.List.Dedup
import Mathlib.Data.List.Pairwise

/-!
# Executing batches

What a batch does to a database. A row has a value for each column, a database has a finite list of
rows for each relation, and the fetches are executed in order: each keeps the rows of its relation
that its source admits, and stages the columns it names.
-/

namespace FetchPlan

variable {V : Type}

/-- A row has a value for each column. -/
abbrev Row (V : Type) := String → V

/-- The rows of each relation. -/
abbrev Database (V : Type) := String → List (Row V)

/-- No two rows of a relation agree on its primary key. -/
def Database.Keyed (D : Database V) (s : Schema) : Prop :=
  ∀ relation key, s.primaryKey relation = .ok key →
    (D relation).Pairwise fun r r' => key.map r ≠ key.map r'

/-- Rows of a relation that agree on its primary key are the same. -/
theorem Database.Keyed.eq {D : Database V} {s : Schema} {relation : String} {key : List String}
    {r r' : Row V} (h : D.Keyed s) (hkey : s.primaryKey relation = .ok key) (hr : r ∈ D relation)
    (hr' : r' ∈ D relation) (heq : key.map r = key.map r') : r = r' := by
  have hsymm : Std.Symm fun r r' : Row V => key.map r ≠ key.map r' := ⟨fun _ _ => Ne.symm⟩
  by_contra hne
  exact (h relation key hkey).forall hr hr' hne heq

/-- It is enough to look at the relations of the schema. -/
theorem Database.keyed_of_relations {D : Database V} {s : Schema}
    (h : ∀ rel ∈ s.relations,
      (D rel.name).Pairwise fun r r' => rel.primaryKey.map r ≠ rel.primaryKey.map r') :
    D.Keyed s := by
  intro relation key hkey
  obtain ⟨rel, hrel, hkey⟩ := bind_eq_ok.1 hkey
  obtain rfl := pure_eq_ok.1 hkey
  unfold Schema.relation Schema.relation? at hrel
  split at hrel
  · next rel' hfind =>
    obtain rfl := Except.ok.inj hrel
    have hname : rel'.name = relation := by simpa using List.find?_some hfind
    exact hname ▸ h rel' (List.mem_of_find?_eq_some hfind)
  · exact absurd hrel (by simp)

/-- The values of the columns of a table variable. -/
abbrev StagedRow (V : Type) := List (String × V)

/-- The rows of the table variables that are filled, the last one first. -/
abbrev Tables (V : Type) := List (String × List (StagedRow V))

/-- What is staged of a row. -/
def Row.staged (r : Row V) (columns : List String) : StagedRow V := columns.map fun x => (x, r x)

/-- The values of a parameter assignment satisfy the comparisons with the row. -/
def Row.Matches (r : Row V) (params : String → V) (filters : List KeyFilter) : Prop :=
  ∀ f ∈ filters, r f.column = params f.param

/-- The state of an execution: the table variables, and the rows that each fetch selected with the
relation they are of. -/
structure Execution (V : Type) where
  tables : Tables V := []
  fetched : List (String × List (Row V)) := []

section Execute

variable [DecidableEq V]

/-- The earlier rows that are joined. -/
def Previous.rows (tables : Tables V) : Previous → List (StagedRow V)
  | var name => (tables.lookup name).getD []
  | distinct name columns =>
    (((tables.lookup name).getD []).map fun t => t.filter (·.1 ∈ columns)).dedup

/-- Whether a source finds a row. -/
def Source.admits (params : String → V) (tables : Tables V) (r : Row V) : Source → Bool
  | key filters => filters.all fun f => r f.column = params f.param
  | join previous on =>
    (previous.rows tables).any fun t => on.all fun p => t.lookup p.2 = some (r p.1)

/-- The rows that a fetch selects. -/
def Fetch.rows (D : Database V) (params : String → V) (tables : Tables V) (f : Fetch) :
    List (Row V) :=
  (D f.relation).filter fun r => f.source.admits params tables r

/-- Executes one fetch. -/
def Fetch.execute (D : Database V) (params : String → V) (e : Execution V) (f : Fetch) :
    Execution V :=
  let rows := f.rows D params e.tables
  { tables := (f.target, rows.map fun r => Row.staged r f.columns) :: e.tables
    fetched := e.fetched ++ [(f.relation, rows)] }

/-- Executes the fetches of a batch in order. -/
def Batch.execute (b : Batch) (D : Database V) (params : String → V) : Execution V :=
  b.fetches.foldl (Fetch.execute D params) {}

/-- Some fetch over the relation selects the row. -/
def Batch.Selects (b : Batch) (D : Database V) (params : String → V) (relation : String)
    (r : Row V) : Prop :=
  ∃ rows, (relation, rows) ∈ (b.execute D params).fetched ∧ r ∈ rows

/-- On every database, `b'` selects the rows that `b` selects. -/
def Batch.CoveredBy (s : Schema) (b b' : Batch) : Prop :=
  ∀ (V : Type) [DecidableEq V] (D : Database V) (params : String → V), D.Keyed s →
    ∀ relation r, b.Selects D params relation r → b'.Selects D params relation r

end Execute

/-! ## What sources admit -/

variable {params : String → V} {tables : Tables V} {r : Row V} {columns : List String} {x : String}

theorem Row.lookup_staged (hx : x ∈ columns) : (Row.staged r columns).lookup x = some (r x) := by
  induction columns with
  | nil => exact absurd hx List.not_mem_nil
  | cons y columns ih =>
    rw [Row.staged, List.map_cons, List.lookup_cons]
    by_cases heq : x = y
    · rw [heq, beq_self_eq_true]
    · rw [beq_false_of_ne heq]
      exact ih ((List.mem_cons.1 hx).resolve_left heq)

theorem Row.filter_staged {kept : List String} :
    (Row.staged r columns).filter (·.1 ∈ kept) = Row.staged r (columns.filter (· ∈ kept)) := by
  rw [Row.staged, List.filter_map]
  rfl

/-- Leaving out other columns makes no difference to the value of a column. -/
theorem Row.lookup_filter_staged {kept : List String} (hx : x ∈ columns) (hk : x ∈ kept) :
    ((Row.staged r columns).filter (·.1 ∈ kept)).lookup x = some (r x) := by
  rw [Row.filter_staged]
  exact Row.lookup_staged (List.mem_filter.2 ⟨hx, decide_eq_true hk⟩)

variable [DecidableEq V]

theorem Source.admits_key {filters : List KeyFilter} :
    (Source.key filters).admits params tables r = true ↔ Row.Matches r params filters := by
  rw [admits, List.all_eq_true]
  simp only [decide_eq_true_eq]
  rfl

/-- The earlier rows of a join have the values of the rows selected before, column by column. -/
theorem Previous.exists_rows {var : String} {fields : FieldPairs} {keyed : Bool}
    {rows : List (Row V)} (hvar : tables.lookup var = some (rows.map fun r => Row.staged r columns))
    (hsources : ∀ x ∈ fields.sources, x ∈ columns) :
    ∃ image : Row V → StagedRow V,
      (∀ t, t ∈ (if keyed then Previous.distinct var fields.sources.toList
        else .var var).rows tables ↔ ∃ r ∈ rows, image r = t) ∧
      ∀ r, ∀ x ∈ fields.sources, (image r).lookup x = some (r x) := by
  cases keyed with
  | false =>
    refine ⟨fun r => Row.staged r columns, ?_, fun r x hx => Row.lookup_staged (hsources x hx)⟩
    intro t
    rw [if_neg Bool.false_ne_true, Previous.rows, hvar]
    exact List.mem_map
  | true =>
    refine ⟨fun r => (Row.staged r columns).filter (·.1 ∈ fields.sources.toList), ?_,
      fun r x hx => Row.lookup_filter_staged (hsources x hx) hx⟩
    intro t
    rw [if_pos rfl, Previous.rows, hvar, List.mem_dedup, Option.getD_some, List.map_map]
    exact List.mem_map

/-- A join over a connection admits the rows that agree on its fields with a row that was selected
before. -/
theorem Source.admits_joinSource {var : String} {fields : FieldPairs} {keyed : Bool}
    {rows : List (Row V)} (hvar : tables.lookup var = some (rows.map fun r => Row.staged r columns))
    (hsources : ∀ x ∈ fields.sources, x ∈ columns) :
    (Emitting.joinSource var fields keyed).admits params tables r = true ↔
      ∃ r' ∈ rows, ∀ q ∈ fields, r q.target = r' q.source := by
  obtain ⟨image, hmem, hlookup⟩ := Previous.exists_rows hvar hsources
  have hagree : ∀ r', ((fields.toList.map fun q => (q.target, q.source)).all fun p =>
      (image r').lookup p.2 = some (r p.1)) = true ↔ ∀ q ∈ fields, r q.target = r' q.source := by
    intro r'
    rw [List.all_map, List.all_eq_true]
    refine forall₂_congr ?_
    intro q hq
    have hsource : q.source ∈ fields.sources := OrderedSet.mem_ofList.2 (List.mem_map_of_mem hq)
    rw [Function.comp_apply, decide_eq_true_iff, hlookup r' _ hsource, Option.some.injEq, eq_comm]
  rw [Emitting.joinSource, admits, List.any_eq_true]
  constructor
  · intro h
    obtain ⟨t, ht, hall⟩ := h
    obtain ⟨r', hr', rfl⟩ := (hmem t).1 ht
    exact ⟨r', hr', (hagree r').1 hall⟩
  · intro h
    obtain ⟨r', hr', hall⟩ := h
    exact ⟨image r', (hmem _).2 ⟨r', hr', rfl⟩, (hagree r').2 hall⟩

end FetchPlan
