import FetchPlan.Proofs.Batch.Fetched
import FetchPlan.Proofs.Batch.Multiplicity
import FetchPlan.Proofs.JoinGraph.SourcedWalk
import FetchPlan.Proofs.Planned

/-!
# What a batch fetches that is not optimized

Without the optimization every row source of a query is fetched once (`Planner.relations_of_plan`).
If the query only navigates, each fetch selects exactly the rows of its source: at the root the row
with the given key, and over an association the rows that agree with a row of the source that it is
followed from (`Planner.fetched_of_plan`).
-/

namespace FetchPlan

open Emitting JoinGraph

section Rows

variable {V : Type} [DecidableEq V] {D : Database V} {start : List (Row V)}
  {source : RowSource} {a : Association} {r : Row V}

/-- The rows of a source, if those of the relation that the query starts at are given. -/
def RowSource.rows (D : Database V) (start : List (Row V)) : RowSource → List (Row V)
  | table _ => start
  | step source a => (D a.otherRelation).filter
      fun r => ∃ r' ∈ source.rows D start, r a.otherKey = r' a.thisKey

/-- An association leads to the rows whose key has the value of the column that it leaves from. -/
theorem RowSource.mem_rows_step : r ∈ (step source a).rows D start ↔
    r ∈ D a.otherRelation ∧ ∃ r' ∈ source.rows D start, r a.otherKey = r' a.thisKey := by
  rw [rows, List.mem_filter, decide_eq_true_iff]

/-- The rows of a node are those of its source. -/
def RowSource.rowsAt (D : Database V) (start : List (Row V)) (sources : List RowSource) (n : Nat) :
    List (Row V) :=
  (sources[n]?.map (RowSource.rows D start)).getD []

/-- If connections follow associations, they lead to the rows of the sources. -/
theorem JoinGraph.Follows.fetchesRows {g : JoinGraph} {sources : List RowSource}
    (h : g.Follows sources) (hs : g.Sourced sources) :
    g.FetchesRows D (RowSource.rowsAt D start sources) := by
  intro n c hc
  obtain ⟨source, assoc, hn, htarget, hfields⟩ := h.steps n c hc
  have hrelation : g.relation c.target = assoc.otherRelation := hs.relation htarget
  rw [RowSource.rowsAt, RowSource.rowsAt, hn, htarget, hrelation]
  refine List.filter_congr fun r _ => ?_
  rw [hfields]
  refine decide_eq_decide.2 (exists_congr fun r' => and_congr_right fun _ => ?_)
  exact (FieldPairs.forall_mem_zip_singleton (P := fun q => r q.target = r' q.source)).symm

/-- The relations and the rows of the nodes are those of the sources. -/
theorem JoinGraph.Sourced.map_rowsAt {g : JoinGraph} {sources : List RowSource}
    (hs : g.Sourced sources) :
    (g.ids.map fun n => (g.relation n, RowSource.rowsAt D start sources n)) =
      sources.map fun source => (source.relation, source.rows D start) := by
  apply List.ext_getElem?
  intro n
  rw [List.getElem?_map, List.getElem?_map, ids, hs.size]
  cases hn : sources[n]? with
  | none =>
    have hle : sources.length ≤ n := List.getElem?_eq_none_iff.1 hn
    rw [List.getElem?_eq_none_iff.2 (by rwa [List.length_range])]
    rfl
  | some source =>
    have hlt : n < sources.length := (List.getElem?_eq_some_iff.1 hn).1
    rw [List.getElem?_range hlt, Option.map_some, hs.relation hn, RowSource.rowsAt, hn]
    rfl

end Rows

namespace Planner

variable {p : Planner} {query : Expr} {b : Batch} {rs : List FetchPlan.Relation}

/-- The relations that are fetched are those of the relations and the associations of the query, one
fetch for each of them. -/
theorem relations_of_plan (hs : Schema.ofRelations rs = .ok p.schema)
    (hoff : p.config.optimize = false) (h : (p.plan query).result = .ok b) :
    (b.fetches.map Fetch.relation).Perm (query.parts.filterMap Expr.relation?) := by
  obtain ⟨flow, g, hflow, hg, hb, hwired, hpos⟩ := of_plan_built hs hoff h
  have hsourced : g.Sourced (query.rowSources [] .scalar) := sourced_of_ofPath hflow hg
  have hfetched := Batch.perm_relations hb hwired hpos (reaches_of_ofPath hg)
  rw [hsourced.relations] at hfetched
  exact hfetched.trans (query.perm_relation_rowSources [] .scalar)

variable {V : Type} [DecidableEq V] {D : Database V}

/-- The fetches of a query that only navigates select the rows of its sources. The first fetch
selects the row with the given key. -/
theorem fetched_of_plan (params : String → V) (hs : Schema.ofRelations rs = .ok p.schema)
    (hq : query.OnlyNavigates) (hoff : p.config.optimize = false)
    (h : (p.plan query).result = .ok b) (hD : D.Keyed p.schema) :
    ∃ relation key start, p.schema.primaryKey relation = .ok key ∧
      (query.rowSources [] .scalar)[0]? = some (.table relation) ∧
      (∀ r, r ∈ start ↔ r ∈ D relation ∧ r.Matches params (keyFilters p.config key)) ∧
      start.length ≤ 1 ∧ (b.execute D params).fetched[0]? = some (relation, start) ∧
      (b.execute D params).fetched.Perm ((query.rowSources [] .scalar).map
        fun source => (source.relation, source.rows D start)) := by
  obtain ⟨flow, g, hflow, hg, hb, hwired, hpos⟩ := of_plan_built hs hoff h
  have hsourced : g.Sourced (query.rowSources [] .scalar) := sourced_of_ofPath hflow hg
  have hfollows : g.Follows (query.rowSources [] .scalar) := follows_of_ofPath hs hq hflow hg
  obtain ⟨relation, hroot⟩ := hsourced.root
  have hrelation : g.relation root = relation := hsourced.relation hroot
  obtain ⟨ts, hts, -, -⟩ := Batch.of_ofGraph hb
  obtain ⟨-, key, -, -, hkey, -⟩ := hts.first
  obtain ⟨start, hstart⟩ : ∃ start, start = (D relation).filter
      fun r => r.Matches params (keyFilters p.config key) := ⟨_, rfl⟩
  have hrows : RowSource.rowsAt D start (query.rowSources [] .scalar) root = start := by
    unfold RowSource.rowsAt
    show ((query.rowSources [] .scalar)[0]?.map _).getD [] = start
    rw [hroot]
    rfl
  obtain ⟨hfirst, hperm⟩ := Batch.fetched_perm hb hwired hpos (reaches_of_ofPath hg) hkey
    (by rw [hrows, hstart, hrelation]) (hfollows.fetchesRows hsourced)
  rw [hrows, hrelation] at hfirst
  rw [hsourced.map_rowsAt] at hperm
  rw [hrelation] at hkey
  refine ⟨relation, key, start, hkey, hroot, ?_, ?_, hfirst, hperm⟩
  · intro r
    rw [hstart, List.mem_filter, decide_eq_true_iff]
  · rw [hstart]
    refine hD.length_filter_le_one hkey ?_
    intro r r' hr hr'
    exact (of_decide_eq_true hr).map_eq (of_decide_eq_true hr')

/-- The orders of the customers of those orders whose customer has a name. -/
def namedSiblings : Expr :=
  .selectMany
    (.filter (.table "Order") (.lambda ["o"]
      (.binary .eq (.member (customerOf (.param "o")) (.column "Name")) (.value (.string "Ann")))))
    (.lambda ["p"] (ordersOf (customerOf (.param "p"))))

theorem relations_namedSiblings :
    Schema.ofRelations shopRelations = .ok shop ∧
      ∃ b, (plan ⟨shop, { optimize := false }⟩ namedSiblings).result = .ok b ∧
        (b.fetches.map Fetch.relation).Perm ["Order", "Customer", "Customer", "Order"] := by
  have hplan : (plan ⟨shop, { optimize := false }⟩ namedSiblings).result >>= (fun _ => .ok ()) =
      .ok () := by decide +kernel
  obtain ⟨b, hb, -⟩ := bind_eq_ok.1 hplan
  have hparts : namedSiblings.parts.filterMap Expr.relation? =
      ["Order", "Customer", "Order", "Customer"] := by decide +kernel
  have hperm := relations_of_plan ofRelations_shop rfl hb
  rw [hparts] at hperm
  exact ⟨ofRelations_shop, b, hb, hperm.trans (by decide)⟩

/-- The order with the key, its customer for the condition and for the navigation, and all orders of
the customer. -/
theorem fetched_namedSiblings :
    Schema.ofRelations shopRelations = .ok shop ∧ namedSiblings.OnlyNavigates ∧
      twoOrders.Keyed shop ∧
      ∃ b, (plan ⟨shop, { optimize := false }⟩ namedSiblings).result = .ok b ∧
        (b.execute twoOrders fun _ => 1).fetched.Perm [("Order", [orderRow 1 7]),
          ("Customer", [fun _ => 7]), ("Customer", [fun _ => 7]),
          ("Order", [orderRow 1 7, orderRow 2 7])] := by
  have hquery : namedSiblings.OnlyNavigates := by decide +kernel
  have hplan : (plan ⟨shop, { optimize := false }⟩ namedSiblings).result >>= (fun _ => .ok ()) =
      .ok () := by decide +kernel
  obtain ⟨b, hb, -⟩ := bind_eq_ok.1 hplan
  obtain ⟨relation, key, start, hkey, hroot, hstart, hlength, -, hperm⟩ :=
    fetched_of_plan (fun _ => 1) ofRelations_shop hquery rfl hb keyed_twoOrders
  obtain rfl : "Order" = relation := RowSource.table.inj (Option.some.inj hroot)
  obtain rfl : ["Id"] = key := Except.ok.inj hkey
  have hmem : orderRow 1 7 ∈ start := (hstart _).2 ⟨List.mem_cons_self, by decide⟩
  have hsingle : start = [orderRow 1 7] := by
    match start, hlength with
    | [r], _ => rw [List.mem_singleton.1 hmem]
  rw [hsingle] at hperm
  exact ⟨ofRelations_shop, hquery, keyed_twoOrders, b, hb, hperm⟩

end Planner
end FetchPlan
