import FetchPlan.Proofs.Batch.Selects

/-!
# What each fetch selects

The rows of the nodes of a graph are determined (`FetchesRows`) if all connections to a node lead to
the same rows of its relation: those that agree on its fields with a row of the owner. Then each
fetch selects the rows of its node, in whatever way it reads the earlier rows
(`Batch.fetched_perm`).
-/

namespace FetchPlan

open Emitting JoinGraph

variable {s : Schema} {config : Config} {g : JoinGraph} {ts : List Stage} {t : Stage} {b : Batch}
  {key : List String}

/-! ## Nodes -/

/-- The stages are those of all nodes, each of them once. -/
theorem Staged.perm_nodes (h : Staged s config g ts) (hg : g.Wired) (hpos : 0 < g.size)
    (hall : ∀ n < g.size, g.Reaches n) (hnodes : ∀ n, n ∈ ts.map Stage.node ↔ g.Reaches n) :
    (ts.map Stage.node).Perm g.ids := by
  refine (List.perm_ext_iff_of_nodup h.nodup_nodes List.nodup_range).2 ?_
  intro n
  rw [hnodes, List.mem_range]
  exact ⟨hg.lt_size_of_reaches hpos, hall n⟩

/-- The fetches are of the relations of all nodes. -/
theorem Batch.perm_relations (h : (Batch.ofGraph s config g).result = .ok b) (hg : g.Wired)
    (hpos : 0 < g.size) (hall : ∀ n < g.size, g.Reaches n) :
    (b.fetches.map Fetch.relation).Perm (g.ids.map g.relation) := by
  obtain ⟨ts, hts, rfl, hnodes⟩ := Batch.of_ofGraph h
  have hrelations : (Batch.ofStages g ts).fetches.map Fetch.relation =
      (ts.map Stage.node).map g.relation := by
    rw [ofStages, List.map_map, List.map_map]
    rfl
  rw [hrelations]
  exact (hts.perm_nodes hg hpos hall hnodes).map _

/-! ## Rows -/

variable {V : Type} [DecidableEq V] {D : Database V} {params : String → V}
  {rows : Nat → List (Row V)} {e : Execution V}

instance {r : Row V} {filters : List KeyFilter} : Decidable (r.Matches params filters) :=
  inferInstanceAs (Decidable (∀ f ∈ filters, r f.column = params f.param))

/-- The rows of the nodes, those of the root given: over every connection the rows of its target
agree with a row of its owner. -/
def JoinGraph.FetchesRows (g : JoinGraph) (D : Database V) (rows : Nat → List (Row V)) : Prop :=
  ∀ a, ∀ c ∈ g.connections a, rows c.target = (D (g.relation c.target)).filter
    fun r => ∃ r' ∈ rows a, ∀ q ∈ c.fields, r q.target = r' q.source

/-- Every stage selected the rows of its node and staged them, one stage after the other. -/
structure Execution.Fetches (e : Execution V) (g : JoinGraph) (rows : Nat → List (Row V))
    (ts : List Stage) : Prop where
  fetched : e.fetched = ts.map fun t => (g.relation t.node, rows t.node)
  tables : ∀ t ∈ ts, e.tables.lookup t.var =
    some ((rows t.node).map fun r => Row.staged r (t.columns.map ColumnDef.name))

/-- Executing one stage more, whose variable is new. -/
theorem Execution.Fetches.execute (h : e.Fetches g rows ts) (hnew : t.var ∉ ts.map Stage.var)
    (hrows : (t.fetch g).rows D params e.tables = rows t.node) :
    (Fetch.execute D params e (t.fetch g)).Fetches g rows (ts ++ [t]) where
  fetched := by
    show e.fetched ++ [(g.relation t.node, (t.fetch g).rows D params e.tables)] = _
    rw [h.fetched, hrows, List.map_append, List.map_singleton]
  tables t' ht' := by
    show List.lookup t'.var ((t.var, ((t.fetch g).rows D params e.tables).map
      fun r => Row.staged r (t.columns.map ColumnDef.name)) :: e.tables) = _
    rw [List.lookup_cons, hrows]
    rcases List.mem_append.1 ht' with ht' | ht'
    · have hne : t'.var ≠ t.var := fun heq => hnew (heq ▸ List.mem_map_of_mem ht')
      rw [beq_false_of_ne hne]
      exact h.tables t' ht'
    · obtain rfl := List.mem_singleton.1 ht'
      rw [beq_self_eq_true]

/-- A batch fetches the rows of the nodes stage by stage. -/
theorem Staged.fetches (h : Staged s config g ts) (hg : g.Wired)
    (hkey : s.primaryKey (g.relation root) = .ok key)
    (hroot : rows root =
      (D (g.relation root)).filter fun r => r.Matches params (keyFilters config key))
    (hrows : g.FetchesRows D rows) :
    ((Batch.ofStages g ts).execute D params).Fetches g rows ts := by
  induction h with
  | @start columns key' staged known =>
    obtain rfl := Except.ok.inj (hkey.symm.trans known)
    have hempty : Execution.Fetches {} g rows [] := ⟨rfl, fun t ht => absurd ht List.not_mem_nil⟩
    refine hempty.execute List.not_mem_nil ?_
    show (D (g.relation root)).filter _ = rows root
    rw [hroot]
    refine List.filter_congr fun r _ => ?_
    rw [Bool.eq_iff_iff, decide_eq_true_iff]
    exact Source.admits_key
  | @join ts t c keyed columns init previous mem new _ staged ih =>
    rw [Batch.execute_ofStages_append]
    refine ih.execute (freshName_not_mem _ _ _) ?_
    -- The columns that are joined are used, and so they are staged.
    have hsources : ∀ x ∈ c.fields.sources, x ∈ t.columns.map ColumnDef.name := fun x hx =>
      mem_columns_of_used (init.stagedColumns t previous) (hg.sources t.node c mem x hx)
    show (D (g.relation c.target)).filter _ = rows c.target
    rw [hrows t.node c mem]
    refine List.filter_congr fun r _ => ?_
    rw [Bool.eq_iff_iff, decide_eq_true_iff]
    exact Source.admits_joinSource (ih.tables t previous) hsources

/-- The fetches of a batch select the rows of the nodes, the first one those of the root. -/
theorem Batch.fetched_perm (h : (Batch.ofGraph s config g).result = .ok b) (hg : g.Wired)
    (hpos : 0 < g.size) (hall : ∀ n < g.size, g.Reaches n)
    (hkey : s.primaryKey (g.relation root) = .ok key)
    (hroot : rows root =
      (D (g.relation root)).filter fun r => r.Matches params (keyFilters config key))
    (hrows : g.FetchesRows D rows) :
    (b.execute D params).fetched[0]? = some (g.relation root, rows root) ∧
      (b.execute D params).fetched.Perm (g.ids.map fun n => (g.relation n, rows n)) := by
  obtain ⟨ts, hts, rfl, hnodes⟩ := Batch.of_ofGraph h
  have hfetches := hts.fetches hg hkey hroot hrows
  rw [hfetches.fetched]
  refine ⟨?_, ?_⟩
  · obtain ⟨t, key', ht, hnode, -, -⟩ := hts.first
    rw [List.getElem?_map, ht, Option.map_some, hnode]
  · have hmap : (ts.map fun t => (g.relation t.node, rows t.node)) =
        (ts.map Stage.node).map fun n => (g.relation n, rows n) := by
      rw [List.map_map]
      rfl
    rw [hmap]
    exact (hts.perm_nodes hg hpos hall hnodes).map _

end FetchPlan
