import FetchPlan.Proofs.Batch.Execution
import FetchPlan.Proofs.Batch.Executable
import FetchPlan.Proofs.JoinGraph.Tree

/-!
# What a batch selects

The stage of a node selects the rows that a label path of the node leads to (`RowsAlong`). In a
tree every node has one label path, so the batch of a tree selects the rows that its label paths
lead to (`selects_iff`).
-/

namespace FetchPlan

open JoinGraph

variable {V : Type}

/-- The rows that a label path leads to, from those rows of the relation `start` that satisfy
`first`: each step leads to the rows that agree on its fields. -/
inductive RowsAlong (D : Database V) (start : String) (first : Row V → Prop) :
    List Label → Row V → Prop
  | root {r : Row V} (mem : r ∈ D start) (holds : first r) : RowsAlong D start first [] r
  | step {p : List Label} {l : Label} {r r' : Row V} (init : RowsAlong D start first p r)
      (mem : r' ∈ D l.relation) (agree : ∀ q ∈ l.fields, r' q.target = r q.source) :
      RowsAlong D start first (l :: p) r'

variable {s : Schema} {config : Config} {g : JoinGraph} {ts : List Stage} {t : Stage}
  {key : List String} {D : Database V} {params : String → V} {rows : List (Row V)} {r : Row V}
  {b : Batch} {relation start : String} {first : Row V → Prop} {p : List Label} {l : Label}

theorem RowsAlong.mem (h : RowsAlong D start first p r) : r ∈ D (LabelPath.endsAt start p) := by
  cases h with
  | root mem _ => exact mem
  | step _ mem _ => exact mem

/-- The rows of a step are those that agree on its fields with a row before. -/
theorem rowsAlong_cons : RowsAlong D start first (l :: p) r ↔
    r ∈ D l.relation ∧ ∃ r', RowsAlong D start first p r' ∧
      ∀ q ∈ l.fields, r q.target = r' q.source := by
  constructor
  · intro h
    cases h with
    | step init mem agree => exact ⟨mem, _, init, agree⟩
  · intro h
    obtain ⟨hmem, r', hr', hagree⟩ := h
    exact .step hr' hmem hagree

/-- Maps of databases map the rows that paths lead to. -/
theorem RowsAlong.map {W : Type} {D' : Database W} {first' : Row W → Prop} (val : V → W)
    (hD : ∀ relation, ∀ r ∈ D relation, val ∘ r ∈ D' relation)
    (hfirst : ∀ r ∈ D start, first r → first' (val ∘ r)) (h : RowsAlong D start first p r) :
    RowsAlong D' start first' p (val ∘ r) := by
  induction h with
  | root mem holds => exact .root (hD _ _ mem) (hfirst _ mem holds)
  | step _ mem agree ih =>
    exact .step ih (hD _ _ mem) fun q hq => congrArg val (agree q hq)

/-- The stage selected the rows that a label path of its node leads to. -/
def Stage.Selected (g : JoinGraph) (D : Database V) (first : Row V → Prop) (t : Stage)
    (rows : List (Row V)) : Prop :=
  ∃ p, g.Trail p t.node ∧ ∀ r, r ∈ rows ↔ RowsAlong D (g.relation root) first p r

variable [DecidableEq V]

/-- Every stage selected its rows and staged them, and nothing else was selected. -/
structure Execution.Runs (e : Execution V) (g : JoinGraph) (D : Database V)
    (first : Row V → Prop) (ts : List Stage) : Prop where
  stages : ∀ t ∈ ts, ∃ rows, (g.relation t.node, rows) ∈ e.fetched ∧
    e.tables.lookup t.var = some (rows.map fun r => Row.staged r (t.columns.map ColumnDef.name)) ∧
    t.Selected g D first rows
  fetched : ∀ f ∈ e.fetched, ∃ t ∈ ts, f.1 = g.relation t.node ∧ t.Selected g D first f.2

/-- Executing one stage more, whose variable is new. -/
theorem Execution.Runs.execute {e : Execution V} (h : e.Runs g D first ts)
    (hnew : t.var ∉ ts.map Stage.var)
    (hrows : t.Selected g D first ((t.fetch g).rows D params e.tables)) :
    (Fetch.execute D params e (t.fetch g)).Runs g D first (ts ++ [t]) where
  stages t' ht' := by
    rcases List.mem_append.1 ht' with ht' | ht'
    · obtain ⟨rows, hmem, hlookup, hselected⟩ := h.stages t' ht'
      refine ⟨rows, List.mem_append_left _ hmem, ?_, hselected⟩
      have hne : t'.var ≠ t.var := fun heq => hnew (heq ▸ List.mem_map_of_mem ht')
      show List.lookup t'.var ((t.var, _) :: e.tables) = _
      rw [List.lookup_cons, beq_false_of_ne hne]
      exact hlookup
    · obtain rfl := List.mem_singleton.1 ht'
      refine ⟨_, List.mem_append_right _ List.mem_cons_self, ?_, hrows⟩
      show List.lookup t'.var ((t'.var, _) :: e.tables) = _
      rw [List.lookup_cons, beq_self_eq_true]
      rfl
  fetched f hf := by
    rcases List.mem_append.1 hf with hf | hf
    · obtain ⟨t', ht', hrest⟩ := h.fetched f hf
      exact ⟨t', List.mem_append_left _ ht', hrest⟩
    · rw [List.mem_singleton.1 hf]
      exact ⟨t, List.mem_append_right _ List.mem_cons_self, rfl, hrows⟩

/-- One stage more is one fetch more. -/
theorem Batch.execute_ofStages_append : (Batch.ofStages g (ts ++ [t])).execute D params =
    Fetch.execute D params ((Batch.ofStages g ts).execute D params) (t.fetch g) := by
  have hfetches : (Batch.ofStages g (ts ++ [t])).fetches =
      (Batch.ofStages g ts).fetches ++ [t.fetch g] := List.map_append
  rw [Batch.execute, hfetches, List.foldl_append]
  rfl

/-- A batch is run stage by stage. -/
theorem Staged.runs (h : Staged s config g ts) (hg : g.Wired)
    (hkey : s.primaryKey (g.relation root) = .ok key) :
    ((Batch.ofStages g ts).execute D params).Runs g D
      (Row.Matches · params (Emitting.keyFilters config key)) ts := by
  induction h with
  | @start columns key' staged known =>
    obtain rfl := Except.ok.inj (hkey.symm.trans known)
    have hempty : Execution.Runs {} g D
        (Row.Matches · params (Emitting.keyFilters config key)) [] :=
      ⟨fun t ht => absurd ht List.not_mem_nil, fun f hf => absurd hf List.not_mem_nil⟩
    refine hempty.execute List.not_mem_nil ⟨[], .root, ?_⟩
    intro r
    rw [Fetch.rows, List.mem_filter, Stage.fetch, Source.admits_key]
    constructor
    · intro h
      exact .root h.1 h.2
    · intro h
      cases h with
      | root mem holds => exact ⟨mem, holds⟩
  | @join ts t c keyed columns init previous mem new _ staged ih =>
    rw [Batch.execute_ofStages_append]
    refine ih.execute (freshName_not_mem _ _ _) ?_
    obtain ⟨rows, -, hlookup, p, hp, hrows⟩ := ih.stages t previous
    refine ⟨_, hp.step mem, ?_⟩
    intro r
    have hsources : ∀ x ∈ c.fields.sources, x ∈ t.columns.map ColumnDef.name := fun x hx =>
      mem_columns_of_used (init.stagedColumns t previous) (hg.sources t.node c mem x hx)
    rw [Fetch.rows, List.mem_filter, Stage.fetch, Source.admits_joinSource hlookup hsources,
      rowsAlong_cons]
    refine and_congr_right fun _ => exists_congr fun r' => and_congr_left ?_
    intro _
    exact hrows r'

/-- The batch of a tree selects the rows that its label paths lead to. -/
theorem Batch.selects_iff (hg : g.Arborescent) (hkey : s.primaryKey (g.relation root) = .ok key)
    (h : (Batch.ofGraph s config g).result = .ok b) :
    b.Selects D params relation r ↔ ∃ p n, g.Trail p n ∧ g.relation n = relation ∧
      RowsAlong D (g.relation root) (Row.Matches · params (Emitting.keyFilters config key)) p r := by
  obtain ⟨ts, hts, rfl, hnodes⟩ := Batch.of_ofGraph h
  have hruns : ((Batch.ofStages g ts).execute D params).Runs g D
      (Row.Matches · params (Emitting.keyFilters config key)) ts := hts.runs hg.wired hkey
  constructor
  · intro h
    obtain ⟨rows, hmem, hr⟩ := h
    obtain ⟨t, -, hrelation, p, hp, hrows⟩ := hruns.fetched _ hmem
    exact ⟨p, t.node, hp, hrelation.symm, (hrows r).1 hr⟩
  · intro h
    obtain ⟨p, n, hp, rfl, hr⟩ := h
    obtain ⟨t, ht, rfl⟩ := List.mem_map.1 ((hnodes n).2 hp.reaches)
    obtain ⟨rows, hmem, -, q, hq, hrows⟩ := hruns.stages t ht
    obtain rfl := hg.trail_unique hq hp
    exact ⟨rows, hmem, (hrows r).2 hr⟩

end FetchPlan
