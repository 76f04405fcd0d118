import FetchPlan.Proofs.Batch.Staged
import FetchPlan.Proofs.Planned

/-!
# Plans can be executed in order

A batch is executable if every fetch fills the table variable declared for it with columns of its
relation, the first one by the key of the root, and each later one by a join with rows that are
staged by then, on columns that both sides have (`Executable`). Every batch that is planned is
(`Planner.executable_of_plan`).
-/

namespace FetchPlan

open Emitting JoinGraph

namespace Batch

/-- The columns of a fetch are staged as they are declared: there is at least one, they are in
order, and they are columns of the relation with their types. -/
structure ColumnsDeclared (s : Schema) (d : Declaration) (f : Fetch) : Prop where
  target : f.target = d.var
  nonempty : f.columns ≠ []
  ordered : f.columns.Pairwise fun a b => compare a b = .lt
  names : d.columns.map ColumnDef.name = f.columns
  types : ∀ c ∈ d.columns, s.sqlType f.relation c.name = .ok c.type

/-- The fetch joins rows of an earlier fetch on columns that the two have. Distinct rows are those
of the columns that are joined on. -/
structure Joins (earlier f : Fetch) (previous : Previous) (on : List (String × String)) : Prop where
  source : f.source = .join previous on
  reads : previous.name = earlier.target
  nonempty : on ≠ []
  current : ∀ p ∈ on, p.1 ∈ f.columns
  columns : ∀ p ∈ on, p.2 ∈ earlier.columns
  distinct : ∀ name columns, previous = .distinct name columns →
    columns.Nodup ∧ ∀ x, x ∈ columns ↔ ∃ p ∈ on, p.2 = x

/-- The batch can be executed in order: its table variables are declared, each once, the first
fetch is by the primary key of `relation`, and each later one joins an earlier one. -/
structure Executable (s : Schema) (config : Config) (relation : String) (b : Batch) : Prop where
  length : b.declarations.length = b.fetches.length
  nodup : (b.declarations.map Declaration.var).Nodup
  declared : ∀ (i : Nat) d f, b.declarations[i]? = some d → b.fetches[i]? = some f → ColumnsDeclared s d f
  first : ∃ f key, b.fetches[0]? = some f ∧ f.relation = relation ∧
    s.primaryKey relation = .ok key ∧ f.source = .key
      (key.zipIdx.map fun (column, i) => ⟨column, config.parameterStem ++ toString i⟩)
  later : ∀ (i : Nat) f, 0 < i → b.fetches[i]? = some f →
    ∃ (j : Nat) (earlier : Fetch) (previous : Previous) (on : List (String × String)),
      j < i ∧ b.fetches[j]? = some earlier ∧ Joins earlier f previous on

end Batch

variable {s : Schema} {config : Config} {g : JoinGraph} {ts : List Stage} {t : Stage} {n i : Nat}
  {c : Connection} {fields : FieldSet} {x : String}

/-! ## The staged fields -/

/-- All used fields are staged. -/
theorem mem_stagedFields (h : g.stagedFields s n = .ok fields) (hx : x ∈ g.used n) :
    x ∈ fields := by
  rw [stagedFields] at h
  split at h
  · obtain ⟨key, -, h⟩ := bind_eq_ok.1 h
    obtain rfl := pure_eq_ok.1 h
    exact OrderedSet.mem_insertAll.2 (Or.inr hx)
  · obtain rfl := pure_eq_ok.1 h
    exact hx

/-- All used fields are columns of the table variable. -/
theorem mem_columns_of_used {columns : List ColumnDef} (h : stagedColumns s g n = .ok columns)
    (hx : x ∈ g.used n) : x ∈ columns.map ColumnDef.name := by
  obtain ⟨fields, hfields, hnames, -⟩ := stagedColumns_eq_ok h
  rw [hnames]
  exact mem_stagedFields hfields hx

/-- Something is always staged: a leaf stages its key, another node what it is joined on. -/
theorem exists_mem_stagedFields (hg : g.Wired) (hj : g.Joining)
    (hkey : ∀ relation key, s.primaryKey relation = .ok key → key ≠ [])
    (h : g.stagedFields s n = .ok fields) : ∃ x, x ∈ fields := by
  by_cases hleaf : g.isLeaf n
  · rw [stagedFields, if_pos hleaf] at h
    obtain ⟨key, hk, h⟩ := bind_eq_ok.1 h
    obtain rfl := pure_eq_ok.1 h
    obtain ⟨x, hx⟩ := List.exists_mem_of_ne_nil key (hkey _ _ hk)
    exact ⟨x, OrderedSet.mem_insertAll.2 (Or.inl hx)⟩
  · rw [isLeaf, List.isEmpty_iff] at hleaf
    obtain ⟨c, hc⟩ := List.exists_mem_of_ne_nil _ hleaf
    obtain ⟨p, hp⟩ := hj n c hc
    have hx := hg.sources n c hc _ (FieldPairs.mem_sources.2 ⟨p, hp, rfl⟩)
    exact ⟨p.source, mem_stagedFields h hx⟩

/-! ## The stages -/

theorem Staged.stagedColumns (h : Staged s config g ts) :
    ∀ t ∈ ts, stagedColumns s g t.node = .ok t.columns := by
  induction h with
  | start staged _ =>
    intro t ht
    rw [List.mem_singleton.1 ht]
    exact staged
  | join _ _ _ _ _ staged ih =>
    intro t ht
    rcases List.mem_append.1 ht with ht | ht
    · exact ih t ht
    · rw [List.mem_singleton.1 ht]
      exact staged

theorem Staged.nodup_vars (h : Staged s config g ts) : (ts.map Stage.var).Nodup := by
  induction h with
  | start _ _ => exact List.nodup_singleton _
  | join _ _ _ _ _ _ ih =>
    rw [List.map_append, List.map_singleton]
    exact ih.append (List.nodup_singleton _)
      (List.disjoint_singleton.2 (freshName_not_mem _ _ _))

private theorem getElem?_append_some {α : Type} {l l' : List α} {i : Nat} {a : α}
    (h : l[i]? = some a) : (l ++ l')[i]? = some a := by
  rw [List.getElem?_append_left (List.getElem?_eq_some_iff.1 h).1]
  exact h

/-- The first stage is the root. -/
theorem Staged.first (h : Staged s config g ts) :
    ∃ (t : Stage) (key : List String), ts[0]? = some t ∧ t.node = root ∧
      s.primaryKey (g.relation root) = .ok key ∧ t.source = .key (keyFilters config key) := by
  induction h with
  | start _ known => exact ⟨_, _, rfl, rfl, known, rfl⟩
  | join _ _ _ _ _ _ ih =>
    obtain ⟨t, key, ht, hrest⟩ := ih
    exact ⟨t, key, getElem?_append_some ht, hrest⟩

/-- Each later stage joins an earlier one over a connection. -/
theorem Staged.later (h : Staged s config g ts) (hi : 0 < i) (ht : ts[i]? = some t) :
    ∃ (j : Nat) (t' : Stage) (c : Connection) (keyed : Bool), j < i ∧ ts[j]? = some t' ∧
      c ∈ g.connections t'.node ∧ c.target = t.node ∧
      t.source = joinSource t'.var c.fields keyed := by
  induction h with
  | start _ _ =>
    rw [List.getElem?_singleton, if_neg (Nat.ne_of_gt hi)] at ht
    exact absurd ht (by simp)
  | @join ts t' c keyed columns _ previous mem _ _ _ ih =>
    by_cases hlt : i < ts.length
    · rw [List.getElem?_append_left hlt] at ht
      obtain ⟨j, t'', c', keyed', hj, ht'', hrest⟩ := ih ht
      exact ⟨j, t'', c', keyed', hj, getElem?_append_some ht'', hrest⟩
    · rw [List.getElem?_append_right (by omega), List.getElem?_singleton] at ht
      split at ht
      · next heq =>
        obtain ⟨j, hj⟩ := List.getElem?_of_mem previous
        have hjlt := (List.getElem?_eq_some_iff.1 hj).1
        refine ⟨j, t', c, keyed, by omega, getElem?_append_some hj, mem, ?_, ?_⟩
        · rw [← Option.some.inj ht]
        · rw [← Option.some.inj ht]
      · exact absurd ht (by simp)

/-- A stage over a connection joins on columns that are staged at both ends. -/
theorem joins_of_joinSource {t' : Stage} {keyed : Bool} (hg : g.Wired) (hj : g.Joining)
    (hc : c ∈ g.connections t'.node) (htarget : c.target = t.node)
    (hcols' : Emitting.stagedColumns s g t'.node = .ok t'.columns)
    (hcols : Emitting.stagedColumns s g t.node = .ok t.columns)
    (hsource : t.source = joinSource t'.var c.fields keyed) :
    ∃ previous on, Batch.Joins (t'.fetch g) (t.fetch g) previous on := by
  refine ⟨_, _, hsource, ?_, ?_, ?_, ?_, ?_⟩
  · split
    · rfl
    · rfl
  · obtain ⟨p, hp⟩ := hj t'.node c hc
    exact List.ne_nil_of_mem (List.mem_map_of_mem hp)
  · intro p hp
    obtain ⟨q, hq, rfl⟩ := List.mem_map.1 hp
    have hx := hg.targets t'.node c hc _ (FieldPairs.mem_targets.2 ⟨q, hq, rfl⟩)
    exact mem_columns_of_used hcols (htarget ▸ hx)
  · intro p hp
    obtain ⟨q, hq, rfl⟩ := List.mem_map.1 hp
    have hx := hg.sources t'.node c hc _ (FieldPairs.mem_sources.2 ⟨q, hq, rfl⟩)
    exact mem_columns_of_used hcols' hx
  · intro name columns heq
    split at heq
    · obtain ⟨-, rfl⟩ := Previous.distinct.inj heq
      refine ⟨OrderedSet.nodup_toList _, ?_⟩
      intro x
      rw [OrderedSet.mem_toList, FieldPairs.mem_sources]
      constructor
      · intro h
        obtain ⟨q, hq, rfl⟩ := h
        exact ⟨_, List.mem_map_of_mem hq, rfl⟩
      · intro h
        obtain ⟨p, hp, rfl⟩ := h
        obtain ⟨q, hq, rfl⟩ := List.mem_map.1 hp
        exact ⟨q, hq, rfl⟩
    · exact absurd heq (by simp)

/-- The batch of a well-formed graph is executable. -/
theorem Batch.executable_ofStages (hg : g.Wired) (hj : g.Joining)
    (hkey : ∀ relation key, s.primaryKey relation = .ok key → key ≠ [])
    (h : Staged s config g ts) :
    (Batch.ofStages g ts).Executable s config (g.relation root) where
  length := by rw [ofStages, List.length_map, List.length_map]
  nodup := by
    rw [ofStages, List.map_map]
    exact h.nodup_vars
  declared i d f hd hf := by
    rw [ofStages, List.getElem?_map, Option.map_eq_some_iff] at hd hf
    obtain ⟨t, ht, rfl⟩ := hd
    obtain ⟨t', ht', rfl⟩ := hf
    obtain rfl := Option.some.inj (ht.symm.trans ht')
    obtain ⟨fields, hfields, hnames, htypes⟩ :=
      stagedColumns_eq_ok (h.stagedColumns t (List.mem_of_getElem? ht))
    refine ⟨rfl, ?_, ?_, rfl, htypes⟩
    · obtain ⟨x, hx⟩ := exists_mem_stagedFields hg hj hkey hfields
      show t.columns.map ColumnDef.name ≠ []
      rw [hnames]
      exact List.ne_nil_of_mem hx
    · show (t.columns.map ColumnDef.name).Pairwise fun a b => compare a b = .lt
      rw [hnames]
      exact fields.ordered
  first := by
    obtain ⟨t, key, ht, hnode, hk, hsource⟩ := h.first
    refine ⟨t.fetch g, key, ?_, ?_, hk, hsource⟩
    · rw [ofStages, List.getElem?_map, ht]
      rfl
    · rw [Stage.fetch, hnode]
  later i f hi hf := by
    rw [ofStages, List.getElem?_map, Option.map_eq_some_iff] at hf
    obtain ⟨t, ht, rfl⟩ := hf
    obtain ⟨j, t', c, keyed, hji, ht', hc, htarget, hsource⟩ := h.later hi ht
    obtain ⟨previous, on, hjoins⟩ := joins_of_joinSource hg hj hc htarget
      (h.stagedColumns t' (List.mem_of_getElem? ht')) (h.stagedColumns t (List.mem_of_getElem? ht))
      hsource
    refine ⟨j, t'.fetch g, previous, on, hji, ?_, hjoins⟩
    rw [ofStages, List.getElem?_map, ht']
    rfl

namespace Planner

variable {p : Planner} {query : Expr} {b : Batch} {rs : List FetchPlan.Relation}

/-- Every plan over a verified schema is executable, for every configuration: its first fetch is
by the primary key of the relation that the query starts at. -/
theorem executable_of_plan (hs : Schema.ofRelations rs = .ok p.schema)
    (h : (p.plan query).result = .ok b) :
    ∃ flow relation, query.toPath = .ok flow ∧ flow.path.relation? = some relation ∧
      b.Executable p.schema p.config relation := by
  obtain ⟨flow, g, hflow, hg, hb⟩ := of_plan h
  obtain ⟨hwired, hjoining, hroot⟩ := sound_planned hs hg
  obtain ⟨ts, hts, rfl, -⟩ := Batch.of_ofGraph hb
  refine ⟨flow, _, hflow, hroot, Batch.executable_ofStages hwired hjoining ?_ hts⟩
  intro relation key hk
  exact (Schema.key_of_ofRelations hs hk).1

theorem executable_siblingOrders :
    Schema.ofRelations shopRelations = .ok shop ∧ ∃ b flow relation,
      (Planner.plan ⟨shop, {}⟩ siblingOrders).result = .ok b ∧
        siblingOrders.toPath = .ok flow ∧ flow.path.relation? = some relation ∧
        b.Executable shop {} relation := by
  have hok : (Planner.plan ⟨shop, {}⟩ siblingOrders).result.isOk = true := by decide +kernel
  cases hplan : (Planner.plan ⟨shop, {}⟩ siblingOrders).result with
  | error e =>
    rw [hplan] at hok
    exact absurd hok (by simp [Except.isOk, Except.toBool])
  | ok b =>
    obtain ⟨flow, relation, hrest⟩ := executable_of_plan ofRelations_shop hplan
    exact ⟨ofRelations_shop, b, flow, relation, rfl, hrest⟩

end Planner
end FetchPlan
