import FetchPlan.Proofs.Batch.FreshName
import FetchPlan.Proofs.JoinGraph.Reaches
import FetchPlan.Proofs.Yields

/-!
# How a batch is emitted

A batch is a list of stages, each of them a node with its table variable, its columns and the
source of its rows. `Staged` tells how such a list comes about: the root first, and then one node
after the other, each joined to one that is staged already. Every batch of a graph is of this kind
and stages exactly the nodes that are reached (`of_ofGraph`).
-/

namespace FetchPlan

open Emitting JoinGraph

/-- A node with the table variable its rows are staged in. -/
structure Stage where
  node : Nat
  var : String
  columns : List ColumnDef
  source : Source

/-- The declaration of the table variable. -/
def Stage.declaration (t : Stage) : Declaration := { var := t.var, columns := t.columns }

/-- The statement that fills the table variable. -/
def Stage.fetch (g : JoinGraph) (t : Stage) : Fetch where
  target := t.var
  columns := t.columns.map ColumnDef.name
  relation := g.relation t.node
  source := t.source

/-- The batch of a list of stages. -/
def Batch.ofStages (g : JoinGraph) (ts : List Stage) : Batch where
  declarations := ts.map Stage.declaration
  fetches := ts.map (Stage.fetch g)

/-- The lists of stages that are emitted for a graph. -/
inductive Staged (s : Schema) (config : Config) (g : JoinGraph) : List Stage → Prop
  /-- The root is fetched by its primary key. -/
  | start {columns : List ColumnDef} {key : List String}
      (staged : stagedColumns s g root = .ok columns)
      (known : s.primaryKey (g.relation root) = .ok key) :
      Staged s config g
        [⟨root, freshName config.variableStem [] (g.relation root), columns,
          .key (keyFilters config key)⟩]
  /-- A node is fetched over a connection of one that is staged. -/
  | join {ts : List Stage} {t : Stage} {c : Connection} {keyed : Bool} {columns : List ColumnDef}
      (init : Staged s config g ts) (previous : t ∈ ts) (mem : c ∈ g.connections t.node)
      (new : c.target ∉ ts.map Stage.node) (checked : keyedOnOwner s g t.node c = .ok keyed)
      (staged : stagedColumns s g c.target = .ok columns) :
      Staged s config g (ts ++
        [⟨c.target, freshName config.variableStem (ts.map Stage.var) (g.relation c.target), columns,
          joinSource t.var c.fields keyed⟩])

variable {s : Schema} {config : Config} {g : JoinGraph} {ts : List Stage} {t : Stage} {n : Nat}
  {columns : List ColumnDef}

/-- The stages of an emission. -/
structure Emission.Holds (e : Emission) (g : JoinGraph) (ts : List Stage) : Prop where
  vars : e.vars = ts.map fun t => (t.node, t.var)
  declarations : e.declarations = ts.map Stage.declaration
  fetches : e.fetches = ts.map (Stage.fetch g)

/-- The emission with one more node declared and fetched. -/
def Emission.add (e : Emission) (g : JoinGraph) (t : Stage) : Emission where
  vars := e.vars ++ [(t.node, t.var)]
  declarations := e.declarations ++ [t.declaration]
  fetches := e.fetches ++ [t.fetch g]

/-- The stage of a node under a name that is not taken. -/
def Emission.newStage (e : Emission) (config : Config) (g : JoinGraph) (id : Nat)
    (columns : List ColumnDef) (source : Source) : Stage :=
  ⟨id, freshName config.variableStem (e.vars.map Prod.snd) (g.relation id), columns, source⟩

theorem Emission.Holds.add {e : Emission} (h : e.Holds g ts) : (e.add g t).Holds g (ts ++ [t]) where
  vars := by simp only [Emission.add, h.vars, List.map_append, List.map_singleton]
  declarations := by simp only [Emission.add, h.declarations, List.map_append, List.map_singleton]
  fetches := by simp only [Emission.add, h.fetches, List.map_append, List.map_singleton]

theorem Emission.Holds.newStage {e : Emission} {source : Source} (h : e.Holds g ts) :
    e.newStage config g n columns source =
      ⟨n, freshName config.variableStem (ts.map Stage.var) (g.relation n), columns, source⟩ := by
  rw [Emission.newStage, h.vars, List.map_map]
  rfl

/-- The table variable of a node that is staged is that of a stage. -/
theorem Emission.Holds.lookup {e : Emission} {owner : Nat} (he : e.Holds g ts)
    (howner : owner ∈ ts.map Stage.node) :
    ∃ t ∈ ts, e.vars.lookup owner = some t.var ∧ t.node = owner := by
  rw [he.vars]
  clear he
  induction ts with
  | nil => exact absurd howner List.not_mem_nil
  | cons t ts ih =>
    rw [List.map_cons, List.lookup_cons]
    by_cases heq : owner = t.node
    · refine ⟨t, List.mem_cons_self, ?_, heq.symm⟩
      rw [heq, beq_self_eq_true]
    · obtain ⟨t', ht', hvar, hnode⟩ := ih ((List.mem_cons.1 howner).resolve_left heq)
      refine ⟨t', List.mem_cons_of_mem t ht', ?_, hnode⟩
      rw [← hvar, beq_false_of_ne heq]

namespace Emitting

variable {e e' : Emission} {owner : Nat} {c : Connection} {u : Unit}

/-! ## Single operations -/

/-- Columns are made of their names and the types of these. -/
theorem mapM_columns {type : String → Except Error String} {names : List String}
    (h : names.mapM (fun name => return (⟨name, ← type name⟩ : ColumnDef)) = .ok columns) :
    columns.map ColumnDef.name = names ∧ ∀ c ∈ columns, type c.name = .ok c.type := by
  induction names generalizing columns with
  | nil =>
    rw [List.mapM_nil] at h
    obtain rfl := pure_eq_ok.1 h
    exact ⟨rfl, fun c hc => absurd hc List.not_mem_nil⟩
  | cons name names ih =>
    rw [List.mapM_cons] at h
    obtain ⟨c, hc, h⟩ := bind_eq_ok.1 h
    obtain ⟨cs, hcs, h⟩ := bind_eq_ok.1 h
    obtain rfl := pure_eq_ok.1 h
    obtain ⟨sqlType, htype, hc⟩ := bind_eq_ok.1 hc
    obtain rfl := pure_eq_ok.1 hc
    obtain ⟨hnames, htypes⟩ := ih hcs
    exact ⟨by rw [List.map_cons, hnames], List.forall_mem_cons.2 ⟨htype, htypes⟩⟩

/-- The staged columns are the staged fields with their types. -/
theorem stagedColumns_eq_ok (h : stagedColumns s g n = .ok columns) :
    ∃ fields, g.stagedFields s n = .ok fields ∧ columns.map ColumnDef.name = fields.toList ∧
      ∀ c ∈ columns, s.sqlType (g.relation n) c.name = .ok c.type := by
  obtain ⟨fields, hfields, h⟩ := bind_eq_ok.1 h
  exact ⟨fields, hfields, mapM_columns h⟩

theorem yields_declare {var : String} : Yields (declare s config g n) e var e' ↔
    ∃ columns, stagedColumns s g n = .ok columns ∧
      var = freshName config.variableStem (e.vars.map Prod.snd) (g.relation n) ∧
      e' = { e with vars := e.vars ++ [(n, var)]
                    declarations := e.declarations ++ [{ var, columns }] } := by
  constructor
  · intro h
    obtain ⟨columns, hcolumns, h⟩ := yields_liftExcept_bind.1 h
    have h := yields_get_bind.1 h
    obtain ⟨_, -, h⟩ := yields_lift_bind.1 h
    have h := yields_modify_bind.1 h
    obtain ⟨rfl, rfl⟩ := yields_pure.1 h
    exact ⟨columns, hcolumns, rfl, rfl⟩
  · rintro ⟨columns, hcolumns, rfl, rfl⟩
    refine yields_liftExcept_bind.2 ⟨columns, hcolumns, ?_⟩
    refine yields_get_bind.2 (yields_lift_bind.2 ⟨(), rfl, ?_⟩)
    exact yields_modify_bind.2 (yields_pure.2 ⟨rfl, rfl⟩)

theorem yields_stage {target : String} {source : Source} :
    Yields (stage s g n target source) e u e' ↔ ∃ fields, g.stagedFields s n = .ok fields ∧
      e' = { e with fetches := e.fetches ++
        [{ target, columns := fields.toList, relation := g.relation n, source }] } :=
  yields_liftExcept_bind.trans (exists_congr fun _ => and_congr_right fun _ => yields_modify)

/-- Declaring a table variable and filling it adds one stage. -/
theorem yields_declare_stage {source : Source} :
    (∃ var e₁, Yields (declare s config g n) e var e₁ ∧
        Yields (stage s g n var source) e₁ u e') ↔
      ∃ columns, stagedColumns s g n = .ok columns ∧
        e' = e.add g (e.newStage config g n columns source) := by
  constructor
  · rintro ⟨var, e₁, hdeclare, hstage⟩
    obtain ⟨columns, hcolumns, rfl, rfl⟩ := yields_declare.1 hdeclare
    obtain ⟨fields, hfields, rfl⟩ := yields_stage.1 hstage
    obtain ⟨fields', hfields', hnames, -⟩ := stagedColumns_eq_ok hcolumns
    obtain rfl : fields = fields' := Except.ok.inj (hfields.symm.trans hfields')
    refine ⟨columns, hcolumns, ?_⟩
    rw [← hnames]
    rfl
  · rintro ⟨columns, hcolumns, rfl⟩
    obtain ⟨fields, hfields, hnames, -⟩ := stagedColumns_eq_ok hcolumns
    refine ⟨_, _, yields_declare.2 ⟨columns, hcolumns, rfl, rfl⟩,
      yields_stage.2 ⟨fields, hfields, ?_⟩⟩
    rw [← hnames]
    rfl

theorem yields_fetchRoot : Yields (fetchRoot s config g) e u e' ↔
    ∃ key columns, s.primaryKey (g.relation root) = .ok key ∧
      stagedColumns s g root = .ok columns ∧
      e' = e.add g (e.newStage config g root columns (.key (keyFilters config key))) := by
  constructor
  · intro h
    obtain ⟨var, e₁, hdeclare, h⟩ := yields_bind.1 h
    obtain ⟨key, hkey, hstage⟩ := yields_liftExcept_bind.1 h
    obtain ⟨columns, hadd⟩ := yields_declare_stage.1 ⟨var, e₁, hdeclare, hstage⟩
    exact ⟨key, columns, hkey, hadd⟩
  · rintro ⟨key, columns, hkey, hadd⟩
    obtain ⟨var, e₁, hdeclare, hstage⟩ := yields_declare_stage.2 ⟨columns, hadd⟩
    exact yields_bind.2 ⟨var, e₁, hdeclare, yields_liftExcept_bind.2 ⟨key, hkey, hstage⟩⟩

/-- A passage to a node that is staged already changes nothing. -/
theorem yields_pass_again : Yields (pass s config g ⟨owner, c, false⟩) e u e' ↔
    (∃ keyed, keyedOnOwner s g owner c = .ok keyed) ∧ e' = e := by
  constructor
  · intro h
    obtain ⟨keyed, hkeyed, h⟩ := yields_liftExcept_bind.1 h
    exact ⟨⟨keyed, hkeyed⟩, (yields_lift.1 h).2⟩
  · rintro ⟨⟨keyed, hkeyed⟩, rfl⟩
    exact yields_liftExcept_bind.2 ⟨keyed, hkeyed, yields_lift.2 ⟨rfl, rfl⟩⟩

/-- A passage to a new node stages it, joined to the table variable of the connection's owner. -/
theorem yields_pass_first : Yields (pass s config g ⟨owner, c, true⟩) e u e' ↔
    ∃ keyed columns, keyedOnOwner s g owner c = .ok keyed ∧
      stagedColumns s g c.target = .ok columns ∧
      e' = e.add g (e.newStage config g c.target columns
        (joinSource ((e.vars.lookup owner).getD "") c.fields keyed)) := by
  constructor
  · intro h
    obtain ⟨keyed, hkeyed, h⟩ := yields_liftExcept_bind.1 h
    obtain ⟨columns, hadd⟩ := yields_declare_stage.1 (yields_bind.1 (yields_get_bind.1 h))
    exact ⟨keyed, columns, hkeyed, hadd⟩
  · rintro ⟨keyed, columns, hkeyed, hadd⟩
    refine yields_liftExcept_bind.2 ⟨keyed, hkeyed, yields_get_bind.2 (yields_bind.2 ?_)⟩
    exact yields_declare_stage.2 ⟨columns, hadd⟩

/-! ## Stages that are added -/

theorem staged_of_fetchRoot (h : Yields (fetchRoot s config g) {} u e) :
    ∃ ts, Staged s config g ts ∧ e.Holds g ts ∧ ts.map Stage.node = [root] := by
  obtain ⟨key, columns, hkey, hcolumns, rfl⟩ := yields_fetchRoot.1 h
  have hempty : Emission.Holds {} g [] := ⟨rfl, rfl, rfl⟩
  exact ⟨_, .start hcolumns hkey, hempty.add, rfl⟩

/-- A passage to a new node stages it, joined to the owner of the connection. -/
theorem staged_of_pass (hts : Staged s config g ts) (he : e.Holds g ts)
    (howner : owner ∈ ts.map Stage.node) (hc : c ∈ g.connections owner)
    (hnew : c.target ∉ ts.map Stage.node) (h : Yields (pass s config g ⟨owner, c, true⟩) e u e') :
    ∃ t, Staged s config g (ts ++ [t]) ∧ e'.Holds g (ts ++ [t]) ∧ t.node = c.target := by
  obtain ⟨keyed, columns, hkeyed, hcolumns, rfl⟩ := yields_pass_first.1 h
  obtain ⟨t, ht, hvar, rfl⟩ := he.lookup howner
  refine ⟨_, ?_, he.add, rfl⟩
  rw [he.newStage, hvar]
  exact .join hts ht hc hnew hkeyed hcolumns

/-! ## The tour -/

/-- What is left of a tour stages the nodes that are left. -/
theorem staged_of_tourFrom {pending : List (Nat × Connection)} {seen : List Nat}
    (hts : Staged s config g ts) (he : e.Holds g ts)
    (hseen : ∀ n, n ∈ seen ↔ n ∈ ts.map Stage.node)
    (hpending : ∀ p ∈ pending, p.1 ∈ seen ∧ p.2 ∈ g.connections p.1)
    (hclosed : ∀ n ∈ seen, ∀ c ∈ g.connections n, c.target ∈ seen ∨ (n, c) ∈ pending)
    (h : Yields ((g.tourFrom pending seen).forM (pass s config g)) e u e') :
    ∃ ts', Staged s config g ts' ∧ e'.Holds g ts' ∧
      (∀ n ∈ ts.map Stage.node, n ∈ ts'.map Stage.node) ∧
      ∀ n ∈ ts'.map Stage.node, ∀ c ∈ g.connections n, c.target ∈ ts'.map Stage.node := by
  induction pending, seen using tourFrom.induct g generalizing e ts with
  | case1 seen =>
    rw [tourFrom] at h
    obtain ⟨-, rfl⟩ := yields_pure.1 h
    refine ⟨ts, hts, he, fun n hn => hn, ?_⟩
    intro n hn c hc
    rcases hclosed n ((hseen n).2 hn) c hc with hin | hin
    · exact (hseen _).1 hin
    · exact absurd hin List.not_mem_nil
  | case2 owner c pending seen hmem ih =>
    rw [tourFrom, if_pos hmem] at h
    obtain ⟨_, _, hpass, hrest⟩ := yields_bind.1 h
    obtain ⟨-, rfl⟩ := yields_pass_again.1 hpass
    refine ih hts he hseen (fun p hp => hpending p (List.mem_cons_of_mem _ hp)) ?_ hrest
    intro n hn d hd
    rcases hclosed n hn d hd with hin | hin
    · exact Or.inl hin
    · rcases List.mem_cons.1 hin with heq | hin
      · obtain ⟨rfl, rfl⟩ := Prod.mk.inj heq
        exact Or.inl hmem
      · exact Or.inr hin
  | case3 owner c pending seen hmem ih =>
    rw [tourFrom, if_neg hmem] at h
    obtain ⟨_, _, hpass, hrest⟩ := yields_bind.1 h
    obtain ⟨howner, hc⟩ := hpending (owner, c) List.mem_cons_self
    obtain ⟨t, hts', he', hnode⟩ := staged_of_pass hts he ((hseen owner).1 howner) hc
      (fun hin => hmem ((hseen _).2 hin)) hpass
    have hnodes : (ts ++ [t]).map Stage.node = ts.map Stage.node ++ [c.target] := by
      rw [List.map_append, List.map_singleton, hnode]
    have hseen' : ∀ n, n ∈ c.target :: seen ↔ n ∈ (ts ++ [t]).map Stage.node := by
      intro n
      rw [hnodes, List.mem_cons, List.mem_append, List.mem_singleton, hseen n]
      exact or_comm
    have hpending' : ∀ p ∈ (g.connections c.target).map (c.target, ·) ++ pending,
        p.1 ∈ c.target :: seen ∧ p.2 ∈ g.connections p.1 := by
      intro p hp
      rcases List.mem_append.1 hp with hp | hp
      · obtain ⟨d, hd, rfl⟩ := List.mem_map.1 hp
        exact ⟨List.mem_cons_self, hd⟩
      · obtain ⟨hin, hp⟩ := hpending p (List.mem_cons_of_mem _ hp)
        exact ⟨List.mem_cons_of_mem _ hin, hp⟩
    have hclosed' : ∀ n ∈ c.target :: seen, ∀ d ∈ g.connections n, d.target ∈ c.target :: seen ∨
        (n, d) ∈ (g.connections c.target).map (c.target, ·) ++ pending := by
      intro n hn d hd
      rcases List.mem_cons.1 hn with rfl | hn
      · exact Or.inr (List.mem_append_left _ (List.mem_map_of_mem hd))
      · rcases hclosed n hn d hd with hin | hin
        · exact Or.inl (List.mem_cons_of_mem _ hin)
        · rcases List.mem_cons.1 hin with heq | hin
          · obtain ⟨rfl, rfl⟩ := Prod.mk.inj heq
            exact Or.inl List.mem_cons_self
          · exact Or.inr (List.mem_append_right _ hin)
    obtain ⟨ts'', hts'', he'', hsub, hclosed''⟩ := ih hts' he' hseen' hpending' hclosed' hrest
    refine ⟨ts'', hts'', he'', fun n hn => hsub n ?_, hclosed''⟩
    rw [hnodes]
    exact List.mem_append_left _ hn

end Emitting

/-! ## Batches -/

theorem Staged.reaches (h : Staged s config g ts) : ∀ n ∈ ts.map Stage.node, g.Reaches n := by
  induction h with
  | start _ _ =>
    intro n hn
    rw [List.map_singleton, List.mem_singleton] at hn
    rw [hn]
    exact reaches_root
  | @join ts t c _ _ _ previous mem _ _ _ ih =>
    intro n hn
    rw [List.map_append, List.map_singleton] at hn
    rcases List.mem_append.1 hn with hn | hn
    · exact ih n hn
    · rw [List.mem_singleton.1 hn]
      exact (ih t.node (List.mem_map_of_mem previous)).step mem

theorem Staged.nodup_nodes (h : Staged s config g ts) : (ts.map Stage.node).Nodup := by
  induction h with
  | start _ _ => exact List.nodup_singleton _
  | join _ _ _ new _ _ ih =>
    rw [List.map_append, List.map_singleton]
    exact ih.append (List.nodup_singleton _) (List.disjoint_singleton.2 new)

/-- The batch of a graph is a list of stages, one for each node that is reached. -/
theorem Batch.of_ofGraph {b : Batch} (h : (Batch.ofGraph s config g).result = .ok b) :
    ∃ ts, Staged s config g ts ∧ b = Batch.ofStages g ts ∧
      ∀ n, n ∈ ts.map Stage.node ↔ g.Reaches n := by
  unfold Batch.ofGraph at h
  obtain ⟨⟨u, e⟩, hemit, hb⟩ := result_bind_eq_ok.1 h
  obtain rfl := result_pure_eq_ok.1 hb
  obtain ⟨_, e', hroot, htour⟩ := yields_bind.1 hemit
  obtain ⟨ts, hts, he, hnodes⟩ := staged_of_fetchRoot hroot
  have hpending : ∀ p ∈ (g.connections root).map (root, ·),
      p.1 ∈ [root] ∧ p.2 ∈ g.connections p.1 := by
    intro p hp
    obtain ⟨c, hc, rfl⟩ := List.mem_map.1 hp
    exact ⟨List.mem_cons_self, hc⟩
  have hstart : ∀ n ∈ [root], ∀ c ∈ g.connections n,
      c.target ∈ [root] ∨ (n, c) ∈ (g.connections root).map (root, ·) := by
    intro n hn c hc
    obtain rfl := List.mem_singleton.1 hn
    exact Or.inr (List.mem_map_of_mem hc)
  obtain ⟨ts', hts', he', hsub, hclosed⟩ := staged_of_tourFrom hts he
    (fun n => by rw [hnodes]) hpending hstart htour
  refine ⟨ts', hts', ?_, fun n => ⟨hts'.reaches n, ?_⟩⟩
  · rw [Batch.ofStages, ← he'.declarations, ← he'.fetches]
  · intro hn
    induction hn with
    | refl => exact hsub root (hnodes ▸ List.mem_cons_self)
    | tail _ hleads ih =>
      obtain ⟨c, hc, rfl⟩ := hleads
      exact hclosed _ ih c hc

/-- The fetches of a batch are those of the nodes that are reached, of the relation of each. -/
theorem Batch.mem_relations {b : Batch} {relation : String}
    (h : (Batch.ofGraph s config g).result = .ok b) :
    relation ∈ b.fetches.map Fetch.relation ↔ ∃ n, g.Reaches n ∧ g.relation n = relation := by
  obtain ⟨ts, -, rfl, hnodes⟩ := Batch.of_ofGraph h
  rw [Batch.ofStages, List.map_map, List.mem_map]
  constructor
  · intro hmem
    obtain ⟨t, ht, hrelation⟩ := hmem
    exact ⟨t.node, (hnodes t.node).1 (List.mem_map_of_mem ht), hrelation⟩
  · intro hmem
    obtain ⟨n, hn, hrelation⟩ := hmem
    obtain ⟨t, ht, rfl⟩ := List.mem_map.1 ((hnodes n).2 hn)
    exact ⟨t, ht, hrelation⟩

end FetchPlan
