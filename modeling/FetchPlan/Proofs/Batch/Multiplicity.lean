import FetchPlan.Proofs.Batch.Executable
import FetchPlan.Proofs.Batch.Execution

/-!
# How often rows are staged

An inner join stages a row of its relation once for every earlier row that it matches
(`Fetch.joined`). The joins of a batch are keyed on one side, so that no fetch stages more rows than
its relation or the earlier table variable has (`Planner.joined_of_plan`). As sets, the staged
rows are those that `Batch.execute` selects (`Batch.mem_joined`).
-/

namespace FetchPlan

open Emitting JoinGraph

variable {V : Type}

/-! ## Rows of a keyed relation -/

section Keyed

variable {s : Schema} {D : Database V} {relation : String} {key : List String}

theorem Database.Keyed.nodup (h : D.Keyed s) (hkey : s.primaryKey relation = .ok key) :
    (D relation).Nodup := by
  refine (h relation key hkey).imp ?_
  intro r r' hne heq
  exact hne (heq ▸ rfl)

/-- At most one row has the values of a primary key. -/
theorem Database.Keyed.length_filter_le_one (h : D.Keyed s)
    (hkey : s.primaryKey relation = .ok key) {p : Row V → Bool}
    (hp : ∀ r r', p r → p r' → key.map r = key.map r') : ((D relation).filter p).length ≤ 1 := by
  have hpairwise := (h relation key hkey).filter p
  match hrows : (D relation).filter p with
  | [] => exact Nat.zero_le 1
  | [_] => exact Nat.le_refl 1
  | r :: r' :: rest =>
    have hr : r ∈ (D relation).filter p := hrows ▸ List.mem_cons_self
    have hr' : r' ∈ (D relation).filter p := hrows ▸ List.mem_cons_of_mem r List.mem_cons_self
    rw [hrows] at hpairwise
    have hne : key.map r ≠ key.map r' := List.rel_of_pairwise_cons hpairwise List.mem_cons_self
    exact absurd (hp r r' (List.mem_filter.1 hr).2 (List.mem_filter.1 hr').2) hne

end Keyed

variable [DecidableEq V]

/-- The rows of a relation that an earlier row is joined with. -/
def Database.partners (D : Database V) (relation : String) (on : List (String × String))
    (t : StagedRow V) : List (Row V) :=
  (D relation).filter fun r => on.all fun p => t.lookup p.2 = some (r p.1)

/-- The rows that a fetch stages, each as often as it is found. -/
def Fetch.joined (D : Database V) (params : String → V) (tables : Tables V) (f : Fetch) :
    List (Row V) :=
  match f.source with
  | .key filters => (D f.relation).filter fun r => (Source.key filters).admits params tables r
  | .join previous on => (previous.rows tables).flatMap (D.partners f.relation on)

/-- Fills the table variable of a fetch. -/
def Fetch.fill (D : Database V) (params : String → V) (tables : Tables V) (f : Fetch) :
    Tables V :=
  (f.target, (f.joined D params tables).map fun r => Row.staged r f.columns) :: tables

/-- The table variables once the first `n` fetches of a batch are executed. -/
def Batch.filled (b : Batch) (D : Database V) (params : String → V) (n : Nat) : Tables V :=
  (b.fetches.take n).foldl (Fetch.fill D params) []

/-- A join multiplies no rows: over distinct earlier rows it stages each row of its relation at most
once, and over the earlier rows as they are it stages at most one row for each of them. -/
structure Fetch.Unmultiplied (D : Database V) (params : String → V) (tables : Tables V) (f : Fetch)
    (previous : Previous) (on : List (String × String)) (rows : List (StagedRow V)) : Prop where
  filled : tables.lookup previous.name = some rows
  distinct : ∀ name columns, previous = .distinct name columns → (f.joined D params tables).Nodup
  direct : ∀ name, previous = .var name →
    ∀ t ∈ rows, (D.partners f.relation on t).length ≤ 1
  length : (f.joined D params tables).length ≤ max (D f.relation).length rows.length

variable {s : Schema} {config : Config} {g : JoinGraph} {ts : List Stage} {t : Stage} {i : Nat}
  {D : Database V} {params : String → V} {tables : Tables V} {rows : List (Row V)} {r : Row V}
  {relation var : String} {key columns : List String} {on : List (String × String)}
  {fields : FieldPairs} {f : Fetch} {b : Batch} {c : Connection} {owner : Nat}

/-! ## What is staged -/

theorem Database.mem_partners {t : StagedRow V} :
    r ∈ D.partners relation on t ↔ r ∈ D relation ∧ ∀ p ∈ on, t.lookup p.2 = some (r p.1) := by
  rw [partners, List.mem_filter, List.all_eq_true]
  simp only [decide_eq_true_eq]

/-- A fetch stages the rows that its source admits. -/
theorem Fetch.mem_joined :
    r ∈ f.joined D params tables ↔ r ∈ D f.relation ∧ f.source.admits params tables r = true := by
  unfold joined
  cases f.source with
  | key filters => exact List.mem_filter
  | join previous on =>
    simp only [List.mem_flatMap, Database.mem_partners, Source.admits, List.any_eq_true,
      List.all_eq_true, decide_eq_true_eq]
    constructor
    · intro h
      obtain ⟨t, ht, hr, hall⟩ := h
      exact ⟨hr, t, ht, hall⟩
    · intro h
      obtain ⟨hr, t, ht, hall⟩ := h
      exact ⟨t, ht, hr, hall⟩

/-- Table variables that hold the same rows, however often. -/
def Tables.SameRows (tables tables' : Tables V) : Prop :=
  ∀ var t, t ∈ (tables.lookup var).getD [] ↔ t ∈ (tables'.lookup var).getD []

theorem Tables.SameRows.admits {tables' : Tables V} (h : Tables.SameRows tables tables')
    (source : Source) : source.admits params tables r = source.admits params tables' r := by
  cases source with
  | key filters => rfl
  | join previous on =>
    have hrows : ∀ t, t ∈ previous.rows tables ↔ t ∈ previous.rows tables' := by
      intro t
      cases previous with
      | var name => exact h name t
      | distinct name columns =>
        simp only [Previous.rows, List.mem_dedup, List.mem_map]
        exact exists_congr fun t' => and_congr_left fun _ => h name t'
    rw [Bool.eq_iff_iff, Source.admits, Source.admits, List.any_eq_true, List.any_eq_true]
    exact exists_congr fun t => and_congr_left fun _ => hrows t

omit [DecidableEq V] in
theorem Tables.SameRows.cons {tables' : Tables V} (h : Tables.SameRows tables tables')
    {l l' : List (StagedRow V)} (hl : ∀ t, t ∈ l ↔ t ∈ l') :
    Tables.SameRows ((var, l) :: tables) ((var, l') :: tables') := by
  intro name t
  rw [List.lookup_cons, List.lookup_cons]
  cases name == var with
  | true => exact hl t
  | false => exact h name t

/-- Filling and executing a fetch stage the same rows. -/
theorem Tables.SameRows.fill {e : Execution V} (h : Tables.SameRows tables e.tables) (f : Fetch) :
    Tables.SameRows (Fetch.fill D params tables f) (Fetch.execute D params e f).tables := by
  refine h.cons ?_
  intro t
  rw [List.mem_map, List.mem_map]
  refine exists_congr fun r => and_congr_left fun _ => ?_
  rw [Fetch.mem_joined, Fetch.rows, List.mem_filter, h.admits]

/-- Later fetches leave what is fetched already as it is. -/
private theorem getElem?_fetched_foldl {fs : List Fetch} {e : Execution V}
    {l : String × List (Row V)} (h : e.fetched[i]? = some l) :
    (fs.foldl (Fetch.execute D params) e).fetched[i]? = some l := by
  induction fs generalizing e with
  | nil => exact h
  | cons f fs ih =>
    have hlt : i < e.fetched.length := (List.getElem?_eq_some_iff.1 h).1
    have hnext : (Fetch.execute D params e f).fetched[i]? = some l :=
      (List.getElem?_append_left hlt).trans h
    exact ih hnext

private theorem mem_joined_foldl {fs : List Fetch} {e : Execution V}
    (h : Tables.SameRows tables e.tables) (hf : fs[i]? = some f) :
    ∃ rows, (fs.foldl (Fetch.execute D params) e).fetched[e.fetched.length + i]? =
        some (f.relation, rows) ∧
      ∀ r, r ∈ f.joined D params ((fs.take i).foldl (Fetch.fill D params) tables) ↔ r ∈ rows := by
  induction fs generalizing i e tables with
  | nil => exact absurd hf (by simp)
  | cons f' fs ih =>
    cases i with
    | zero =>
      obtain rfl : f' = f := Option.some.inj hf
      refine ⟨f'.rows D params e.tables, ?_, ?_⟩
      · have hfetched : (Fetch.execute D params e f').fetched[e.fetched.length]? =
            some (f'.relation, f'.rows D params e.tables) := List.getElem?_concat_length
        show (fs.foldl (Fetch.execute D params) (Fetch.execute D params e f')).fetched[_]? = _
        exact getElem?_fetched_foldl hfetched
      · intro r
        show r ∈ f'.joined D params tables ↔ _
        rw [Fetch.mem_joined, Fetch.rows, List.mem_filter, h.admits]
    | succ i =>
      obtain ⟨rows, hfetched, hrows⟩ := ih (h.fill f') hf
      refine ⟨rows, ?_, hrows⟩
      have hlength : (Fetch.execute D params e f').fetched.length = e.fetched.length + 1 :=
        List.length_append
      rw [hlength] at hfetched
      rwa [Nat.add_assoc, Nat.add_comm 1] at hfetched

/-- Each fetch stages the rows that it selects in the execution of the batch. -/
theorem Batch.mem_joined (hf : b.fetches[i]? = some f) :
    ∃ rows, (b.execute D params).fetched[i]? = some (f.relation, rows) ∧
      ∀ r, r ∈ f.joined D params (b.filled D params i) ↔ r ∈ rows := by
  have hempty : Tables.SameRows [] (Execution.tables (V := V) {}) := fun _ _ => Iff.rfl
  obtain ⟨rows, hfetched, hrows⟩ := mem_joined_foldl hempty hf
  rw [List.length_nil, Nat.zero_add] at hfetched
  exact ⟨rows, hfetched, hrows⟩

/-! ## Joins -/

/-- Distinct earlier rows have no partner in common: a row tells the values of all their columns. -/
theorem Fetch.nodup_joined (hnodup : (D f.relation).Nodup)
    (hvar : tables.lookup var = some (rows.map fun r => Row.staged r columns))
    (hsource : f.source = joinSource var fields true) : (f.joined D params tables).Nodup := by
  have hrows : ∀ t, t ∈ (Previous.distinct var fields.sources.toList).rows tables ↔
      ∃ r ∈ rows, Row.staged r (columns.filter (· ∈ fields.sources.toList)) = t := by
    intro t
    rw [Previous.rows, hvar, List.mem_dedup, Option.getD_some, List.map_map, List.mem_map]
    refine exists_congr fun r => and_congr_right fun _ => ?_
    rw [Function.comp_apply, Row.filter_staged]
  unfold joined
  rw [hsource, joinSource, if_pos rfl]
  refine List.nodup_flatMap.2 ⟨fun t _ => hnodup.filter _, ?_⟩
  -- Earlier rows that a row is found from agree with it, and so with each other, on all columns.
  refine (List.nodup_dedup _).imp_of_mem ?_
  intro t t' ht ht' hne r hr hr'
  obtain ⟨q, -, rfl⟩ := (hrows t).1 ht
  obtain ⟨q', -, rfl⟩ := (hrows t').1 ht'
  refine hne (List.map_congr_left ?_)
  intro x hx
  obtain ⟨p, hp, rfl⟩ := FieldPairs.mem_sources.1 (of_decide_eq_true (List.mem_filter.1 hx).2)
  have hpair : (p.target, p.source) ∈ fields.toList.map fun p => (p.target, p.source) :=
    List.mem_map_of_mem hp
  have hvalue : some (q p.source) = some (r p.target) :=
    (Row.lookup_staged hx).symm.trans ((Database.mem_partners.1 hr).2 _ hpair)
  have hvalue' : some (q' p.source) = some (r p.target) :=
    (Row.lookup_staged hx).symm.trans ((Database.mem_partners.1 hr').2 _ hpair)
  rw [Option.some.inj (hvalue.trans hvalue'.symm)]

/-- An earlier row tells the primary key of its partners, if all of it is joined. -/
theorem Database.Keyed.length_partners_le_one (hD : D.Keyed s)
    (hkey : s.primaryKey relation = .ok key) (hsub : ∀ x ∈ key, x ∈ fields.targets)
    (t : StagedRow V) :
    (D.partners relation (fields.toList.map fun p => (p.target, p.source)) t).length ≤ 1 := by
  refine hD.length_filter_le_one hkey ?_
  intro r r' hr hr'
  -- Every column of the key is joined, and its value is that of the earlier row.
  refine List.map_congr_left ?_
  intro x hx
  obtain ⟨p, hp, rfl⟩ := FieldPairs.mem_targets.1 (hsub x hx)
  have hpair : (p.target, p.source) ∈ fields.toList.map fun p => (p.target, p.source) :=
    List.mem_map_of_mem hp
  have hvalue : t.lookup p.source = some (r p.target) :=
    of_decide_eq_true (List.all_eq_true.1 hr _ hpair)
  have hvalue' : t.lookup p.source = some (r' p.target) :=
    of_decide_eq_true (List.all_eq_true.1 hr' _ hpair)
  exact Option.some.inj (hvalue.symm.trans hvalue')

theorem Schema.of_isPrimaryKey (h : s.isPrimaryKey relation columns = .ok true) :
    ∃ key, s.primaryKey relation = .ok key ∧ ∀ x ∈ key, x ∈ columns := by
  obtain ⟨rel, hrel, h⟩ := bind_eq_ok.1 h
  have hcheck := pure_eq_ok.1 h
  simp only [Bool.and_eq_true, List.all_eq_true, List.contains_iff_mem] at hcheck
  exact ⟨rel.primaryKey, bind_eq_ok.2 ⟨rel, hrel, rfl⟩, hcheck.2⟩

/-- A connection that is not keyed on its owner's side is keyed on the other one. -/
theorem Emitting.of_keyedOnOwner (h : keyedOnOwner s g owner c = .ok false) :
    ∃ key, s.primaryKey (g.relation c.target) = .ok key ∧ ∀ x ∈ key, x ∈ c.fields.targets := by
  unfold keyedOnOwner at h
  obtain ⟨onOwner, -, h⟩ := bind_eq_ok.1 h
  split at h
  · exact absurd (pure_eq_ok.1 h) (by simp)
  · obtain ⟨onTarget, htarget, h⟩ := bind_eq_ok.1 h
    split at h
    · next hkeyed => exact Schema.of_isPrimaryKey (hkeyed ▸ htarget)
    · exact absurd h (by simp)

private theorem length_flatMap_le {α β : Type} {l : List α} {f : α → List β}
    (h : ∀ a ∈ l, (f a).length ≤ 1) : (l.flatMap f).length ≤ l.length := by
  induction l with
  | nil => exact Nat.le_refl 0
  | cons a l ih =>
    have hhead : (f a).length ≤ 1 := h a List.mem_cons_self
    have htail : (l.flatMap f).length ≤ l.length :=
      ih fun b hb => h b (List.mem_cons_of_mem a hb)
    rw [List.flatMap_cons, List.length_append, List.length_cons]
    omega

/-- The join of a connection that is keyed on one side multiplies no rows. -/
theorem Fetch.unmultiplied_joinSource {keyed : Bool} (hD : D.Keyed s)
    (hkey : s.primaryKey (g.relation c.target) = .ok key)
    (hrelation : f.relation = g.relation c.target) (hchecked : keyedOnOwner s g owner c = .ok keyed)
    (hvar : tables.lookup var = some (rows.map fun r => Row.staged r columns))
    {previous : Previous} (hjoin : joinSource var c.fields keyed = .join previous on)
    (hsource : f.source = joinSource var c.fields keyed) :
    f.Unmultiplied D params tables previous on (rows.map fun r => Row.staged r columns) := by
  cases keyed with
  | true =>
    obtain ⟨rfl, rfl⟩ := Source.join.inj hjoin
    have hnodup : (f.joined D params tables).Nodup :=
      nodup_joined (hrelation ▸ hD.nodup hkey) hvar hsource
    refine ⟨hvar, fun _ _ _ => hnodup, fun name heq => absurd heq (by simp), ?_⟩
    -- What is staged without repetition is no more than the relation has.
    have hsub : f.joined D params tables ⊆ D f.relation := fun r hr => (mem_joined.1 hr).1
    exact Nat.le_trans (List.subperm_of_subset hnodup hsub).length_le (Nat.le_max_left _ _)
  | false =>
    obtain ⟨rfl, rfl⟩ := Source.join.inj hjoin
    obtain ⟨key', hkey', htargets⟩ := of_keyedOnOwner hchecked
    have hpartners : ∀ t : StagedRow V, (D.partners f.relation
        (c.fields.toList.map fun p => (p.target, p.source)) t).length ≤ 1 := fun t =>
      hrelation ▸ hD.length_partners_le_one hkey' htargets t
    refine ⟨hvar, fun name columns heq => absurd heq (by simp), fun _ _ t _ => hpartners t, ?_⟩
    have hjoined : f.joined D params tables = (rows.map fun r => Row.staged r columns).flatMap
        (D.partners f.relation (c.fields.toList.map fun p => (p.target, p.source))) := by
      unfold joined
      rw [hsource, joinSource, if_neg Bool.false_ne_true]
      show (((tables.lookup var).getD []).flatMap _) = _
      rw [hvar, Option.getD_some]
    rw [hjoined]
    exact Nat.le_trans (length_flatMap_le fun t _ => hpartners t) (Nat.le_max_right _ _)

/-! ## Stages -/

/-- The relation of a staged node is known: at least one of its columns is staged. -/
theorem exists_primaryKey_of_stagedColumns {n : Nat} {staged : List ColumnDef} (hg : g.Wired)
    (hj : g.Joining) (hkey : ∀ relation key, s.primaryKey relation = .ok key → key ≠ [])
    (h : stagedColumns s g n = .ok staged) : ∃ key, s.primaryKey (g.relation n) = .ok key := by
  obtain ⟨fields, hfields, hnames, htypes⟩ := stagedColumns_eq_ok h
  obtain ⟨x, hx⟩ := exists_mem_stagedFields hg hj hkey hfields
  have hname : x ∈ staged.map ColumnDef.name := hnames ▸ OrderedSet.mem_toList.2 hx
  obtain ⟨c, hc, -⟩ := List.mem_map.1 hname
  obtain ⟨rel, hrel, -⟩ := bind_eq_ok.1 (htypes c hc)
  exact ⟨rel.primaryKey, bind_eq_ok.2 ⟨rel, hrel, rfl⟩⟩

theorem Batch.filled_ofStages_append {t : Stage} (h : i ≤ ts.length) :
    (Batch.ofStages g (ts ++ [t])).filled D params i = (Batch.ofStages g ts).filled D params i := by
  have hfetches : (Batch.ofStages g (ts ++ [t])).fetches =
      (Batch.ofStages g ts).fetches ++ [t.fetch g] := List.map_append
  have hlength : i ≤ (Batch.ofStages g ts).fetches.length := by
    rw [ofStages, List.length_map]
    exact h
  rw [Batch.filled, Batch.filled, hfetches, List.take_append_of_le_length hlength]

/-- One stage more fills one table variable more. -/
theorem Batch.filled_length_append {t : Stage} :
    (Batch.ofStages g (ts ++ [t])).filled D params (ts ++ [t]).length =
      (t.fetch g).fill D params ((Batch.ofStages g ts).filled D params ts.length) := by
  have hfetches : (Batch.ofStages g (ts ++ [t])).fetches =
      (Batch.ofStages g ts).fetches ++ [t.fetch g] := List.map_append
  have hall : ∀ ts : List Stage, (Batch.ofStages g ts).fetches.take ts.length =
      (Batch.ofStages g ts).fetches := fun ts =>
    List.take_of_length_le (Nat.le_of_eq (List.length_map _))
  rw [Batch.filled, Batch.filled, hall, hall, hfetches, List.foldl_append]
  rfl

/-- The table variable of every stage is filled with the columns that are staged. -/
theorem Staged.exists_filled (h : Staged s config g ts) (D : Database V) (params : String → V) :
    ∀ t ∈ ts, ∃ rows : List (Row V),
      ((Batch.ofStages g ts).filled D params ts.length).lookup t.var =
      some (rows.map fun r => Row.staged r (t.columns.map ColumnDef.name)) := by
  have hlast : ∀ (ts : List Stage) (t : Stage),
      ∃ rows : List (Row V),
        ((Batch.ofStages g (ts ++ [t])).filled D params (ts ++ [t]).length).lookup t.var =
          some (rows.map fun r => Row.staged r (t.columns.map ColumnDef.name)) := by
    intro ts t
    have hself : (t.var == (t.fetch g).target) = true := beq_self_eq_true t.var
    rw [Batch.filled_length_append, Fetch.fill, List.lookup_cons, hself]
    exact ⟨_, rfl⟩
  induction h with
  | start _ _ =>
    intro t ht
    obtain rfl := List.mem_singleton.1 ht
    exact hlast [] _
  | @join ts t' c _ columns init _ _ _ _ _ ih =>
    intro t ht
    rcases List.mem_append.1 ht with ht | ht
    · obtain ⟨rows, hrows⟩ := ih t ht
      refine ⟨rows, ?_⟩
      have hnew := freshName_not_mem config.variableStem (ts.map Stage.var) (g.relation c.target)
      have hne : t.var ≠ freshName config.variableStem (ts.map Stage.var) (g.relation c.target) :=
        fun heq => hnew (heq ▸ List.mem_map_of_mem ht)
      rw [Batch.filled_length_append, Fetch.fill, List.lookup_cons, Stage.fetch,
        beq_false_of_ne hne]
      exact hrows
    · obtain rfl := List.mem_singleton.1 ht
      exact hlast ts _

/-- The joins of a staged batch multiply no rows. -/
theorem Staged.unmultiplied (h : Staged s config g ts) (hD : D.Keyed s)
    (hknown : ∀ n columns, Emitting.stagedColumns s g n = .ok columns →
      ∃ key, s.primaryKey (g.relation n) = .ok key) (ht : ts[i]? = some t) {previous : Previous}
    (hsource : t.source = .join previous on) :
    ∃ rows, (t.fetch g).Unmultiplied D params ((Batch.ofStages g ts).filled D params i)
      previous on rows := by
  induction h with
  | start _ _ =>
    have hmem := List.mem_singleton.1 (List.mem_of_getElem? ht)
    rw [hmem] at hsource
    exact absurd hsource (by simp)
  | @join ts t' c keyed columns init hprevious mem new checked staged ih =>
    have hlt : i < ts.length + 1 := by
      have := (List.getElem?_eq_some_iff.1 ht).1
      rwa [List.length_append] at this
    rw [Batch.filled_ofStages_append (by omega)]
    by_cases hi : i < ts.length
    · rw [List.getElem?_append_left hi] at ht
      exact ih ht
    · obtain rfl : i = ts.length := by omega
      rw [List.getElem?_concat_length] at ht
      obtain rfl := Option.some.inj ht
      obtain ⟨key, hkey⟩ := hknown _ _ staged
      obtain ⟨rows, hrows⟩ := init.exists_filled D params t' hprevious
      exact ⟨_, Fetch.unmultiplied_joinSource hD hkey rfl checked hrows hsource rfl⟩

/-! ## The root -/

omit [DecidableEq V] in
/-- The comparisons of a key with the parameters tell the key. -/
theorem Row.Matches.map_eq {r' : Row V} (h : r.Matches params (keyFilters config key))
    (h' : r'.Matches params (keyFilters config key)) : key.map r = key.map r' := by
  refine List.map_congr_left ?_
  intro x hx
  obtain ⟨n, hn⟩ := List.getElem?_of_mem hx
  have hmem : (⟨x, config.parameterStem ++ toString n⟩ : KeyFilter) ∈ keyFilters config key :=
    List.mem_map.2 ⟨(x, n), List.mem_zipIdx_iff_getElem?.2 hn, rfl⟩
  exact (h _ hmem).trans (h' _ hmem).symm

/-- The first fetch stages at most one row. -/
theorem Staged.length_joined_le_one (h : Staged s config g ts) (hD : D.Keyed s)
    (ht : ts[0]? = some t) : ((t.fetch g).joined D params tables).length ≤ 1 := by
  obtain ⟨t', key, ht', hnode, hkey, hsource⟩ := h.first
  obtain rfl : t' = t := Option.some.inj (ht'.symm.trans ht)
  have hsource' : (t'.fetch g).source = .key (keyFilters config key) := hsource
  unfold Fetch.joined
  rw [hsource']
  have hkey' : s.primaryKey (t'.fetch g).relation = .ok key := by
    rw [Stage.fetch, hnode]
    exact hkey
  refine hD.length_filter_le_one hkey' ?_
  intro r r' hr hr'
  exact (Source.admits_key.1 hr).map_eq (Source.admits_key.1 hr')

namespace Planner

variable {p : Planner} {query : Expr} {rs : List FetchPlan.Relation}

/-- No fetch of a plan multiplies rows: the first one stages at most one row, every later one is a
join that multiplies none, and all of them stage the rows that they select. -/
theorem joined_of_plan (params : String → V) (hs : Schema.ofRelations rs = .ok p.schema)
    (h : (p.plan query).result = .ok b) (hD : D.Keyed p.schema) (hf : b.fetches[i]? = some f) :
    (i = 0 → (f.joined D params (b.filled D params i)).length ≤ 1) ∧
      (∀ previous on, f.source = .join previous on →
        ∃ rows, f.Unmultiplied D params (b.filled D params i) previous on rows) ∧
      ∃ rows, (b.execute D params).fetched[i]? = some (f.relation, rows) ∧
        ∀ r, r ∈ f.joined D params (b.filled D params i) ↔ r ∈ rows := by
  obtain ⟨flow, g, -, hg, hb⟩ := of_plan h
  obtain ⟨hwired, hjoining, -⟩ := sound_planned hs hg
  obtain ⟨ts, hts, rfl, -⟩ := Batch.of_ofGraph hb
  have hkey : ∀ relation key, p.schema.primaryKey relation = .ok key → key ≠ [] :=
    fun relation key hk => (Schema.key_of_ofRelations hs hk).1
  have hstage := hf
  rw [Batch.ofStages, List.getElem?_map, Option.map_eq_some_iff] at hstage
  obtain ⟨t, ht, rfl⟩ := hstage
  refine ⟨?_, ?_, Batch.mem_joined hf⟩
  · intro hzero
    subst hzero
    exact hts.length_joined_le_one hD ht
  · intro previous on hsource
    exact hts.unmultiplied hD
      (fun n columns => exists_primaryKey_of_stagedColumns hwired hjoining hkey) ht hsource

/-- The orders of a customer are joined with the distinct keys of the customers. -/
theorem joined_siblingOrders :
    Schema.ofRelations shopRelations = .ok shop ∧ twoOrders.Keyed shop ∧
      ∃ b f previous on rows, (plan ⟨shop, { optimize := false }⟩ siblingOrders).result = .ok b ∧
        b.fetches[2]? = some f ∧ f.source = .join previous on ∧
        f.Unmultiplied twoOrders (fun _ => 1) (b.filled twoOrders (fun _ => 1) 2) previous on
          rows := by
  have hplan : (plan ⟨shop, { optimize := false }⟩ siblingOrders).result >>= (fun b =>
      .ok (b.fetches[2]?.map Fetch.source)) =
      .ok (some (.join (.distinct "@tableCustomer" ["Id"]) [("CustomerId", "Id")])) := by
    decide +kernel
  obtain ⟨b, hb, hfetch⟩ := bind_eq_ok.1 hplan
  obtain ⟨f, hf, hsource⟩ := Option.map_eq_some_iff.1 (Except.ok.inj hfetch)
  obtain ⟨-, hjoin, -⟩ := joined_of_plan (fun _ => 1) ofRelations_shop hb keyed_twoOrders hf
  obtain ⟨rows, hrows⟩ := hjoin _ _ hsource
  exact ⟨ofRelations_shop, keyed_twoOrders, b, f, _, _, rows, hb, hf, hsource, hrows⟩

end Planner
end FetchPlan
