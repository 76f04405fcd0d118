import FetchPlan.Proofs.Batch.Tableau
import FetchPlan.Proofs.JoinGraph.Navigated
import FetchPlan.Proofs.JoinGraph.OptimizeTree
import FetchPlan.Proofs.Planned

/-!
# What an optimized batch selects

The optimized batch of a query that only navigates selects the rows that the reduced label paths of
the graph lead to. Walking a step back leads to the row it came from if the step leaves by the
primary key; if it leaves by another column, there can be more such rows, and they are lost unless
other paths lead to them. Whether any row is lost on any database can be told from one database
for each node, which has the rows that its path needs (`Planner.coveredBy_optimize_iff`).
-/

namespace FetchPlan

open JoinGraph LabelPath

variable {V : Type} {s : Schema} {config : Config} {g : JoinGraph} {key : List String}
  {D : Database V} {params : String → V} {r : Row V} {b : Batch} {relation start : String}
  {first : Row V → Prop} {p q : List Label} {l : Label} {n : Nat}

/-- The batch of an optimized tree selects the rows that the reduced label paths lead to. -/
theorem Batch.selects_optimize_iff [DecidableEq V] (hg : g.Arborescent)
    (hkey : s.primaryKey (g.relation root) = .ok key)
    (h : (Batch.ofGraph s config g.optimize.graph).result = .ok b) :
    b.Selects D params relation r ↔ ∃ p n, g.Trail p n ∧ g.relation n = relation ∧
      RowsAlong D (g.relation root) (Row.Matches · params (Emitting.keyFilters config key))
        (reduce (g.relation root) p) r := by
  obtain ⟨htree, hsame⟩ := hg.optimize
  rw [Batch.selects_iff htree (hsame.root.symm ▸ hkey) h, hsame.root]
  constructor
  · intro h
    obtain ⟨q, m, hq, rfl, hr⟩ := h
    obtain ⟨p, n, hp, rfl⟩ := hg.exists_trail_optimize.1 ⟨m, hq⟩
    refine ⟨p, n, hp, ?_, hr⟩
    rw [← hp.endsAt, ← hq.endsAt, hsame.root, endsAt_reduce]
  · intro h
    obtain ⟨p, n, hp, rfl, hr⟩ := h
    obtain ⟨m, hm⟩ := hg.exists_trail_optimize.2 ⟨p, n, hp, rfl⟩
    refine ⟨_, m, hm, ?_, hr⟩
    rw [← hp.endsAt, ← hm.endsAt, hsame.root, endsAt_reduce]

/-! ## Walking steps back -/

/-- The step after `p` leaves its relation, if it walks the last step of `p` back, to a row that was
left by the whole primary key. -/
def LabelPath.KeyedTurn (s : Schema) (start : String) (l : Label) (p : List Label) : Prop :=
  ∀ step q, p = step :: q → l.fields = step.fields.reversed → l.relation = endsAt start q →
    ∃ key, s.primaryKey (endsAt start q) = .ok key ∧ ∀ x ∈ key, x ∈ step.fields.sources

/-- Wherever a connection walks the last step of a reduced label path back, this step left its
relation by the whole primary key. -/
def JoinGraph.KeyedTurns (s : Schema) (g : JoinGraph) : Prop :=
  ∀ p n, g.Trail p n → ∀ c ∈ g.connections n,
    KeyedTurn s (g.relation root) (g.label c) (reduce (g.relation root) p)

/-- If the last step is walked back, the rows are those that the path led to before. -/
theorem rowsAlong_extend (hD : D.Keyed s) (hturn : KeyedTurn s start l p)
    (h : RowsAlong D start first (l :: p) r) : RowsAlong D start first (extend start l p) r := by
  cases p with
  | nil => exact h
  | cons step q =>
    rw [extend]
    split
    · next hback =>
      obtain ⟨hfields, hends⟩ := hback
      obtain ⟨hmem, r', hr', hagree⟩ := rowsAlong_cons.1 h
      obtain ⟨-, r'', hr'', hagree'⟩ := rowsAlong_cons.1 hr'
      obtain ⟨key, hkey, hsub⟩ := hturn step q rfl hfields hends
      -- Both rows have the values of the row between them in the key.
      have heq : r = r'' := by
        refine hD.eq hkey (hends ▸ hmem) hr''.mem (List.map_congr_left ?_)
        intro x hx
        obtain ⟨e, he, rfl⟩ := FieldPairs.mem_sources.1 (hsub x hx)
        have hswap : e.swap ∈ l.fields := hfields ▸ FieldPairs.mem_reversed.2 he
        exact (hagree e.swap hswap).trans (hagree' e he)
      exact heq ▸ hr''
    · exact h

/-- If steps are walked back by primary keys only, a reduced label path leads to all rows that the
label path leads to. -/
theorem rowsAlong_reduce (hD : D.Keyed s) (hturns : g.KeyedTurns s) (hp : g.Trail p n)
    (h : RowsAlong D (g.relation root) first p r) :
    RowsAlong D (g.relation root) first (reduce (g.relation root) p) r := by
  induction hp generalizing r with
  | root => exact h
  | @step p a c init mem ih =>
    obtain ⟨hmem, r', hr', hagree⟩ := rowsAlong_cons.1 h
    exact rowsAlong_extend hD (hturns p a init c mem) (.step (ih hr') hmem hagree)

/-! ## Queries that only navigate -/

/-- A label path of the graph of such a query is a path over associations. -/
theorem JoinGraph.Navigated.exists_legs (hg : g.Navigated) (hp : g.Trail p n) :
    ∃ legs : List Leg, p = legs.map Leg.label := by
  induction hp with
  | root => exact ⟨[], rfl⟩
  | @step p a c init mem ih =>
    obtain ⟨legs, rfl⟩ := ih
    obtain ⟨column, key, hfields⟩ := hg.hops a c mem
    refine ⟨⟨column, key, g.relation c.target⟩ :: legs, ?_⟩
    rw [List.map_cons, label, hfields]
    rfl

namespace Planner

variable {rs : List Relation} {query : Expr} {b' : Batch}

/-- What the optimized batch of a query that only navigates selects. It selects all rows that the
other one selects, on every database with primary keys, exactly if it selects the row that the path
of each node leads to on the database that has just the rows this path needs. It does if steps are
walked back by primary keys only. -/
theorem coveredBy_optimize_iff (config : Config) (hs : Schema.ofRelations rs = .ok s)
    (hquery : query.OnlyNavigates)
    (hb : (plan ⟨s, { config with optimize := false }⟩ query).result = .ok b)
    (hb' : (plan ⟨s, { config with optimize := true }⟩ query).result = .ok b') :
    ∃ flow g key, query.toPath = .ok flow ∧ (ofPath s flow.path).result = .ok g ∧
      s.primaryKey (g.relation root) = .ok key ∧
      (b.CoveredBy s b' ↔ ∀ (legs : List Leg) n, g.Trail (legs.map Leg.label) n →
        b'.Selects (Tableau.ofLegs s (g.relation root) legs).database
          (Tableau.params (Emitting.keyFilters config key)) (g.relation n)
          (Tableau.ofLegs s (g.relation root) legs).last) ∧
      (g.KeyedTurns s → b.CoveredBy s b') := by
  obtain ⟨flow, g, hflow, hg, hb⟩ := of_plan hb
  obtain ⟨flow', g', hflow', hg', hb'⟩ := of_plan hb'
  -- Both plans go through the same graph.
  obtain rfl := Except.ok.inj (hflow.symm.trans hflow')
  obtain rfl := Except.ok.inj (hg.symm.trans hg')
  rw [planned, if_neg (by simp)] at hb
  rw [planned, if_pos rfl] at hb'
  have hnav := navigated_of_ofPath hs (hquery.path hflow) hg
  obtain ⟨ts, hts, -, -⟩ := Batch.of_ofGraph hb
  obtain ⟨-, key, -, -, hkey, -⟩ := hts.first
  have hkeys : ∀ relation key, s.primaryKey relation = .ok key → key ≠ [] ∧ key.Nodup :=
    fun relation key hk => Schema.key_of_ofRelations hs hk
  refine ⟨flow, g, key, hflow, hg, hkey, ⟨?_, ?_⟩, ?_⟩
  · intro hcovered legs n hn
    refine hcovered Cell _ _ (Tableau.keyed_database hkeys) _ _ ?_
    exact (Batch.selects_iff hnav.tree hkey hb).2
      ⟨_, n, hn, rfl, Tableau.rowsAlong_last Tableau.matches_fresh⟩
  · intro hall V _ D params hD relation r hr
    obtain ⟨p, n, hp, rfl, hr⟩ := (Batch.selects_iff hnav.tree hkey hb).1 hr
    obtain ⟨legs, rfl⟩ := hnav.exists_legs hp
    obtain ⟨q, m, hq, hrelation, hlast⟩ :=
      (Batch.selects_optimize_iff hnav.tree hkey hb').1 (hall legs n hp)
    exact (Batch.selects_optimize_iff hnav.tree hkey hb').2
      ⟨q, m, hq, hrelation, Tableau.rowsAlong_of_last hD hr hlast⟩
  · intro hturns V _ D params hD relation r hr
    obtain ⟨p, n, hp, hrelation, hr⟩ := (Batch.selects_iff hnav.tree hkey hb).1 hr
    exact (Batch.selects_optimize_iff hnav.tree hkey hb').2
      ⟨p, n, hp, hrelation, rowsAlong_reduce hD hturns hp hr⟩

/-- For every customer the customers of the orders. -/
def customersOfOrders : Expr :=
  .selectMany (.table "Customer") (.lambda ["c"] (customerOf (ordersOf (.param "c"))))

theorem coveredBy_optimize_customersOfOrders :
    Schema.ofRelations shopRelations = .ok shop ∧ customersOfOrders.OnlyNavigates ∧
      ∃ b b', (plan ⟨shop, { optimize := false }⟩ customersOfOrders).result = .ok b ∧
        (plan ⟨shop, { optimize := true }⟩ customersOfOrders).result = .ok b' ∧
        b.CoveredBy shop b' := by
  have hquery : customersOfOrders.OnlyNavigates :=
    Expr.onlyNavigates_of_isEq (by decide +kernel) (by decide +kernel)
  have hplans : (plan ⟨shop, { optimize := false }⟩ customersOfOrders).result >>= (fun _ =>
      (plan ⟨shop, { optimize := true }⟩ customersOfOrders).result >>= fun _ => .ok ()) =
      .ok () := by decide +kernel
  obtain ⟨b, hb, h⟩ := bind_eq_ok.1 hplans
  obtain ⟨b', hb', -⟩ := bind_eq_ok.1 h
  obtain ⟨flow, g, key, hflow, hg, -, -, hturns⟩ :=
    coveredBy_optimize_iff {} ofRelations_shop hquery hb hb'
  refine ⟨ofRelations_shop, hquery, b, b', hb, hb', hturns ?_⟩
  have hcheck : (customersOfOrders.toPath >>= fun flow => (ofPath shop flow.path).result >>= fun g =>
      .ok (g.size, g.relation 0, g.connections 0, g.connections 1, g.connections 2)) =
      .ok (3, "Customer", [⟨1, .zip ["Id"] ["CustomerId"]⟩], [⟨2, .zip ["CustomerId"] ["Id"]⟩],
        []) := by decide +kernel
  rw [hflow, bind_eq_ok] at hcheck
  obtain ⟨_, hflow', hcheck⟩ := hcheck
  obtain rfl := Except.ok.inj hflow'
  rw [hg, bind_eq_ok] at hcheck
  obtain ⟨_, hg', hcheck⟩ := hcheck
  obtain rfl := Except.ok.inj hg'
  obtain ⟨hsize, hcheck⟩ := Prod.mk.inj (Except.ok.inj hcheck)
  obtain ⟨hroot, hcheck⟩ := Prod.mk.inj hcheck
  obtain ⟨h₀, hcheck⟩ := Prod.mk.inj hcheck
  obtain ⟨h₁, h₂⟩ := Prod.mk.inj hcheck
  have hconnections : ∀ a, ∀ c ∈ g.connections a,
      (a = 0 ∧ c = ⟨1, .zip ["Id"] ["CustomerId"]⟩) ∨
        (a = 1 ∧ c = ⟨2, .zip ["CustomerId"] ["Id"]⟩) := by
    intro a c hc
    have ha := lt_size_of_mem hc
    obtain rfl | rfl | rfl : a = 0 ∨ a = 1 ∨ a = 2 := by omega
    · rw [h₀] at hc
      exact Or.inl ⟨rfl, List.mem_singleton.1 hc⟩
    · rw [h₁] at hc
      exact Or.inr ⟨rfl, List.mem_singleton.1 hc⟩
    · rw [h₂] at hc
      exact absurd hc List.not_mem_nil
  have htree := (navigated_of_ofPath ofRelations_shop (hquery.path hflow) hg).tree
  have hstart : ∀ p, g.Trail p 0 → p = [] := fun p hp => htree.trail_unique hp .root
  intro p n hp c hc step q hstep _ _
  rcases hconnections n c hc with ⟨rfl, -⟩ | ⟨rfl, -⟩
  · rw [hstart p hp] at hstep
    exact absurd hstep (by simp [reduce])
  · -- The only step to walk back is the one from the customer to the orders.
    cases p with
    | nil => exact absurd hstep (by simp [reduce])
    | cons l p =>
      obtain ⟨a, e, he, ha, rfl, htarget⟩ := hp.of_cons
      rcases hconnections a e he with ⟨rfl, rfl⟩ | ⟨-, rfl⟩
      · rw [hstart p ha] at hstep
        obtain ⟨rfl, rfl⟩ := List.cons.inj hstep
        refine ⟨["Id"], ?_, ?_⟩
        · show shop.primaryKey (g.relation 0) = _
          rw [hroot]
          rfl
        · intro x hx
          rw [List.mem_singleton.1 hx]
          show "Id" ∈ (FieldPairs.zip ["Id"] ["CustomerId"]).sources
          decide
      · exact absurd htarget (by decide)

/-- The second order of the customer is selected without the optimization, and is lost with it. -/
theorem optimize_loses_siblings :
    Schema.ofRelations shopRelations = .ok shop ∧ siblingOrders.OnlyNavigates ∧
      twoOrders.Keyed shop ∧
      ∃ b b' r, (plan ⟨shop, { optimize := false }⟩ siblingOrders).result = .ok b ∧
        (plan ⟨shop, { optimize := true }⟩ siblingOrders).result = .ok b' ∧
        b.Selects twoOrders (fun _ => 1) "Order" r ∧
        ¬ b'.Selects twoOrders (fun _ => 1) "Order" r := by
  have hquery : siblingOrders.OnlyNavigates :=
    Expr.onlyNavigates_of_isEq (by decide +kernel) (by decide +kernel)
  have hkeyed : twoOrders.Keyed shop := by
    intro relation key hkey
    unfold twoOrders
    split
    · next horder =>
      subst horder
      obtain rfl : ["Id"] = key := Except.ok.inj hkey
      exact List.pairwise_pair.2 (by decide)
    · split
      · exact List.pairwise_singleton _ _
      · exact List.Pairwise.nil
  -- The rows of orders that a batch selects, by their keys.
  have hselects : ∀ b : Batch, ∀ id : Nat,
      ((b.execute twoOrders fun _ => 1).fetched.any fun f =>
        f.1 = "Order" && f.2.any fun r => r "Id" = id) = true ↔
      ∃ r, b.Selects twoOrders (fun _ => 1) "Order" r ∧ r "Id" = id := by
    intro b id
    simp only [List.any_eq_true, Bool.and_eq_true, decide_eq_true_eq]
    constructor
    · intro h
      obtain ⟨⟨_, rows⟩, hmem, rfl, r, hr, hid⟩ := h
      exact ⟨r, ⟨rows, hmem, hr⟩, hid⟩
    · intro h
      obtain ⟨r, ⟨rows, hmem, hr⟩, hid⟩ := h
      exact ⟨("Order", rows), hmem, rfl, r, hr, hid⟩
  have hoff : (plan ⟨shop, { optimize := false }⟩ siblingOrders).result >>= (fun b =>
      .ok ((b.execute twoOrders fun _ => 1).fetched.any fun f =>
        f.1 = "Order" && f.2.any fun r => r "Id" = 2)) = .ok true := by decide +kernel
  have hon : (plan ⟨shop, { optimize := true }⟩ siblingOrders).result >>= (fun b =>
      .ok ((b.execute twoOrders fun _ => 1).fetched.any fun f =>
        f.1 = "Order" && f.2.any fun r => r "Id" = 2)) = .ok false := by decide +kernel
  obtain ⟨b, hb, hsome⟩ := bind_eq_ok.1 hoff
  obtain ⟨b', hb', hnone⟩ := bind_eq_ok.1 hon
  obtain ⟨r, hr, hid⟩ := (hselects b 2).1 (Except.ok.inj hsome)
  refine ⟨ofRelations_shop, hquery, hkeyed, b, b', r, hb, hb', hr, ?_⟩
  intro hr'
  have hfound := (hselects b' 2).2 ⟨r, hr', hid⟩
  rw [Except.ok.inj hnone] at hfound
  exact Bool.false_ne_true hfound

end Planner
end FetchPlan
