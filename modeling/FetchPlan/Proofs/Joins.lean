import FetchPlan.Proofs.Batch.Fetched
import FetchPlan.Proofs.Batch.Multiplicity
import FetchPlan.Proofs.JoinGraph.JoinedOn
import FetchPlan.Proofs.Planned

/-!
# What a batch fetches for a join predicate

The rows of a relation that a predicate joins are fetched by all of its equalities at once. So the
rows that are fetched are those that agree with the root row on each equality
(`Planner.fetched_of_joinPredicate`), and a row for which the predicate holds although an equality
does not is not fetched.
-/

namespace FetchPlan

open Emitting JoinGraph

variable {V : Type} [DecidableEq V] {D : Database V} {g : JoinGraph} {pairs : List FieldPair}
  {relation joined : String} {start : List (Row V)}

/-- The rows of two nodes: those of the root, and those of the other one that agree with one of
them on all pairs. -/
def JoinGraph.rowsJoinedOn (D : Database V) (joined : String) (pairs : List FieldPair)
    (start : List (Row V)) : Nat → List (Row V)
  | 0 => start
  | _ + 1 => (D joined).filter fun r => ∃ r' ∈ start, ∀ e ∈ pairs, r e.target = r' e.source

theorem JoinGraph.JoinedOn.fetchesRows (h : g.JoinedOn pairs) (hne : pairs ≠ [])
    (hrelation : g.relation 1 = joined) : g.FetchesRows D (rowsJoinedOn D joined pairs start) := by
  intro a c hc
  obtain ⟨rfl, hjoin⟩ := h.eq_root hc
  rw [joins, if_neg hne] at hjoin
  obtain rfl := List.mem_singleton.1 hjoin
  show (D joined).filter (fun r => ∃ r' ∈ start, ∀ e ∈ pairs, r e.target = r' e.source) =
    (D (g.relation 1)).filter
      fun r => ∃ r' ∈ start, ∀ e ∈ OrderedSet.ofList pairs, r e.target = r' e.source
  rw [hrelation]
  refine List.filter_congr fun r _ => ?_
  simp only [OrderedSet.mem_ofList]

/-- The row of a relation that has a key. -/
theorem Database.Keyed.filter_matches {s : Schema} {config : Config} {key : List String}
    {params : String → V} {r : Row V} (hD : D.Keyed s) (hkey : s.primaryKey relation = .ok key)
    (hr : r ∈ D relation) (hmatches : r.Matches params (keyFilters config key)) :
    (D relation).filter (fun r => r.Matches params (keyFilters config key)) = [r] := by
  have hmem : r ∈ (D relation).filter (fun r => r.Matches params (keyFilters config key)) :=
    List.mem_filter.2 ⟨hr, decide_eq_true hmatches⟩
  have hlength : ((D relation).filter
      fun r => r.Matches params (keyFilters config key)).length ≤ 1 := by
    refine hD.length_filter_le_one hkey ?_
    intro r₁ r₂ h₁ h₂
    exact (of_decide_eq_true h₁).map_eq (of_decide_eq_true h₂)
  generalize (D relation).filter (fun r => r.Matches params (keyFilters config key)) = rows at *
  match rows, hlength with
  | [_], _ => rw [List.mem_singleton.1 hmem]

namespace Planner

variable {p : Planner} {predicate : JoinPredicate} {x y : String} {key : List String} {b : Batch}
  {rs : List FetchPlan.Relation} {r' : Row V}

/-- Of the relation that is joined, the rows are fetched that agree with the root row on all
equalities of the predicate, wherever they stand in it. If the predicate forces its equalities,
every row for which it holds is among them. -/
theorem fetched_of_joinPredicate (params : String → V) (value : Expr → V)
    (compare : BinaryOp → V → V → Prop) (hs : Schema.ofRelations rs = .ok p.schema)
    (hoff : p.config.optimize = false)
    (h : (p.plan (predicate.query relation joined x y)).result = .ok b) (hD : D.Keyed p.schema)
    (hkey : p.schema.primaryKey relation = .ok key) (hr' : r' ∈ D relation)
    (hmatches : r'.Matches params (keyFilters p.config key)) :
    ∃ rows, (b.execute D params).fetched = [(relation, [r']), (joined, rows)] ∧
      (∀ r, r ∈ rows ↔ r ∈ D joined ∧ ∀ e ∈ predicate.equalities, r e.target = r' e.source) ∧
      (predicate.Forces true → ∀ r ∈ D joined, predicate.Holds value compare r r' → r ∈ rows) := by
  obtain ⟨flow, g, hflow, hg, hb, hwired, hpos⟩ := of_plan_built hs hoff h
  have hsourced : g.Sourced [.table relation, .table joined] := by
    rw [← predicate.rowSources_query]
    exact sourced_of_ofPath hflow hg
  have hjoined : g.JoinedOn predicate.equalities := JoinPredicate.joinedOn_of_ofPath hflow hg
  have hids : g.ids = [root, 1] := by
    rw [ids, hjoined.size]
    rfl
  have hrelations : g.ids.map g.relation = [relation, joined] := hsourced.relations
  rw [hids] at hrelations
  obtain ⟨hroot, hrelations⟩ := List.cons.inj hrelations
  obtain ⟨hother, -⟩ := List.cons.inj hrelations
  have hreach : g.Reaches 1 := reaches_of_ofPath hg 1 (by rw [hjoined.size]; exact Nat.one_lt_two)
  -- There is no other row with the key.
  have hstart : (D relation).filter (fun r => r.Matches params (keyFilters p.config key)) = [r'] :=
    hD.filter_matches hkey hr' hmatches
  obtain ⟨hfirst, hperm⟩ := Batch.fetched_perm hb hwired hpos (reaches_of_ofPath hg)
    (hroot.symm ▸ hkey) (by rw [hroot, hstart]; rfl)
    (hjoined.fetchesRows (hjoined.ne_nil hreach) hother)
  rw [hids, List.map_cons, List.map_singleton, hroot, hother] at hperm
  rw [hroot] at hfirst
  have hrows : ∀ r, r ∈ rowsJoinedOn D joined predicate.equalities [r'] 1 ↔
      r ∈ D joined ∧ ∀ e ∈ predicate.equalities, r e.target = r' e.source := by
    intro r
    rw [rowsJoinedOn, List.mem_filter, decide_eq_true_iff]
    simp only [List.mem_singleton, exists_eq_left]
  refine ⟨rowsJoinedOn D joined predicate.equalities [r'] 1, ?_, hrows, ?_⟩
  · cases hfetched : (b.execute D params).fetched with
    | nil => exact absurd (hfetched ▸ hfirst) (by simp)
    | cons first rest =>
      rw [hfetched] at hfirst hperm
      obtain rfl := Option.some.inj hfirst
      rw [List.perm_singleton.1 hperm.cons_inv]
      rfl
  · intro hforces r hr hholds
    exact (hrows r).2 ⟨hr, hforces.agree (iff_of_true hholds rfl)⟩

/-- The orders of a customer but one. -/
def ordersBut : JoinPredicate :=
  .and (.joined "CustomerId" "Id") (.compared .ne "Id" (.captured "order") rfl)

theorem fetched_ordersBut :
    Schema.ofRelations shopRelations = .ok shop ∧ twoOrders.Keyed shop ∧ ordersBut.Forces true ∧
      ∃ b rows, (plan ⟨shop, { optimize := false }⟩
          (ordersBut.query "Customer" "Order" "c" "o")).result = .ok b ∧
        (b.execute twoOrders fun _ => 7).fetched = [("Customer", [fun _ => 7]), ("Order", rows)] ∧
        orderRow 2 7 ∈ rows := by
  have hplan : (plan ⟨shop, { optimize := false }⟩
      (ordersBut.query "Customer" "Order" "c" "o")).result >>= (fun _ => .ok ()) = .ok () := by
    decide +kernel
  obtain ⟨b, hb, -⟩ := bind_eq_ok.1 hplan
  have hforces : ordersBut.Forces true := ⟨rfl, trivial⟩
  have hcustomer : (fun _ => 7) ∈ twoOrders "Customer" := List.mem_cons_self
  have horder : orderRow 2 7 ∈ twoOrders "Order" := List.mem_cons_of_mem _ List.mem_cons_self
  obtain ⟨rows, hfetched, -, hall⟩ := fetched_of_joinPredicate (fun _ => 7) (fun _ => 1)
    (fun _ m n => m ≠ n) ofRelations_shop rfl hb keyed_twoOrders rfl hcustomer (fun _ _ => rfl)
  have hholds : ordersBut.Holds (fun _ => 1) (fun _ m n => m ≠ n) (orderRow 2 7) (fun _ => 7) :=
    ⟨rfl, fun heq => absurd heq (by decide)⟩
  exact ⟨ofRelations_shop, keyed_twoOrders, hforces, b, rows, hb, hfetched,
    hall hforces _ horder hholds⟩

/-- The orders of a customer that do not have its number. -/
def ordersUnlike : JoinPredicate := .and (.joined "CustomerId" "Id") (.not (.joined "Id" "Id"))

/-- The predicate holds for an order of the customer, which is not fetched. -/
theorem joinPredicate_loses_order :
    Schema.ofRelations shopRelations = .ok shop ∧ twoOrders.Keyed shop ∧
      ∃ b, (plan ⟨shop, { optimize := false }⟩
          (ordersUnlike.query "Customer" "Order" "c" "o")).result = .ok b ∧
        shop.primaryKey "Customer" = .ok ["Id"] ∧ (fun _ => 7) ∈ twoOrders "Customer" ∧
        Row.Matches (fun _ => 7) (fun _ => 7) (keyFilters { optimize := false } ["Id"]) ∧
        orderRow 1 7 ∈ twoOrders "Order" ∧
        (∀ value compare, ordersUnlike.Holds value compare (orderRow 1 7) (fun _ => 7)) ∧
        ¬ b.Selects twoOrders (fun _ => 7) "Order" (orderRow 1 7) := by
  have hplan : (plan ⟨shop, { optimize := false }⟩
      (ordersUnlike.query "Customer" "Order" "c" "o")).result >>= (fun b =>
        .ok ((b.execute twoOrders fun _ => 7).fetched.all fun f => f.1 = "Order" → f.2 = [])) =
      .ok true := by decide +kernel
  obtain ⟨b, hb, hnone⟩ := bind_eq_ok.1 hplan
  have hholds : ∀ value compare, ordersUnlike.Holds value compare (orderRow 1 7) (fun _ => 7) := by
    intro value compare
    have hunlike : orderRow 1 7 "Id" ≠ 7 := by decide
    exact ⟨rfl, hunlike⟩
  refine ⟨ofRelations_shop, keyed_twoOrders, b, hb, rfl, List.mem_cons_self, fun _ _ => rfl,
    List.mem_cons_self, hholds, ?_⟩
  intro hselects
  obtain ⟨rows, hmem, hr⟩ := hselects
  have hempty : rows = [] :=
    of_decide_eq_true (List.all_eq_true.1 (Except.ok.inj hnone) _ hmem) rfl
  rw [hempty] at hr
  exact absurd hr List.not_mem_nil

end Planner
end FetchPlan
