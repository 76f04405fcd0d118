import FetchPlan.Planner
import FetchPlan.Proofs.Batch.Execution
import FetchPlan.Proofs.JoinGraph.Built
import FetchPlan.Proofs.JoinGraph.Contracts

/-!
# The graph that is planned

A plan that succeeds goes through a path, the graph that is built for it, and the graph that the
batch is made from, which is the built one or its optimized form. Either is well-formed, and its
root is the relation that the query starts at.
-/

namespace FetchPlan

open JoinGraph

namespace Planner

variable {p : Planner} {query : Expr} {b : Batch} {g : JoinGraph}
  {rs : List FetchPlan.Relation} {flow : NumberedPath}

/-- The graph that a batch is made from. -/
def planned (p : Planner) (g : JoinGraph) : JoinGraph :=
  if p.config.optimize then g.optimize.graph else g

theorem result_optimized : (p.optimized g).result = .ok (p.planned g) := by
  rw [optimized, planned]
  split
  · rfl
  · rfl

/-- The steps of a plan that succeeds. -/
theorem of_plan (h : (p.plan query).result = .ok b) :
    ∃ flow g, query.toPath = .ok flow ∧ (ofPath p.schema flow.path).result = .ok g ∧
      (Batch.ofGraph p.schema p.config (p.planned g)).result = .ok b := by
  unfold plan at h
  simp only [Traced.result_bind, result_optimized] at h
  obtain ⟨flow, hflow, h⟩ := bind_eq_ok.1 h
  obtain ⟨_, -, h⟩ := bind_eq_ok.1 h
  obtain ⟨g, hg, h⟩ := bind_eq_ok.1 h
  obtain ⟨_, -, h⟩ := bind_eq_ok.1 h
  obtain ⟨_, hopt, h⟩ := bind_eq_ok.1 h
  obtain rfl := Except.ok.inj hopt
  obtain ⟨b', hb, h⟩ := bind_eq_ok.1 h
  obtain ⟨_, -, h⟩ := bind_eq_ok.1 h
  obtain rfl : b' = b := Except.ok.inj h
  exact ⟨flow, g, hflow, hg, hb⟩

/-- Without the optimization a batch is made from the graph that is built. -/
theorem of_plan_built (hs : Schema.ofRelations rs = .ok p.schema)
    (hoff : p.config.optimize = false) (h : (p.plan query).result = .ok b) :
    ∃ flow g, query.toPath = .ok flow ∧ (ofPath p.schema flow.path).result = .ok g ∧
      (Batch.ofGraph p.schema p.config g).result = .ok b ∧ g.Wired ∧ 0 < g.size := by
  obtain ⟨flow, g, hflow, hg, hb⟩ := of_plan h
  rw [planned, if_neg (by simp [hoff])] at hb
  exact ⟨flow, g, hflow, hg, hb, wired_of_ofPath hs hg, (root_of_ofPath hs hg).1⟩

theorem absorbs_planned (h : g.Wired) : ∃ ρ, Absorbs ρ g (p.planned g) := by
  unfold planned
  split
  · exact ⟨_, run_optimize.absorbs h⟩
  · exact ⟨_, .refl h⟩

/-- What holds of the graph that a batch is made from. -/
structure Sound (flow : NumberedPath) (g : JoinGraph) : Prop where
  wired : g.Wired
  joining : g.Joining
  root : flow.path.relation? = some (g.relation JoinGraph.root)

theorem sound_planned (hs : Schema.ofRelations rs = .ok p.schema)
    (hg : (ofPath p.schema flow.path).result = .ok g) : Sound flow (p.planned g) := by
  have hwired := wired_of_ofPath hs hg
  obtain ⟨ρ, hρ⟩ := absorbs_planned (p := p) hwired
  refine ⟨hρ.wired hwired, hρ.joining (joining_of_ofPath hs hg), ?_⟩
  rw [hρ.relation]
  exact (root_of_ofPath hs hg).2

end Planner

/-! ## A shop -/

/-- Customers with their orders and payments. -/
def shopRelations : List Relation :=
  [{ name := "Customer", columns := [⟨"Id", "int"⟩, ⟨"Name", "text"⟩], primaryKey := ["Id"]
     associations := [⟨"Orders", "Id", "Order", "CustomerId"⟩] },
    { name := "Order", columns := [⟨"Id", "int"⟩, ⟨"CustomerId", "int"⟩], primaryKey := ["Id"]
      associations := [⟨"Customer", "CustomerId", "Customer", "Id"⟩] },
    { name := "Payment", columns := [⟨"Id", "int"⟩, ⟨"CustomerId", "int"⟩], primaryKey := ["Id"]
      associations := [⟨"Customer", "CustomerId", "Customer", "Id"⟩] }]

/-- The schema of the shop. -/
def shop : Schema := ⟨shopRelations⟩

theorem ofRelations_shop : Schema.ofRelations shopRelations = .ok shop := by decide +kernel

/-- The customer of an order or a payment. -/
def customerOf (e : Expr) : Expr :=
  .member e (.association ⟨"Customer", "CustomerId", "Customer", "Id"⟩)

/-- The orders of a customer. -/
def ordersOf (e : Expr) : Expr :=
  .member e (.association ⟨"Orders", "Id", "Order", "CustomerId"⟩)

/-- For every order the orders of its customer. -/
def siblingOrders : Expr :=
  .selectMany (.table "Order") (.lambda ["o"] (ordersOf (customerOf (.param "o"))))

namespace Planner

/-- The row of an order. -/
def orderRow (id customer : Nat) : Row Nat := fun x => if x = "CustomerId" then customer else id

/-- A customer with two orders. -/
def twoOrders : Database Nat := fun relation =>
  if relation = "Order" then [orderRow 1 7, orderRow 2 7]
  else if relation = "Customer" then [fun _ => 7]
  else []

theorem keyed_twoOrders : twoOrders.Keyed shop := Database.keyed_of_relations (by decide)

end Planner
end FetchPlan
