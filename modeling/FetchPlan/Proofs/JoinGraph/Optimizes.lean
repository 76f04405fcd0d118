import FetchPlan.Proofs.Exhausts
import FetchPlan.Proofs.JoinGraph.Contracts

/-!
# Optimizing comes to an end

Contracting, sweeping and repeating the sweeps as three loops without budgets (`Exhausts`,
`Sweeps`, `Optimizes`). In a graph whose connections lead to nodes of it, whatever loops and
repetitions there are, they come to an end, and they come to that of the loops with budgets. At
the end of the last sweep nothing is left to contract at any node that is reached (`Settled`), and a
graph that is settled is its own optimum (`optimize_of_settled`).
-/

namespace FetchPlan.JoinGraph

variable {g g' g'' : JoinGraph} {budget id : Nat} {ids : List Nat} {xs ys : List Contraction}
  {r r' : Optimized}

/-! ## The loops -/

/-- It is contracted at each of the nodes that is reached when its turn comes, until there is
nothing left to contract there. -/
inductive Sweeps : List Nat → JoinGraph → List Contraction → JoinGraph → Prop
  | nil {g : JoinGraph} : Sweeps [] g [] g
  | cut {g g' : JoinGraph} {id : Nat} {ids : List Nat} {xs : List Contraction}
      (cutOff : ¬ g.Reaches id) (rest : Sweeps ids g xs g') : Sweeps (id :: ids) g xs g'
  | settle {g g' g'' : JoinGraph} {id : Nat} {ids : List Nat} {xs ys : List Contraction}
      (reached : g.Reaches id) (here : Exhausts (contractionAt? · id) Contraction.apply g xs g')
      (rest : Sweeps ids g' ys g'') : Sweeps (id :: ids) g (xs ++ ys) g''

/-- Sweeps over the nodes that are reached are repeated until one of them does nothing. -/
inductive Optimizes : JoinGraph → Optimized → Prop
  | idle {g g' : JoinGraph} (swept : Sweeps g.reachable g [] g') : Optimizes g ⟨[], 1, g'⟩
  | again {g g' : JoinGraph} {xs : List Contraction} {r : Optimized}
      (swept : Sweeps g.reachable g xs g') (progress : xs ≠ []) (rest : Optimizes g' r) :
      Optimizes g ⟨xs ++ r.contractions, r.sweeps + 1, r.graph⟩

/-! ## One end only -/

theorem Sweeps.unique (h : Sweeps ids g xs g') (h' : Sweeps ids g ys g'') :
    xs = ys ∧ g' = g'' := by
  induction h generalizing ys g'' with
  | nil =>
    cases h' with
    | nil => exact ⟨rfl, rfl⟩
  | cut cutOff _ ih =>
    cases h' with
    | cut _ rest' => exact ih rest'
    | settle reached _ _ => exact absurd reached cutOff
  | settle reached here _ ih =>
    cases h' with
    | cut cutOff _ => exact absurd reached cutOff
    | settle _ here' rest' =>
      obtain ⟨rfl, rfl⟩ := here.unique here'
      obtain ⟨rfl, rfl⟩ := ih rest'
      exact ⟨rfl, rfl⟩

theorem Optimizes.unique (h : Optimizes g r) (h' : Optimizes g r') : r = r' := by
  induction h generalizing r' with
  | idle swept =>
    cases h' with
    | idle swept' => rw [(swept.unique swept').2]
    | again swept' progress _ => exact absurd (swept.unique swept').1.symm progress
  | again swept progress _ ih =>
    cases h' with
    | idle swept' => exact absurd (swept.unique swept').1 progress
    | again swept' _ rest' =>
      obtain ⟨rfl, rfl⟩ := swept.unique swept'
      rw [ih rest']

/-! ## The budgets are enough -/

theorem settle_eq : settle budget g id =
    exhaust (contractionAt? · id) Contraction.apply budget g := by
  induction budget generalizing g with
  | zero => rfl
  | succ budget ih =>
    cases hx : g.contractionAt? id with
    | none => simp only [settle, exhaust, hx]
    | some x => simp only [settle, exhaust, hx, ih]

/-- With every contraction a connection is gone, so there are at most as many of them. -/
theorem exhausts_settle (h : g.Bounded) : Exhausts (contractionAt? · id) Contraction.apply g
    (settle g.totalConnections g id).1 (settle g.totalConnections g id).2 := by
  rw [settle_eq]
  exact exhausts_exhaust (P := Bounded) (m := totalConnections)
    (fun _ _ hg hx => ⟨hg.apply hx, totalConnections_apply_lt hg hx⟩) h (Nat.le_refl _)

theorem sweeps_sweepOver (h : g.Bounded) :
    Sweeps ids g (sweepOver ids g).1 (sweepOver ids g).2 := by
  induction ids generalizing g with
  | nil => exact .nil
  | cons id ids ih =>
    rw [sweepOver]
    split
    · next hreach =>
      have hrun : Run g _ (settle g.totalConnections g id).2 := run_settle
      exact .settle (isReachable_iff.1 hreach) (exhausts_settle h) (ih (hrun.bounded h))
    · next hreach => exact .cut (fun hid => hreach (isReachable_iff.2 hid)) (ih h)

theorem optimizes_optimizeFor (h : g.Bounded) (hb : g.totalConnections < budget) :
    Optimizes g (optimizeFor budget g) := by
  induction budget generalizing g with
  | zero => exact absurd hb (Nat.not_lt_zero _)
  | succ budget ih =>
    have hswept : Sweeps g.reachable g g.sweep.1 g.sweep.2 := sweeps_sweepOver h
    have hrun : Run g g.sweep.1 g.sweep.2 := run_sweepOver
    unfold optimizeFor
    split
    · next g' hg' =>
      rw [hg'] at hswept
      exact .idle hswept
    · next done g' hdone hg' =>
      rw [hg'] at hswept hrun
      have hne : done ≠ [] := fun hnil => hdone (by rw [hnil])
      have hpos : 0 < done.length := List.length_pos_iff.2 hne
      have hlength : done.length + g'.totalConnections ≤ g.totalConnections := hrun.length_le h
      have hrest : Optimizes g' (optimizeFor budget g') := ih (hrun.bounded h) (by omega)
      exact .again hswept hne hrest

/-- The loops without budgets come to an end, the same as with budgets. -/
theorem optimizes_optimize (h : g.Bounded) : Optimizes g g.optimize :=
  optimizes_optimizeFor h (Nat.lt_succ_self _)

/-! ## Nothing is left to contract -/

/-- A sweep that does nothing has looked at every node it was to visit. -/
theorem Sweeps.of_idle (h : Sweeps ids g xs g') (hidle : xs = []) :
    g' = g ∧ ∀ id ∈ ids, g.Reaches id → g.contractionAt? id = none := by
  induction h with
  | nil => exact ⟨rfl, fun id hid => absurd hid List.not_mem_nil⟩
  | cut cutOff _ ih =>
    obtain ⟨hgraph, hall⟩ := ih hidle
    refine ⟨hgraph, ?_⟩
    intro id hid hreach
    rcases List.mem_cons.1 hid with rfl | hid
    · exact absurd hreach cutOff
    · exact hall id hid hreach
  | settle _ here _ ih =>
    obtain ⟨rfl, hrest⟩ := List.append_eq_nil_iff.1 hidle
    cases here with
    | stop nothing =>
      obtain ⟨hgraph, hall⟩ := ih hrest
      refine ⟨hgraph, ?_⟩
      intro id hid hreach
      rcases List.mem_cons.1 hid with rfl | hid
      · exact nothing
      · exact hall id hid hreach

/-- The last sweep has looked at every node that is reached in the end. -/
theorem Optimizes.settled (h : Optimizes g r) : r.graph.Settled := by
  induction h with
  | idle swept =>
    obtain ⟨rfl, hall⟩ := swept.of_idle rfl
    intro id hid
    exact hall id (mem_reachable.2 hid) hid
  | again _ _ _ ih => exact ih

/-- Optimizing leaves nothing to contract. -/
theorem settled_optimize (h : g.Wired) : g.optimize.graph.Settled :=
  (optimizes_optimize h.bounded).settled

/-- A sweep finds nothing in a settled graph. -/
theorem Settled.sweeps (h : g.Settled) : Sweeps ids g [] g := by
  induction ids with
  | nil => exact .nil
  | cons id ids ih =>
    by_cases hid : g.Reaches id
    · exact .settle hid (.stop (h id hid)) ih
    · exact .cut hid ih

/-- Optimizing leaves a settled graph as it is. -/
theorem optimize_of_settled (h : g.Bounded) (hsettled : g.Settled) : g.optimize = ⟨[], 1, g⟩ :=
  (optimizes_optimize h).unique (.idle hsettled.sweeps)

/-- Optimizing ends, whatever the graph is like: the loops without budgets have one result, which
is that of the loops with budgets. There were no more contractions than connections, and
optimizing the result finds nothing in it and leaves it as it is. -/
theorem optimizes_iff_eq_optimize (h : g.Bounded) :
    (∀ r, Optimizes g r ↔ r = g.optimize) ∧
      g.optimize.contractions.length ≤ g.totalConnections ∧
      g.optimize.graph.optimize = ⟨[], 1, g.optimize.graph⟩ := by
  have hresult : Optimizes g g.optimize := optimizes_optimize h
  have hrun : Run g g.optimize.contractions g.optimize.graph := run_optimize
  refine ⟨fun r => ⟨fun hr => hr.unique hresult, ?_⟩, ?_, ?_⟩
  · rintro rfl
    exact hresult
  · exact Nat.le_trans (Nat.le_add_right _ _) (hrun.length_le h)
  · exact optimize_of_settled (hrun.bounded h) hresult.settled

/-- Customers with their orders, three times. Some of these lead back to the customers and to
orders that follow them, which are themselves, and some lead on to other customers. -/
def tangledOrders : JoinGraph :=
  let orders : FieldPairs := .zip ["Id"] ["CustomerId"]
  let following : FieldPairs := .zip ["Id"] ["PreviousId"]
  ⟨#[{ relation := "Customer", connections := [⟨1, orders⟩, ⟨2, orders⟩, ⟨2, orders⟩] },
    { relation := "Order", connections := [⟨0, orders.reversed⟩, ⟨1, following⟩] },
    { relation := "Order", connections := [⟨3, orders.reversed⟩, ⟨1, following⟩] },
    { relation := "Customer", connections := [⟨1, orders⟩] }]⟩

theorem optimizes_tangledOrders :
    tangledOrders.Bounded ∧ (∀ r, Optimizes tangledOrders r ↔ r = tangledOrders.optimize) ∧
      tangledOrders.optimize.contractions.length ≤ tangledOrders.totalConnections ∧
      tangledOrders.optimize.graph.optimize = ⟨[], 1, tangledOrders.optimize.graph⟩ := by
  have hbounded : tangledOrders.Bounded := by decide +kernel
  exact ⟨hbounded, optimizes_iff_eq_optimize hbounded⟩

end FetchPlan.JoinGraph
