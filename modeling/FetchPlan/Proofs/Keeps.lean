import FetchPlan.Proofs.Batch.Staged
import FetchPlan.Proofs.Planned

/-!
# What an optimization keeps

After an optimization a node stands for every node of the graph, with its relation and its fields.
Whether it is fetched is another matter: a connection that is left out because its ends are joined
the other way round can have been the only way to one of them. Nothing is lost exactly if no
connection of the optimized graph leads from an unreached node to a reached one, which is what
orienting would turn round (`keeps_iff`).
-/

namespace FetchPlan

namespace JoinGraph

variable {g g' : JoinGraph} {ρ : Nat → Nat} {n : Nat}

/-- A node that is reached in `g'` has the relation of `n` and all the fields it used. -/
def Keeps (g g' : JoinGraph) (n : Nat) : Prop :=
  ∃ m, g'.Reaches m ∧ g'.relation m = g.relation n ∧ ∀ x ∈ g.used n, x ∈ g'.used m

theorem Absorbs.keeps (h : Absorbs ρ g g') (hn : g'.Reaches (ρ n)) : g.Keeps g' n :=
  ⟨ρ n, hn, (h.relation (ρ n)).trans (h.same n), h.used n⟩

/-- If there is nothing to turn round, what stands for reached nodes is reached. -/
theorem Absorbs.reaches (h : Absorbs ρ g g') (hflip : g'.flip? = none) (hn : g.Reaches n) :
    g'.Reaches (ρ n) := by
  induction hn with
  | refl =>
    show g'.Reaches (ρ JoinGraph.root)
    rw [h.root]
    exact reaches_root
  | tail _ hleads ih =>
    obtain ⟨c, hc, rfl⟩ := hleads
    rcases h.joined _ c hc with heq | hj | hj
    · exact heq ▸ ih
    · exact ih.step hj
    · -- The connection leads the other way: its owner is reached all the same.
      by_contra hnot
      exact not_reaches_of_flip?_eq_none hflip hnot hj ih

/-- If what stands for every node is reached, there is nothing to turn round. -/
theorem Absorbs.flip?_eq_none (h : Absorbs ρ g g') (hall : ∀ n < g.size, g'.Reaches (ρ n)) :
    g'.flip? = none := by
  cases hf : g'.flip? with
  | none => rfl
  | some f =>
    obtain ⟨hmem, hnot, -⟩ := flip?_eq_some hf
    obtain ⟨-, a, c, hc, heq, -⟩ := h.of_mem _ _ hmem
    exact absurd (heq ▸ hall a (lt_size_of_mem hc)) hnot

/-- Every node is kept exactly if each one is kept by its representative or by another node. -/
theorem Absorbs.keeps_iff (h : Absorbs ρ g g') : (∀ n < g.size, g.Keeps g' n) ↔
    ∀ n < g.size, g'.Reaches (ρ n) ∨ ∃ m, m ≠ ρ n ∧ g'.Reaches m ∧
      g'.relation m = g.relation n ∧ ∀ x ∈ g.used n, x ∈ g'.used m := by
  constructor
  · intro hkeeps n hn
    by_cases hreach : g'.Reaches (ρ n)
    · exact Or.inl hreach
    · obtain ⟨m, hm, hrest⟩ := hkeeps n hn
      exact Or.inr ⟨m, fun heq => hreach (heq ▸ hm), hm, hrest⟩
  · intro hor n hn
    rcases hor n hn with hreach | ⟨m, -, hm, hrest⟩
    · exact h.keeps hreach
    · exact ⟨m, hm, hrest⟩

end JoinGraph

namespace Planner

open JoinGraph

variable {s : Schema} {rs : List Relation} {query : Expr} {flow : NumberedPath} {g : JoinGraph}

/-- What an optimization keeps of a graph that is built. The heirs of all nodes are reached exactly
if there is nothing to turn round in the optimized graph; every node is kept exactly if its heir is
reached or another node happens to cover it; and if there is nothing to turn round, every relation
that is fetched without the optimization is fetched with it. -/
theorem optimize_keeps_iff (hs : Schema.ofRelations rs = .ok s) (hflow : query.toPath = .ok flow)
    (hg : (ofPath s flow.path).result = .ok g) :
    (g.optimize.graph.flip? = none ↔
        ∀ n < g.size, g.optimize.graph.Reaches (heir g.optimize.contractions n)) ∧
      ((∀ n < g.size, g.Keeps g.optimize.graph n) ↔
        ∀ n < g.size, g.optimize.graph.Reaches (heir g.optimize.contractions n) ∨
          ∃ m, m ≠ heir g.optimize.contractions n ∧ g.optimize.graph.Reaches m ∧
            g.optimize.graph.relation m = g.relation n ∧
            ∀ x ∈ g.used n, x ∈ g.optimize.graph.used m) ∧
      (g.optimize.graph.flip? = none →
        ∀ c c' b b', c.optimize = false → c'.optimize = true →
          (plan ⟨s, c⟩ query).result = .ok b → (plan ⟨s, c'⟩ query).result = .ok b' →
          ∀ relation ∈ b.fetches.map Fetch.relation, relation ∈ b'.fetches.map Fetch.relation) := by
  have hwired := wired_of_ofPath hs hg
  have hall := reaches_of_ofPath hg
  have habs : Absorbs (heir g.optimize.contractions) g g.optimize.graph :=
    run_optimize.absorbs hwired
  refine ⟨⟨fun hflip n hn => habs.reaches hflip (hall n hn), habs.flip?_eq_none⟩, habs.keeps_iff, ?_⟩
  intro hflip c c' b b' hc hc' hb hb' relation hmem
  obtain ⟨flow₁, g₁, hflow₁, hg₁, hb⟩ := of_plan hb
  obtain ⟨flow₂, g₂, hflow₂, hg₂, hb'⟩ := of_plan hb'
  -- Both plans go through the same graph.
  obtain rfl := Except.ok.inj (hflow.symm.trans hflow₁)
  obtain rfl := Except.ok.inj (hflow.symm.trans hflow₂)
  obtain rfl := Except.ok.inj (hg.symm.trans hg₁)
  obtain rfl := Except.ok.inj (hg.symm.trans hg₂)
  rw [planned, if_neg (by simp [hc])] at hb
  rw [planned, if_pos hc'] at hb'
  obtain ⟨n, hn, rfl⟩ := (Batch.mem_relations hb).1 hmem
  refine (Batch.mem_relations hb').2 ⟨_, habs.reaches hflip hn, ?_⟩
  exact (habs.relation _).trans (habs.same n)

theorem optimize_keeps_siblingOrders :
    Schema.ofRelations shopRelations = .ok shop ∧ ∃ flow g, siblingOrders.toPath = .ok flow ∧
      (ofPath shop flow.path).result = .ok g ∧ g.optimize.graph.flip? = none ∧
      ∀ n < g.size, g.Keeps g.optimize.graph n := by
  have hcheck : (siblingOrders.toPath >>= fun flow => (ofPath shop flow.path).result >>= fun g =>
      .ok g.optimize.graph.flip?.isNone) = .ok true := by decide +kernel
  obtain ⟨flow, hflow, h⟩ := bind_eq_ok.1 hcheck
  obtain ⟨g, hg, h⟩ := bind_eq_ok.1 h
  have hflip := Option.isNone_iff_eq_none.1 (Except.ok.inj h)
  obtain ⟨hheirs, hkeeps, -⟩ := optimize_keeps_iff ofRelations_shop hflow hg
  refine ⟨ofRelations_shop, flow, g, hflow, hg, hflip, hkeeps.2 ?_⟩
  intro n hn
  exact Or.inl (hheirs.1 hflip n hn)

/-- Payments whose customer is the customer of one of the orders of the customer. -/
def paymentsWithOrders : Expr :=
  .filter (.table "Payment") <| .lambda ["p"] <|
    .any (customerOf (.param "p")) <| .lambda ["k"] <|
      .binary .eq (.member (ordersOf (customerOf (.param "p"))) (.column "CustomerId"))
        (.member (.param "k") (.column "Id"))

/-- The orders are fetched without the optimization, and are lost with it. -/
theorem optimize_loses_orders :
    Schema.ofRelations shopRelations = .ok shop ∧
    (∃ flow g n, paymentsWithOrders.toPath = .ok flow ∧ (ofPath shop flow.path).result = .ok g ∧
      n < g.size ∧ ¬ g.Keeps g.optimize.graph n) ∧
    ∃ b b', (plan ⟨shop, { optimize := false }⟩ paymentsWithOrders).result = .ok b ∧
      (plan ⟨shop, {}⟩ paymentsWithOrders).result = .ok b' ∧
      "Order" ∈ b.fetches.map Fetch.relation ∧ "Order" ∉ b'.fetches.map Fetch.relation := by
  refine ⟨ofRelations_shop, ?_, ?_⟩
  · have hcheck : (paymentsWithOrders.toPath >>= fun flow =>
        (ofPath shop flow.path).result >>= fun g => .ok (decide (3 < g.size), g.relation 3,
          g.optimize.graph.reachable.map g.optimize.graph.relation)) =
        .ok (true, "Order", ["Payment", "Customer"]) := by decide +kernel
    obtain ⟨flow, hflow, h⟩ := bind_eq_ok.1 hcheck
    obtain ⟨g, hg, h⟩ := bind_eq_ok.1 h
    obtain ⟨hlt, h⟩ := Prod.mk.inj (Except.ok.inj h)
    obtain ⟨horder, hrelations⟩ := Prod.mk.inj h
    refine ⟨flow, g, 3, hflow, hg, of_decide_eq_true hlt, ?_⟩
    intro hkeeps
    obtain ⟨m, hm, hrelation, -⟩ := hkeeps
    have hmem := List.mem_map_of_mem (f := g.optimize.graph.relation) (mem_reachable.2 hm)
    rw [hrelations, hrelation, horder] at hmem
    exact absurd hmem (by decide)
  · have hoff : (plan ⟨shop, { optimize := false }⟩ paymentsWithOrders).result >>=
        (fun b => .ok (b.fetches.map Fetch.relation)) =
        .ok ["Payment", "Customer", "Customer", "Order"] := by decide +kernel
    have hon : (plan ⟨shop, {}⟩ paymentsWithOrders).result >>=
        (fun b => .ok (b.fetches.map Fetch.relation)) = .ok ["Payment", "Customer"] := by
      decide +kernel
    obtain ⟨b, hb, hrelations⟩ := bind_eq_ok.1 hoff
    obtain ⟨b', hb', hrelations'⟩ := bind_eq_ok.1 hon
    refine ⟨b, b', hb, hb', ?_, ?_⟩
    · rw [Except.ok.inj hrelations]
      decide
    · rw [Except.ok.inj hrelations']
      decide

end Planner
end FetchPlan
