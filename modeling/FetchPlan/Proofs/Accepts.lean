import FetchPlan.Proofs.Batch.Accepted

/-!
# Which queries have a plan

A query has a plan if its graph can be built and a batch can be made from the graph
(`plan_eq_ok`). Every connection of an optimized graph is a copy of a connection of the graph before,
between the same relations on the same fields, and so an optimization refuses nothing
(`plan_of_plan`).
-/

namespace FetchPlan

open JoinGraph

namespace JoinGraph

variable {s : Schema} {g g' : JoinGraph} {ρ : Nat → Nat}

/-- If all connections are keyed, so are those of a graph that absorbs the graph. -/
theorem Absorbs.keyed (h : Absorbs ρ g g') (hg : ∀ a, ∀ c ∈ g.connections a, g.Keyed s a c) :
    ∀ b, ∀ d ∈ g'.connections b, g'.Keyed s b d := by
  intro b d hd
  obtain ⟨-, a, c, hc, rfl, htarget, hfields⟩ := h.of_mem b d hd
  unfold Keyed
  rw [hfields, ← htarget, h.relation, h.relation, h.same, h.same]
  exact hg a c hc

end JoinGraph

namespace Planner

variable {p : Planner} {s : Schema} {config config' : Config} {query : Expr} {b : Batch}
  {rs : List Relation}

/-- The steps of a plan that succeeds, and that they are all there is to it. -/
theorem plan_eq_ok : (p.plan query).result = .ok b ↔
    ∃ flow g, query.toPath = .ok flow ∧ (ofPath p.schema flow.path).result = .ok g ∧
      (Batch.ofGraph p.schema p.config (p.planned g)).result = .ok b := by
  refine ⟨of_plan, ?_⟩
  rintro ⟨flow, g, hflow, hg, hb⟩
  unfold plan
  simp only [Traced.result_bind, result_optimized]
  exact bind_eq_ok.2 ⟨flow, hflow, bind_eq_ok.2 ⟨(), rfl, bind_eq_ok.2 ⟨g, hg, bind_eq_ok.2
    ⟨(), rfl, bind_eq_ok.2 ⟨_, rfl, bind_eq_ok.2 ⟨b, hb, rfl⟩⟩⟩⟩⟩⟩

/-- A query has a plan if its graph can be built and all connections to be followed are keyed. -/
theorem plan_eq_ok_iff_keyed (hs : Schema.ofRelations rs = .ok p.schema) :
    (∃ b, (p.plan query).result = .ok b) ↔
      ∃ flow g, query.toPath = .ok flow ∧ (ofPath p.schema flow.path).result = .ok g ∧
        ∀ a, (p.planned g).Reaches a → ∀ c ∈ (p.planned g).connections a,
          (p.planned g).Keyed p.schema a c := by
  have hiff : ∀ flow g, (ofPath p.schema flow).result = .ok g →
      ((∃ b, (Batch.ofGraph p.schema p.config (p.planned g)).result = .ok b) ↔
        ∀ a, (p.planned g).Reaches a → ∀ c ∈ (p.planned g).connections a,
          (p.planned g).Keyed p.schema a c) := by
    intro flow g hg
    have hwired := wired_of_ofPath hs hg
    obtain ⟨ρ, hρ⟩ := absorbs_planned (p := p) hwired
    exact Batch.exists_ofGraph_iff hs (hρ.wired hwired) (hρ.declared (declared_of_ofPath hs hg))
      (hρ.size ▸ (root_of_ofPath hs hg).1)
  constructor
  · rintro ⟨b, hb⟩
    obtain ⟨flow, g, hflow, hg, hb⟩ := of_plan hb
    exact ⟨flow, g, hflow, hg, (hiff flow.path g hg).1 ⟨b, hb⟩⟩
  · rintro ⟨flow, g, hflow, hg, hkeyed⟩
    obtain ⟨b, hb⟩ := (hiff flow.path g hg).2 hkeyed
    exact ⟨b, plan_eq_ok.2 ⟨flow, g, hflow, hg, hb⟩⟩

/-- A query that has a plan without the optimization has one with it, whatever the names are to look
like. -/
theorem plan_optimize_of_plan (hs : Schema.ofRelations rs = .ok s) (hoff : config.optimize = false)
    (hon : config'.optimize = true) (h : (plan ⟨s, config⟩ query).result = .ok b) :
    ∃ b', (plan ⟨s, config'⟩ query).result = .ok b' := by
  obtain ⟨flow, g, hflow, hg, hkeyed⟩ :=
    (plan_eq_ok_iff_keyed (p := ⟨s, config⟩) hs).1 ⟨b, h⟩
  rw [planned, if_neg (by simp [hoff])] at hkeyed
  -- All nodes of the graph that is built are reached, so all of its connections are keyed.
  have hall : ∀ a, ∀ c ∈ g.connections a, g.Keyed s a c := fun a c hc =>
    hkeyed a (reaches_of_ofPath hg a (lt_size_of_mem hc)) c hc
  have habs := run_optimize.absorbs (wired_of_ofPath hs hg)
  refine (plan_eq_ok_iff_keyed (p := ⟨s, config'⟩) hs).2 ⟨flow, g, hflow, hg, ?_⟩
  rw [planned, if_pos hon]
  exact fun a _ c hc => habs.keyed hall a c hc

theorem plan_optimize_siblingOrders :
    Schema.ofRelations shopRelations = .ok shop ∧
      ∃ b b', (plan ⟨shop, { optimize := false }⟩ siblingOrders).result = .ok b ∧
        (plan ⟨shop, { variableStem := "#rows" }⟩ siblingOrders).result = .ok b' := by
  have hok : (plan ⟨shop, { optimize := false }⟩ siblingOrders).result >>=
      (fun b => .ok b.fetches.length) = .ok 3 := by decide +kernel
  obtain ⟨b, hb, -⟩ := bind_eq_ok.1 hok
  have hon : ∃ b', (plan ⟨shop, { variableStem := "#rows" }⟩ siblingOrders).result = .ok b' :=
    plan_optimize_of_plan ofRelations_shop rfl rfl hb
  obtain ⟨b', hb'⟩ := hon
  exact ⟨ofRelations_shop, b, b', hb, hb'⟩

end Planner
end FetchPlan
