import FetchPlan.Proofs.JoinGraph.Views

/-!
# Well-formed graphs

The invariant of join graphs: connections lead to other nodes of the graph, and the fields that
they join are among the used fields at both ends (`Wired`). New nodes, fields and connections
preserve it, and so do connections that are turned round. The same holds of the fact that every
connection joins some fields (`Joining`). The least that is asked of a graph is that its connections
lead to nodes of it, be they loops or repetitions (`Bounded`).
-/

namespace FetchPlan.JoinGraph

variable {g g' : JoinGraph} {a b id owner index : Nat} {c d : Connection} {x : String}

/-- Connections lead to nodes of the graph. -/
def Bounded (g : JoinGraph) : Prop := ∀ a, ∀ c ∈ g.connections a, c.target < g.size

/-- Connections lead to other nodes of the graph, on fields that are used at both ends. -/
structure Wired (g : JoinGraph) : Prop where
  bounded : ∀ a, ∀ c ∈ g.connections a, c.target < g.size
  loopless : ∀ a, ∀ c ∈ g.connections a, c.target ≠ a
  sources : ∀ a, ∀ c ∈ g.connections a, ∀ x ∈ c.fields.sources, x ∈ g.used a
  targets : ∀ a, ∀ c ∈ g.connections a, ∀ x ∈ c.fields.targets, x ∈ g.used c.target

theorem wired_iff : g.Wired ↔ ∀ a ∈ g.ids, ∀ c ∈ g.connections a,
    c.target < g.size ∧ c.target ≠ a ∧ (∀ x ∈ c.fields.sources.toList, x ∈ g.used a) ∧
      ∀ x ∈ c.fields.targets.toList, x ∈ g.used c.target := by
  constructor
  · exact fun h a _ c hc => ⟨h.bounded a c hc, h.loopless a c hc, h.sources a c hc, h.targets a c hc⟩
  · intro h
    have hall := fun a c (hc : c ∈ g.connections a) => h a (mem_ids.2 (lt_size_of_mem hc)) c hc
    exact ⟨fun a c hc => (hall a c hc).1, fun a c hc => (hall a c hc).2.1,
      fun a c hc => (hall a c hc).2.2.1, fun a c hc => (hall a c hc).2.2.2⟩

instance : Decidable g.Wired := decidable_of_iff _ wired_iff.symm

/-- Every connection joins at least one pair of fields. -/
def Joining (g : JoinGraph) : Prop := ∀ a, ∀ c ∈ g.connections a, ∃ p, p ∈ c.fields

/-- A graph with more nodes and used fields, but no more connections, is wired too. -/
theorem Wired.of_subset (h : g.Wired) (hsize : g.size ≤ g'.size)
    (hused : ∀ n, ∀ x ∈ g.used n, x ∈ g'.used n)
    (hsub : ∀ a, ∀ c ∈ g'.connections a, c ∈ g.connections a) : g'.Wired where
  bounded a c hc := Nat.lt_of_lt_of_le (h.bounded a c (hsub a c hc)) hsize
  loopless a c hc := h.loopless a c (hsub a c hc)
  sources a c hc x hx := hused a x (h.sources a c (hsub a c hc) x hx)
  targets a c hc x hx := hused c.target x (h.targets a c (hsub a c hc) x hx)

/-- A graph of the same nodes and no more connections is bounded too. -/
theorem Bounded.of_subset (h : g.Bounded) (hsize : g'.size = g.size)
    (hsub : ∀ a, ∀ c ∈ g'.connections a, c ∈ g.connections a) : g'.Bounded :=
  fun a c hc => hsize ▸ h a c (hsub a c hc)

/-- Numbers that no node has have no connections. -/
theorem bounded_iff : g.Bounded ↔ ∀ a ∈ g.ids, ∀ c ∈ g.connections a, c.target < g.size :=
  ⟨fun h a _ => h a, fun h a c hc => h a (mem_ids.2 (lt_size_of_mem hc)) c hc⟩

instance : Decidable g.Bounded := decidable_of_iff _ bounded_iff.symm

/-- Only nodes of the graph are reached. -/
theorem Bounded.lt_size_of_reaches (h : g.Bounded) (hpos : 0 < g.size) {n : Nat}
    (hn : g.Reaches n) : n < g.size := by
  induction hn with
  | refl => exact hpos
  | tail _ hleads _ =>
    obtain ⟨c, hc, rfl⟩ := hleads
    exact h _ c hc

theorem Wired.lt_size_of_reaches (h : g.Wired) (hpos : 0 < g.size) {n : Nat} (hn : g.Reaches n) :
    n < g.size := Bounded.lt_size_of_reaches h.bounded hpos hn

/-! ## Nodes and fields -/

theorem connections_ofRoot {relation : String} : (ofRoot relation).connections a = [] := by
  cases a with
  | zero => rfl
  | succ a => exact connections_of_size_le (Nat.succ_le_succ (Nat.zero_le a))

theorem used_ofRoot {relation : String} : (ofRoot relation).used a = ∅ := by
  cases a with
  | zero => rfl
  | succ a => rfl

theorem wired_ofRoot {relation : String} : (ofRoot relation).Wired := by
  have hnil : ∀ a, ∀ c, c ∉ (ofRoot relation).connections a := fun a c hc => by
    rw [connections_ofRoot] at hc
    exact absurd hc List.not_mem_nil
  exact ⟨fun a c hc => absurd hc (hnil a c), fun a c hc => absurd hc (hnil a c),
    fun a c hc => absurd hc (hnil a c), fun a c hc => absurd hc (hnil a c)⟩

theorem joining_ofRoot {relation : String} : (ofRoot relation).Joining := by
  intro a c hc
  rw [connections_ofRoot] at hc
  exact absurd hc List.not_mem_nil

theorem Wired.addNode (h : g.Wired) (relation : String) : (g.addNode relation).Wired :=
  h.of_subset (by simp) (fun n x hx => used_addNode.symm ▸ hx) fun a c hc =>
    connections_addNode ▸ hc

theorem Joining.addNode (h : g.Joining) (relation : String) : (g.addNode relation).Joining :=
  fun a c hc => h a c (connections_addNode ▸ hc)

theorem Wired.use (h : g.Wired) (id : Nat) (fields : List String) : (g.use id fields).Wired :=
  h.of_subset (by simp) (fun n x hx => mem_used_use.2 (Or.inl hx)) fun a c hc =>
    connections_use ▸ hc

theorem Joining.use (h : g.Joining) (id : Nat) (fields : List String) :
    (g.use id fields).Joining := fun a c hc => h a c (connections_use ▸ hc)

/-! ## Connections -/

theorem Wired.link (h : g.Wired) (ho : owner < g.size) (hc : c.target < g.size)
    (hne : c.target ≠ owner) : (g.link owner c).Wired where
  bounded a d hd := by
    rw [size_link]
    rcases of_mem_connections_link hd with hd | ⟨-, rfl⟩
    · exact h.bounded a d hd
    · exact hc
  loopless a d hd := by
    rcases of_mem_connections_link hd with hd | ⟨rfl, rfl⟩
    · exact h.loopless a d hd
    · exact hne
  sources a d hd x hx := by
    rw [mem_used_link]
    rcases of_mem_connections_link hd with hd | ⟨rfl, rfl⟩
    · exact Or.inl (h.sources a d hd x hx)
    · exact Or.inr (Or.inl ⟨rfl, ho, hx⟩)
  targets a d hd x hx := by
    rw [mem_used_link]
    rcases of_mem_connections_link hd with hd | ⟨rfl, rfl⟩
    · exact Or.inl (h.targets a d hd x hx)
    · exact Or.inr (Or.inr ⟨rfl, hc, hx⟩)

theorem Wired.connect (h : g.Wired) (ho : owner < g.size) (hc : c.target < g.size)
    (hne : c.target ≠ owner) : (g.connect owner c).Wired := by
  rcases g.connect_cases owner c with ⟨-, hg⟩ | ⟨-, hg⟩
  · rwa [hg]
  · rw [hg]
    exact h.link ho hc hne

theorem Joining.connect (h : g.Joining) (hc : ∃ p, p ∈ c.fields) :
    (g.connect owner c).Joining := by
  intro a d hd
  rcases g.connect_cases owner c with ⟨-, hg⟩ | ⟨-, hg⟩
  · exact h a d (hg ▸ hd)
  · rw [hg] at hd
    rcases of_mem_connections_link hd with hd | ⟨-, rfl⟩
    · exact h a d hd
    · exact hc

/-- After an extension a connection is an old one, or the old one with one pair more. -/
theorem of_mem_connections_extend? {pair : FieldPair}
    (h : g.extend? owner index pair = some g') :
    ∃ e, (g.connections owner)[index]? = some e ∧
      (∀ a, ∀ d ∈ g'.connections a, d ∈ g.connections a ∨
        (a = owner ∧ d = { e with fields := e.fields.insert pair })) ∧
      g'.size = g.size ∧ ∀ n x, x ∈ g'.used n ↔ x ∈ g.used n ∨
        (owner = n ∧ n < g.size ∧ x = pair.source) ∨
        (e.target = n ∧ n < g.size ∧ x = pair.target) := by
  obtain ⟨e, he, rfl⟩ := extend?_eq_some h
  refine ⟨e, he, ?_, by simp, ?_⟩
  · intro a d hd
    rw [connections_use, connections_use, connections_setConnections] at hd
    split at hd
    · next ha =>
      obtain ⟨rfl, -⟩ := ha
      exact (List.mem_or_eq_of_mem_set hd).imp id fun hd => ⟨rfl, hd⟩
    · exact Or.inl hd
  · intro n x
    rw [mem_used_use, mem_used_use, used_setConnections, or_assoc]
    simp

theorem Wired.extend {pair : FieldPair} (h : g.Wired)
    (hg : g.extend? owner index pair = some g') : g'.Wired := by
  obtain ⟨e, hindex, hmem, hsize, hused⟩ := of_mem_connections_extend? hg
  have he : e ∈ g.connections owner := List.mem_of_getElem? hindex
  have hlt : owner < g.size := lt_size_of_mem he
  have hlt' : e.target < g.size := h.bounded owner e he
  refine ⟨?_, ?_, ?_, ?_⟩
  · intro a d hd
    rw [hsize]
    rcases hmem a d hd with hd | ⟨-, rfl⟩
    · exact h.bounded a d hd
    · exact hlt'
  · intro a d hd
    rcases hmem a d hd with hd | ⟨rfl, rfl⟩
    · exact h.loopless a d hd
    · exact h.loopless a e he
  · intro a d hd x hx
    rw [hused]
    rcases hmem a d hd with hd | ⟨rfl, rfl⟩
    · exact Or.inl (h.sources a d hd x hx)
    · obtain ⟨p, hp, rfl⟩ := FieldPairs.mem_sources.1 hx
      rcases OrderedSet.mem_insert.1 hp with rfl | hp
      · exact Or.inr (Or.inl ⟨rfl, hlt, rfl⟩)
      · exact Or.inl (h.sources a e he _ (FieldPairs.mem_sources.2 ⟨p, hp, rfl⟩))
  · intro a d hd x hx
    rw [hused]
    rcases hmem a d hd with hd | ⟨rfl, rfl⟩
    · exact Or.inl (h.targets a d hd x hx)
    · obtain ⟨p, hp, rfl⟩ := FieldPairs.mem_targets.1 hx
      rcases OrderedSet.mem_insert.1 hp with rfl | hp
      · exact Or.inr (Or.inr ⟨rfl, hlt', rfl⟩)
      · exact Or.inl (h.targets a e he _ (FieldPairs.mem_targets.2 ⟨p, hp, rfl⟩))

theorem Joining.extend {pair : FieldPair} (h : g.Joining)
    (hg : g.extend? owner index pair = some g') : g'.Joining := by
  obtain ⟨e, he, hmem, -, -⟩ := of_mem_connections_extend? hg
  intro a d hd
  rcases hmem a d hd with hd | ⟨-, rfl⟩
  · exact h a d hd
  · exact ⟨pair, OrderedSet.mem_insert.2 (Or.inl rfl)⟩

/-! ## Connections that are turned round -/

@[simp] theorem size_turn {f : Flip} : (g.turn f).size = g.size := by simp [turn]

@[simp] theorem relation_turn {f : Flip} : (g.turn f).relation id = g.relation id := by
  simp [turn]

@[simp] theorem used_turn {f : Flip} : (g.turn f).used id = g.used id := by simp [turn]

theorem Bounded.turn {f : Flip} (h : g.Bounded) (hf : g.flip? = some f) : (g.turn f).Bounded := by
  obtain ⟨hmem, -, -⟩ := flip?_eq_some hf
  intro a d hd
  rw [size_turn]
  rcases mem_connections_turn hd with hd | ⟨-, rfl⟩
  · exact h a d hd
  · exact lt_size_of_mem hmem

theorem Wired.turn {f : Flip} (h : g.Wired) (hf : g.flip? = some f) : (g.turn f).Wired := by
  obtain ⟨hmem, -, -⟩ := flip?_eq_some hf
  refine ⟨Bounded.turn h.bounded hf, ?_, ?_, ?_⟩
  · intro a d hd
    rcases mem_connections_turn hd with hd | ⟨rfl, rfl⟩
    · exact h.loopless a d hd
    · exact (h.loopless f.owner f.connection hmem).symm
  · intro a d hd x hx
    rw [used_turn]
    rcases mem_connections_turn hd with hd | ⟨rfl, rfl⟩
    · exact h.sources a d hd x hx
    · exact h.targets f.owner f.connection hmem x (FieldPairs.mem_sources_reversed.1 hx)
  · intro a d hd x hx
    rw [used_turn]
    rcases mem_connections_turn hd with hd | ⟨rfl, rfl⟩
    · exact h.targets a d hd x hx
    · exact h.sources f.owner f.connection hmem x (FieldPairs.mem_targets_reversed.1 hx)

theorem Joining.turn {f : Flip} (h : g.Joining) (hf : g.flip? = some f) :
    (g.turn f).Joining := by
  obtain ⟨hmem, -, -⟩ := flip?_eq_some hf
  intro a d hd
  rcases mem_connections_turn hd with hd | ⟨-, rfl⟩
  · exact h a d hd
  · obtain ⟨p, hp⟩ := h f.owner f.connection hmem
    exact ⟨p.swap, FieldPairs.mem_reversed.2 hp⟩

/-- If there is nothing to turn round, a graph is oriented already. -/
theorem orient_of_flip?_eq_none (h : g.flip? = none) : g.orient = ([], g) := by
  unfold orient
  cases g.size with
  | zero => rfl
  | succ rounds => rw [orientFor, h]

/-- What turning one connection round preserves holds of the oriented graph. -/
theorem orient_induction {P : JoinGraph → Prop} (h : P g)
    (step : ∀ g f, P g → g.flip? = some f → P (g.turn f)) : P g.orient.2 := by
  have hrun : ∀ rounds g, P g → P (orientFor rounds g).2 := by
    intro rounds
    induction rounds with
    | zero => exact fun g h => h
    | succ rounds ih =>
      intro g h
      rw [orientFor]
      split
      · exact h
      · next f hf => exact ih (g.turn f) (step g f h hf)
  exact hrun g.size g h

end FetchPlan.JoinGraph
