import FetchPlan.Proofs.JoinGraph.Views

/-!
# Connecting nodes twice

Two nodes are connected on two lists of fields, pair by pair. This adds a connection unless one of
them, in either direction, has the same pairs already, and then nothing that has these pairs is
added any more (`connect_twice`): neither the order of the pairs counts, nor how often they are
listed, nor from which end they are seen.
-/

namespace FetchPlan

/-! ## Pairs of fields -/

namespace FieldPairs

variable {ps : FieldPairs} {sources targets sources' targets' : List String}

/-- The pairs are those of two lists of fields, position by position. -/
def Pairs (ps : FieldPairs) (sources targets : List String) : Prop :=
  ∀ p, p ∈ ps ↔ (p.source, p.target) ∈ sources.zip targets

theorem pairs_iff : ps.Pairs sources targets ↔ ps = zip sources targets := by
  constructor
  · exact fun h => OrderedSet.ext_mem fun p => (h p).trans mem_zip.symm
  · rintro rfl
    exact fun p => mem_zip

theorem zip_eq_zip (h : ∀ p, p ∈ sources'.zip targets' ↔ p ∈ sources.zip targets) :
    zip sources' targets' = zip sources targets :=
  OrderedSet.ext_mem fun p => by rw [mem_zip, mem_zip, h]

end FieldPairs

namespace JoinGraph

open FieldPairs

variable {g g' : JoinGraph} {a b : Nat} {sources targets : List String}

/-- A connection joins the nodes on the pairs of two lists of fields, in either direction. -/
def JoinedPairwise (g : JoinGraph) (a b : Nat) (sources targets : List String) : Prop :=
  (∃ c ∈ g.connections a, c.target = b ∧ c.fields.Pairs sources targets) ∨
    ∃ c ∈ g.connections b, c.target = a ∧ c.fields.Pairs targets sources

/-- All that is changed by a new connection: it is the last one of its owner, and its fields are
used at both ends. -/
structure AddsConnection (g : JoinGraph) (a b : Nat) (sources targets : List String)
    (g' : JoinGraph) : Prop where
  size : g'.size = g.size
  relation : ∀ n, g'.relation n = g.relation n
  used : ∀ n x, x ∈ g'.used n ↔ x ∈ g.used n ∨ (n = a ∧ x ∈ sources) ∨ (n = b ∧ x ∈ targets)
  connections : ∃ c : Connection, c.target = b ∧ c.fields.Pairs sources targets ∧
    ∀ n, g'.connections n = if n = a then g.connections n ++ [c] else g.connections n

theorem joinedPairwise_iff :
    g.JoinedPairwise a b sources targets ↔ g.Joined a b (zip sources targets) := by
  have key : ∀ n m (fields : FieldPairs),
      (∃ c ∈ g.connections n, c.target = m ∧ c.fields = fields) ↔ ⟨m, fields⟩ ∈ g.connections n := by
    intro n m fields
    constructor
    · rintro ⟨⟨_, _⟩, hc, rfl, rfl⟩
      exact hc
    · exact fun h => ⟨_, h, rfl, rfl⟩
  unfold JoinedPairwise Joined
  simp only [pairs_iff, key, reversed_zip]

theorem addsConnection_link (ha : a < g.size) (hb : b < g.size)
    (hlength : sources.length = targets.length) :
    g.AddsConnection a b sources targets (g.link a ⟨b, zip sources targets⟩) where
  size := size_link
  relation _ := relation_link
  used n x := by
    rw [mem_used_link, mem_sources_zip hlength, mem_targets_zip hlength]
    constructor
    · rintro (h | ⟨rfl, -, h⟩ | ⟨rfl, -, h⟩)
      · exact Or.inl h
      · exact Or.inr (Or.inl ⟨rfl, h⟩)
      · exact Or.inr (Or.inr ⟨rfl, h⟩)
    · rintro (h | ⟨rfl, h⟩ | ⟨rfl, h⟩)
      · exact Or.inl h
      · exact Or.inr (Or.inl ⟨rfl, ha, h⟩)
      · exact Or.inr (Or.inr ⟨rfl, hb, h⟩)
  connections := by
    refine ⟨⟨b, zip sources targets⟩, rfl, pairs_iff.2 rfl, fun n => ?_⟩
    rw [connections_link]
    by_cases hn : n = a
    · rw [if_pos ⟨hn.symm, hn ▸ ha⟩, if_pos hn]
    · rw [if_neg fun h => hn h.1.symm, if_neg hn]

/-- Nodes that have been connected are joined. -/
theorem joined_connect_self {c : Connection} (ha : a < g.size) :
    (g.connect a c).Joined a c.target c.fields := by
  rcases g.connect_cases a c with ⟨hjoined, heq⟩ | ⟨-, heq⟩
  · rw [heq]
    exact hjoined
  · rw [heq]
    refine Or.inl ?_
    rw [connections_link, if_pos ⟨rfl, ha⟩]
    exact List.mem_append_right _ (List.mem_singleton_self c)

theorem connect?_eq_none {c : Connection} :
    g.connect? a c = none ↔ g.Joined a c.target c.fields := by
  unfold connect?
  rw [← isJoined_iff]
  split
  · next h => simp [h]
  · next h => simp [h]

/-- Connecting two nodes adds a connection iff no connection joins them on the same pairs, in either
direction, and else changes nothing. After it, nothing is added or changed by connecting them on the
same pairs again, in whatever order and however often they are listed, from either end. -/
theorem connect_twice (ha : a < g.size) (hb : b < g.size)
    (hlength : sources.length = targets.length) :
    ((g.connect? a ⟨b, zip sources targets⟩).isSome = true ↔
      ¬ g.JoinedPairwise a b sources targets) ∧
    (∀ g', g.connect? a ⟨b, zip sources targets⟩ = some g' →
      g.connect a ⟨b, zip sources targets⟩ = g' ∧ g.AddsConnection a b sources targets g') ∧
    (g.connect? a ⟨b, zip sources targets⟩ = none →
      g.connect a ⟨b, zip sources targets⟩ = g) ∧
    ∀ sources' targets' : List String,
      (∀ p, p ∈ sources'.zip targets' ↔ p ∈ sources.zip targets) →
      let g' := g.connect a ⟨b, zip sources targets⟩
      (g'.connect? a ⟨b, zip sources' targets'⟩ = none ∧
        g'.connect a ⟨b, zip sources' targets'⟩ = g') ∧
      g'.connect? b ⟨a, zip targets' sources'⟩ = none ∧
        g'.connect b ⟨a, zip targets' sources'⟩ = g' := by
  refine ⟨?_, ?_, ?_, ?_⟩
  · rw [joinedPairwise_iff, ← Option.ne_none_iff_isSome, Ne, connect?_eq_none]
  · intro g' hg'
    obtain ⟨-, rfl⟩ := connect?_eq_some.1 hg'
    refine ⟨?_, addsConnection_link ha hb hlength⟩
    rw [connect, hg']
    rfl
  · exact fun hnone => connect_of_joined (connect?_eq_none.1 hnone)
  · intro sources' targets' hsame g'
    have hjoined : g'.Joined a b (zip sources' targets') := by
      rw [zip_eq_zip hsame]
      exact joined_connect_self ha
    have hback : g'.Joined b a (zip targets' sources') := by
      rw [← reversed_zip]
      exact hjoined.symm
    exact ⟨⟨connect?_eq_none.2 hjoined, connect_of_joined hjoined⟩,
      connect?_eq_none.2 hback, connect_of_joined hback⟩

/-- The items of an order, by a key of two fields. From the items the same pairs are seen in another
order. -/
theorem connect_twice_items :
    let g := (ofRoot "Order").addNode "Item"
    let g' := g.connect 0 ⟨1, zip ["Year", "Number"] ["OrderYear", "OrderNumber"]⟩
    0 < g.size ∧ 1 < g.size ∧
      g.AddsConnection 0 1 ["Year", "Number"] ["OrderYear", "OrderNumber"] g' ∧
      (∀ p, p ∈ ["Number", "Year", "Number"].zip ["OrderNumber", "OrderYear", "OrderNumber"] ↔
        p ∈ ["Year", "Number"].zip ["OrderYear", "OrderNumber"]) ∧
      g'.connect? 1
          ⟨0, zip ["OrderNumber", "OrderYear", "OrderNumber"] ["Number", "Year", "Number"]⟩ =
        none := by
  intro g g'
  have hroot : 0 < g.size := by decide
  have hitem : 1 < g.size := by decide
  have hsame : ∀ p,
      p ∈ ["Number", "Year", "Number"].zip ["OrderNumber", "OrderYear", "OrderNumber"] ↔
        p ∈ ["Year", "Number"].zip ["OrderYear", "OrderNumber"] := by
    simp [or_comm]
  have hlength : ["Year", "Number"].length = ["OrderYear", "OrderNumber"].length := rfl
  obtain ⟨-, hadds, -, hagain⟩ := connect_twice (g := g) hroot hitem hlength
  exact ⟨hroot, hitem, (hadds g' rfl).2, hsame, (hagain _ _ hsame).2.1⟩

end JoinGraph
end FetchPlan
