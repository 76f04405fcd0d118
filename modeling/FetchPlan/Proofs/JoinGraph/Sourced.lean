import FetchPlan.Proofs.JoinGraph.Navigated
import FetchPlan.Proofs.Query.RowSources

/-!
# The nodes of a graph as row sources

While a graph is built, its nodes stand for the row sources that are met, in order (`Sourced`). If
associations are all that joins nodes, each connection leads from the source that an association
is followed from to the source it leads to (`Follows`).
-/

namespace FetchPlan.JoinGraph

variable {g g' : JoinGraph} {sources : List RowSource} {source : RowSource} {id origin : Nat}

/-- The nodes of the graph are of the relations of these sources, one by one, and the root stands
for a relation of the query. -/
structure Sourced (g : JoinGraph) (sources : List RowSource) : Prop where
  relations : g.ids.map g.relation = sources.map RowSource.relation
  root : ∃ relation, sources[0]? = some (.table relation)

/-- Every connection leads on by an association, from the source that it is followed from. -/
structure Follows (g : JoinGraph) (sources : List RowSource) : Prop where
  wired : g.Wired
  steps : ∀ a, ∀ c ∈ g.connections a, ∃ source assoc, sources[a]? = some source ∧
    sources[c.target]? = some (.step source assoc) ∧
    c.fields = FieldPairs.zip [assoc.thisKey] [assoc.otherKey]

/-! ## Relations -/

theorem Sourced.size (h : g.Sourced sources) : g.size = sources.length := by
  have hlength := congrArg List.length h.relations
  rwa [List.length_map, List.length_map, ids, List.length_range] at hlength

theorem Sourced.pos (h : g.Sourced sources) : 0 < sources.length := by
  obtain ⟨relation, hroot⟩ := h.root
  exact (List.getElem?_eq_some_iff.1 hroot).1

theorem Sourced.relation (h : g.Sourced sources) (hid : sources[id]? = some source) :
    g.relation id = source.relation := by
  have hlt : id < g.size := h.size ▸ (List.getElem?_eq_some_iff.1 hid).1
  have hmap : (g.ids.map g.relation)[id]? = (sources.map RowSource.relation)[id]? := by
    rw [h.relations]
  rw [List.getElem?_map, List.getElem?_map, hid, ids, List.getElem?_range hlt] at hmap
  exact Option.some.inj hmap

theorem sourced_ofRoot {relation : String} : (ofRoot relation).Sourced [.table relation] :=
  ⟨rfl, relation, rfl⟩

/-- Only the relations of the nodes play a part. -/
theorem Sourced.of_relation_eq (h : g.Sourced sources) (hsize : g'.size = g.size)
    (hrelation : ∀ id, g'.relation id = g.relation id) : g'.Sourced sources := by
  refine ⟨?_, h.root⟩
  rw [← h.relations, ids, ids, hsize]
  exact List.map_congr_left fun id _ => hrelation id

theorem Sourced.addNode (h : g.Sourced sources) (source : RowSource) :
    (g.addNode source.relation).Sourced (sources ++ [source]) := by
  refine ⟨?_, ?_⟩
  · have hold : (List.range g.size).map (g.addNode source.relation).relation =
        sources.map RowSource.relation := by
      rw [← h.relations]
      refine List.map_congr_left fun id hid => ?_
      rw [relation_addNode, if_neg (Nat.ne_of_lt (List.mem_range.1 hid))]
    rw [ids, size_addNode, List.range_succ, List.map_append, List.map_append, hold,
      List.map_singleton, List.map_singleton, relation_addNode, if_pos rfl]
  · obtain ⟨relation, hroot⟩ := h.root
    exact ⟨relation, (List.getElem?_append_left h.pos).trans hroot⟩

/-- Turning connections round leaves the nodes as they are. -/
theorem Sourced.orient (h : g.Sourced sources) : g.orient.2.Sourced sources := by
  refine orient_induction (P := (Sourced · sources)) h ?_
  intro g f hg _
  exact hg.of_relation_eq size_turn fun _ => relation_turn

/-! ## Connections -/

theorem follows_ofRoot {relation : String} : (ofRoot relation).Follows sources := by
  refine ⟨wired_ofRoot, ?_⟩
  intro a c hc
  rw [connections_ofRoot] at hc
  exact absurd hc List.not_mem_nil

theorem Follows.use (h : g.Follows sources) (id : Nat) (fields : List String) :
    (g.use id fields).Follows sources := by
  refine ⟨h.wired.use id fields, ?_⟩
  intro a c hc
  rw [connections_use] at hc
  exact h.steps a c hc

/-- Following an association adds its source. -/
theorem Follows.follow (h : g.Follows sources) (hs : g.Sourced sources)
    (horigin : sources[origin]? = some source) (a : Association) :
    ((g.addNode a.otherRelation).connect origin
      ⟨g.size, FieldPairs.zip [a.thisKey] [a.otherKey]⟩).Follows
        (sources ++ [.step source a]) := by
  have hlt : origin < g.size := hs.size ▸ (List.getElem?_eq_some_iff.1 horigin).1
  have hsize : g.size < (g.addNode a.otherRelation).size := by simp
  have hkeep : ∀ {id : Nat} {source' : RowSource}, sources[id]? = some source' →
      (sources ++ [.step source a])[id]? = some source' := by
    intro id source' hid
    exact (List.getElem?_append_left (List.getElem?_eq_some_iff.1 hid).1).trans hid
  refine ⟨(h.wired.addNode a.otherRelation).connect (Nat.lt_trans hlt hsize) hsize
    (Nat.ne_of_gt hlt), ?_⟩
  intro b c hc
  rcases (h.wired.mem_connections_follow hlt).1 hc with hc | ⟨rfl, rfl⟩
  · -- The connection was there before.
    obtain ⟨source', assoc, hb, htarget, hfields⟩ := h.steps b c hc
    exact ⟨source', assoc, hkeep hb, hkeep htarget, hfields⟩
  · -- It is the new one, whose target is the new node.
    have hnew : (sources ++ [.step source a])[g.size]? = some (.step source a) := by
      rw [hs.size]
      exact List.getElem?_concat_length
    exact ⟨source, a, hkeep horigin, hnew, rfl⟩

end FetchPlan.JoinGraph
