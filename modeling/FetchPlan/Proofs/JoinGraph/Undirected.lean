import FetchPlan.Proofs.JoinGraph.Contracts
import Mathlib.Data.Sym.Sym2

/-!
# Connections regardless of their direction

A connection and the one that leads back on the same fields join the same rows. `undirected` lists
the connections of a graph as unordered pairs of their ends, each end with the fields as they are
seen from there. In a graph without loops none is listed twice if and only if no node has
a connection twice and none is repeated by one in the other direction (`unrepeated_iff`). Turning
a connection round does not change what is listed (`undirected_turn`).
-/

namespace FetchPlan

namespace Connection

variable {a b : Nat} {c d : Connection}

/-- The two ends of a connection in no order, each with the fields that are seen from there. -/
def undirected (owner : Nat) (c : Connection) : Sym2 (Nat × FieldPairs) :=
  s((owner, c.fields), (c.target, c.fields.reversed))

/-- The connection back has the same ends. -/
theorem undirected_reversed :
    undirected c.target ⟨a, c.fields.reversed⟩ = c.undirected a := by
  rw [undirected, undirected, FieldPairs.reversed_reversed, Sym2.eq_swap]

theorem undirected_eq_iff : c.undirected a = d.undirected b ↔
    (a = b ∧ c = d) ∨ (c.target = b ∧ d = ⟨a, c.fields.reversed⟩) := by
  constructor
  · intro h
    rcases Sym2.eq_iff.1 h with ⟨hsource, htarget⟩ | ⟨hsource, htarget⟩
    · obtain ⟨rfl, hfields⟩ := Prod.mk.inj hsource
      exact Or.inl ⟨rfl, congrArg₂ Connection.mk (Prod.mk.inj htarget).1 hfields⟩
    · obtain ⟨rfl, hfields⟩ := Prod.mk.inj htarget
      exact Or.inr ⟨rfl, congrArg₂ Connection.mk (Prod.mk.inj hsource).1.symm hfields.symm⟩
  · rintro (⟨rfl, rfl⟩ | ⟨rfl, rfl⟩)
    · rfl
    · exact undirected_reversed.symm

end Connection

namespace JoinGraph

variable {g : JoinGraph} {f : Flip} {a owner : Nat} {c : Connection} {cs : List Connection}

/-- The connections of a node, regardless of their direction. -/
def undirectedAt (g : JoinGraph) (a : Nat) : List (Sym2 (Nat × FieldPairs)) :=
  (g.connections a).map (Connection.undirected a)

/-- All connections of a graph, regardless of their direction. -/
def undirected (g : JoinGraph) : List (Sym2 (Nat × FieldPairs)) := g.ids.flatMap g.undirectedAt

theorem mem_undirected {e : Sym2 (Nat × FieldPairs)} :
    e ∈ g.undirected ↔ ∃ a, ∃ c ∈ g.connections a, c.undirected a = e := by
  rw [undirected, List.mem_flatMap]
  constructor
  · rintro ⟨a, -, he⟩
    obtain ⟨c, hc, rfl⟩ := List.mem_map.1 he
    exact ⟨a, c, hc, rfl⟩
  · rintro ⟨a, c, hc, rfl⟩
    exact ⟨a, mem_ids.2 (lt_size_of_mem hc), List.mem_map_of_mem hc⟩

/-! ## Connections that are not repeated -/

/-- No two connections join the same nodes on the same fields, in whatever direction. -/
def Unrepeated (g : JoinGraph) : Prop := g.undirected.Nodup

instance : Decidable g.Unrepeated := inferInstanceAs (Decidable g.undirected.Nodup)

theorem unrepeated_iff (h : ∀ a, ∀ c ∈ g.connections a, c.target ≠ a) :
    g.Unrepeated ↔ (∀ a, (g.connections a).Nodup) ∧ g.OneWay := by
  rw [Unrepeated, undirected, List.nodup_flatMap]
  constructor
  · rintro ⟨heach, hapart⟩
    refine ⟨?_, ?_⟩
    · intro a
      by_cases ha : a < g.size
      · exact (heach a (mem_ids.2 ha)).of_map
      · rw [connections_of_size_le (Nat.le_of_not_lt ha)]
        exact List.nodup_nil
    · intro a c hc hback
      have hsymm : Std.Symm (Function.onFun List.Disjoint g.undirectedAt) :=
        ⟨fun _ _ hdisjoint => hdisjoint.symm⟩
      have hdisjoint : List.Disjoint (g.undirectedAt a) (g.undirectedAt c.target) :=
        hapart.forall (mem_ids.2 (lt_size_of_mem hc)) (mem_ids.2 (lt_size_of_mem hback))
          (h a c hc).symm
      refine hdisjoint (List.mem_map_of_mem hc) ?_
      rw [← Connection.undirected_reversed]
      exact List.mem_map_of_mem hback
  · rintro ⟨hnodup, honeWay⟩
    refine ⟨?_, ?_⟩
    · intro a _
      refine (hnodup a).map_on ?_
      intro c hc d _ hcd
      rcases Connection.undirected_eq_iff.1 hcd with ⟨-, rfl⟩ | ⟨hloop, -⟩
      · rfl
      · exact absurd hloop (h a c hc)
    · refine List.nodup_range.imp ?_
      intro a b hab e hea heb
      obtain ⟨c, hc, rfl⟩ := List.mem_map.1 hea
      obtain ⟨d, hd, hcd⟩ := List.mem_map.1 heb
      rcases Connection.undirected_eq_iff.1 hcd.symm with ⟨heq, -⟩ | ⟨rfl, rfl⟩
      · exact hab heq
      · exact honeWay a c hc hd

/-! ## Connections that are turned round -/

theorem undirected_eq : (g.undirected : Multiset (Sym2 (Nat × FieldPairs))) =
    ∑ a ∈ Finset.range g.size, (g.undirectedAt a : Multiset (Sym2 (Nat × FieldPairs))) := by
  rw [undirected, ← Multiset.coe_bind, Multiset.bind, Multiset.join, Finset.sum_eq_multiset_sum,
    Finset.range_val, ← Multiset.coe_range]
  rfl

/-- With other connections of a node, these are listed instead of the old ones. -/
theorem undirected_setConnections (h : owner < g.size) (cs : List Connection) :
    ((g.setConnections owner cs).undirected ++ g.undirectedAt owner).Perm
      (g.undirected ++ cs.map (Connection.undirected owner)) := by
  rw [← Multiset.coe_eq_coe, ← Multiset.coe_add, ← Multiset.coe_add, undirected_eq, undirected_eq,
    size_setConnections]
  exact sum_setConnections (fun a cs => Multiset.ofList (cs.map (Connection.undirected a))) h cs

/-- A connection that is appended is listed too. -/
theorem undirected_push (h : owner < g.size) :
    (g.push owner c).undirected.Perm (c.undirected owner :: g.undirected) := by
  have hset := undirected_setConnections h (g.connections owner ++ [c])
  rw [List.map_append, List.map_singleton] at hset
  refine (List.perm_append_right_iff (g.undirectedAt owner)).1 (hset.trans ?_)
  rw [← List.append_assoc]
  exact List.perm_append_singleton _ _

/-- Without a connection all others are listed. -/
theorem undirected_disconnect {index : Nat} (hc : (g.connections owner)[index]? = some c) :
    (c.undirected owner :: (g.disconnect owner index).undirected).Perm g.undirected := by
  obtain ⟨hindex, hfound⟩ := List.getElem?_eq_some_iff.1 hc
  have hset := undirected_setConnections (lt_size_of_mem (List.mem_of_getElem? hc))
    ((g.connections owner).eraseIdx index)
  have hlisted : (g.undirectedAt owner).Perm (c.undirected owner ::
      ((g.connections owner).eraseIdx index).map (Connection.undirected owner)) := by
    have hperm := (List.getElem_cons_eraseIdx_perm hindex).map (Connection.undirected owner)
    rw [hfound] at hperm
    exact hperm.symm
  refine (List.perm_append_right_iff
    (((g.connections owner).eraseIdx index).map (Connection.undirected owner))).1 ?_
  exact List.perm_middle.symm.trans ((hlisted.symm.append_left _).trans hset)

/-- Turning a connection round does not change what is listed. -/
theorem undirected_turn (h : g.Bounded) (hf : g.flip? = some f) :
    (g.turn f).undirected.Perm g.undirected := by
  have hfound : (g.connections f.owner)[f.index]? = some f.connection := getElem?_of_flip? hf
  have htarget : f.connection.target < (g.disconnect f.owner f.index).size := by
    rw [disconnect, size_setConnections]
    exact h f.owner f.connection (List.mem_of_getElem? hfound)
  have hpush := undirected_push (c := ⟨f.owner, f.connection.fields.reversed⟩) htarget
  rw [Connection.undirected_reversed] at hpush
  exact hpush.trans (undirected_disconnect hfound)

end JoinGraph
end FetchPlan
