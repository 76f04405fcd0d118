import FetchPlan.Proofs.Exhausts
import FetchPlan.Proofs.JoinGraph.Facts
import Mathlib.Data.List.Perm.Basic
import Mathlib.Data.List.Perm.Subperm

/-!
# What orienting a graph achieves

Turning a connection round changes nothing that the graph says (`joinsOn_turn`), and reaches one
more node (`unreached_turn`). So an oriented graph says the same (`holds_orient`), and there is
nothing left to turn round in it (`flip?_orient`).
-/

namespace FetchPlan.JoinGraph

variable {g : JoinGraph} {f : Flip} {a b id : Nat} {c : Connection} {p : FieldPair}

/-! ## Turning a connection round -/

theorem JoinsOn.symm (h : g.JoinsOn a b p) : g.JoinsOn b a p.swap := Or.symm h

/-- All connections but the one that is turned round stay. -/
theorem mem_connections_turn_of_mem (hf : g.flip? = some f) (hc : c ∈ g.connections a) :
    c ∈ (g.turn f).connections a ∨ (a = f.owner ∧ c = f.connection) := by
  have hset : c ∈ (g.setConnections f.owner
      ((g.connections f.owner).eraseIdx f.index)).connections a ∨
        (a = f.owner ∧ c = f.connection) := by
    rw [connections_setConnections]
    split
    · next ha =>
      obtain ⟨rfl, -⟩ := ha
      obtain ⟨hindex, hfound⟩ := List.getElem?_eq_some_iff.1 (getElem?_of_flip? hf)
      have hperm := List.getElem_cons_eraseIdx_perm hindex
      rcases List.mem_cons.1 (hperm.mem_iff.2 hc) with heq | hc
      · exact Or.inr ⟨rfl, heq.trans hfound⟩
      · exact Or.inl hc
    · exact Or.inl hc
  refine hset.imp_left fun hc => ?_
  rw [turn, connections_push]
  split
  · exact List.mem_append_left _ hc
  · exact hc

/-- The connection is found at its other end, with its pairs swapped. -/
theorem mem_connections_turn_self (hg : g.Bounded) (hf : g.flip? = some f) :
    ⟨f.owner, f.connection.fields.reversed⟩ ∈ (g.turn f).connections f.connection.target := by
  have htarget : f.connection.target < g.size := hg f.owner f.connection (flip?_eq_some hf).1
  rw [turn, connections_push, if_pos ⟨rfl, size_setConnections.symm ▸ htarget⟩]
  exact List.mem_append_right _ List.mem_cons_self

/-- Two nodes stay joined on the same pairs. -/
theorem joinsOn_turn (hg : g.Bounded) (hf : g.flip? = some f) :
    (g.turn f).JoinsOn a b p ↔ g.JoinsOn a b p := by
  have hfound := (flip?_eq_some hf).1
  have hforth : ∀ {a b p}, (∃ c ∈ (g.turn f).connections a, c.target = b ∧ p ∈ c.fields) →
      g.JoinsOn a b p := by
    rintro a b p ⟨c, hc, rfl, hp⟩
    rcases mem_connections_turn hc with hc | ⟨rfl, rfl⟩
    · exact Or.inl ⟨c, hc, rfl, hp⟩
    · exact Or.inr ⟨f.connection, hfound, rfl, FieldPairs.mem_reversed.1 hp⟩
  have hback : ∀ {a b p}, (∃ c ∈ g.connections a, c.target = b ∧ p ∈ c.fields) →
      (g.turn f).JoinsOn a b p := by
    rintro a b p ⟨c, hc, rfl, hp⟩
    rcases mem_connections_turn_of_mem hf hc with hc | ⟨rfl, rfl⟩
    · exact Or.inl ⟨c, hc, rfl, hp⟩
    · exact Or.inr ⟨_, mem_connections_turn_self hg hf, rfl, FieldPairs.mem_reversed.2 hp⟩
  constructor
  · rintro (h | h)
    · exact hforth h
    · exact (hforth h).symm
  · rintro (h | h)
    · exact hback h
    · exact (hback h).symm

/-- What is reached stays reached. -/
theorem Reaches.turn (h : g.Reaches id) (hf : g.flip? = some f) : (g.turn f).Reaches id := by
  induction h with
  | refl => exact reaches_root
  | tail hreach hleads ih =>
    obtain ⟨c, hc, rfl⟩ := hleads
    rcases mem_connections_turn_of_mem hf hc with hc | ⟨rfl, -⟩
    · exact ih.step hc
    · exact absurd hreach (flip?_eq_some hf).2.1

/-- The owner of the connection is reached from then on. -/
theorem reaches_owner_turn (hg : g.Bounded) (hf : g.flip? = some f) :
    (g.turn f).Reaches f.owner :=
  ((flip?_eq_some hf).2.2.turn hf).step (mem_connections_turn_self hg hf)

/-! ## Turning all connections round -/

theorem length_reachable_le (hg : g.Bounded) (hpos : 0 < g.size) : g.reachable.length ≤ g.size := by
  have hsub : g.reachable.Subperm g.ids := nodup_reachable.subperm fun id hid =>
    mem_ids.2 (hg.lt_size_of_reaches hpos (mem_reachable.1 hid))
  have hle := hsub.length_le
  rwa [ids, List.length_range] at hle

/-- The owner of the connection is one more node that is reached. -/
theorem length_reachable_turn (hg : g.Bounded) (hf : g.flip? = some f) :
    g.reachable.length < (g.turn f).reachable.length := by
  have hnot : f.owner ∉ g.reachable := fun h => (flip?_eq_some hf).2.1 (mem_reachable.1 h)
  have hnodup : (f.owner :: g.reachable).Nodup := List.nodup_cons.2 ⟨hnot, nodup_reachable⟩
  refine (hnodup.subperm ?_).length_le
  intro id hid
  rcases List.mem_cons.1 hid with rfl | hid
  · exact mem_reachable.2 (reaches_owner_turn hg hf)
  · exact mem_reachable.2 ((mem_reachable.1 hid).turn hf)

/-- The number of nodes that are not reached. -/
def unreached (g : JoinGraph) : Nat := g.size - g.reachable.length

/-- Every turn reaches a node that was not reached. -/
theorem unreached_turn (hg : g.Bounded ∧ 0 < g.size) (hf : g.flip? = some f) :
    ((g.turn f).Bounded ∧ 0 < (g.turn f).size) ∧ (g.turn f).unreached < g.unreached := by
  have hturn : (g.turn f).Bounded ∧ 0 < (g.turn f).size :=
    ⟨hg.1.turn hf, size_turn.symm ▸ hg.2⟩
  refine ⟨hturn, ?_⟩
  have hmore := length_reachable_turn hg.1 hf
  have hle := length_reachable_le hturn.1 hturn.2
  rw [size_turn] at hle
  rw [unreached, unreached, size_turn]
  omega

theorem orientFor_eq {rounds : Nat} :
    orientFor rounds g = exhaust flip? (fun f g => g.turn f) rounds g := by
  induction rounds generalizing g with
  | zero => rfl
  | succ rounds ih =>
    cases hf : g.flip? with
    | none => simp only [orientFor, exhaust, hf]
    | some f => simp only [orientFor, exhaust, hf, ih]

/-- There are as many turns as are needed. -/
theorem exhausts_orient (hg : g.Bounded) (hpos : 0 < g.size) :
    Exhausts flip? (fun f g => g.turn f) g g.orient.1 g.orient.2 := by
  rw [orient, orientFor_eq]
  exact exhausts_exhaust (P := fun g => g.Bounded ∧ 0 < g.size) (m := unreached)
    (fun _ _ => unreached_turn) ⟨hg, hpos⟩ (Nat.sub_le _ _)

/-- There is nothing left to turn round in an oriented graph. -/
theorem flip?_orient (hg : g.Bounded) (hpos : 0 < g.size) : g.orient.2.flip? = none :=
  (exhausts_orient hg hpos).next_eq_none

/-- Orienting a graph changes nothing that it says. -/
theorem holds_orient (hg : g.Wired) (fact : Fact) : g.orient.2.Holds fact ↔ g.Holds fact := by
  have hboth : g.orient.2.Wired ∧ (g.orient.2.Holds fact ↔ g.Holds fact) := by
    refine orient_induction (P := fun h => h.Wired ∧ (h.Holds fact ↔ g.Holds fact)) ⟨hg, Iff.rfl⟩ ?_
    intro h f hh hf
    refine ⟨hh.1.turn hf, Iff.trans ?_ hh.2⟩
    cases fact with
    | used id x => simp only [Holds, used_turn]
    | joined a b p => exact joinsOn_turn hh.1.bounded hf
  exact hboth.2

theorem size_orient : g.orient.2.size = g.size :=
  orient_induction (P := fun h => h.size = g.size) rfl fun _ _ hh _ => size_turn.trans hh

theorem relation_orient : g.orient.2.relation id = g.relation id :=
  orient_induction (P := fun h => h.relation id = g.relation id) rfl fun _ _ hh _ =>
    relation_turn.trans hh

theorem used_orient : g.orient.2.used id = g.used id :=
  orient_induction (P := fun h => h.used id = g.used id) rfl fun _ _ hh _ => used_turn.trans hh

end FetchPlan.JoinGraph
