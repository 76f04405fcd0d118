import FetchPlan.Proofs.JoinGraph.Built
import FetchPlan.Proofs.JoinGraph.Oriented
import FetchPlan.Proofs.JoinGraph.Undirected

/-!
# The component of the root

Two nodes are `Connected` if connections lead from one to the other, whatever their directions.
This depends only on the connections as `undirected` lists them (`connected_congr`), which turning
connections round does not change. An oriented graph reaches the nodes that are connected to the
root and no others (`reaches_orient`), and nothing but directions is changed for that
(`orient_reaches_component`).
-/

namespace FetchPlan.JoinGraph

variable {g g' : JoinGraph} {a b id : Nat} {f : Flip} {p : FieldPair}

/-! ## Connected nodes -/

/-- Connections lead from one node to the other, followed in any direction. -/
def Connected (g : JoinGraph) (a b : Nat) : Prop := Relation.EqvGen g.Leads a b

/-- The undirected connections tell which nodes are connected by one of them. -/
theorem leads_or_leads_iff : g.Leads a b ∨ g.Leads b a ↔
    ∃ fields : FieldPairs, s((a, fields), (b, fields.reversed)) ∈ g.undirected := by
  constructor
  · rintro (⟨c, hc, rfl⟩ | ⟨c, hc, rfl⟩)
    · exact ⟨c.fields, mem_undirected.2 ⟨a, c, hc, rfl⟩⟩
    · exact ⟨c.fields.reversed, mem_undirected.2 ⟨b, c, hc, Connection.undirected_reversed.symm⟩⟩
  · rintro ⟨fields, he⟩
    obtain ⟨a', c, hc, heq⟩ := mem_undirected.1 he
    rcases (Connection.undirected_eq_iff (d := ⟨b, fields⟩)).1 heq with ⟨rfl, rfl⟩ | ⟨rfl, hd⟩
    · exact Or.inl ⟨_, hc, rfl⟩
    · exact Or.inr ⟨c, (Connection.mk.inj hd).1 ▸ hc, rfl⟩

theorem Connected.mono (h : g.Connected a b)
    (hsub : ∀ e ∈ g.undirected, e ∈ g'.undirected) : g'.Connected a b := by
  induction h with
  | rel a b hleads =>
    obtain ⟨fields, he⟩ := leads_or_leads_iff.1 (Or.inl hleads)
    rcases leads_or_leads_iff.2 ⟨fields, hsub _ he⟩ with hleads | hleads
    · exact .rel a b hleads
    · exact .symm b a (.rel b a hleads)
  | refl a => exact .refl a
  | symm a b _ ih => exact .symm a b ih
  | trans a b c _ _ ih ih' => exact .trans a b c ih ih'

/-- Graphs with the same undirected connections connect the same nodes. -/
theorem connected_congr (h : g'.undirected.Perm g.undirected) :
    g'.Connected a b ↔ g.Connected a b :=
  ⟨fun hab => hab.mono fun _ => h.mem_iff.1, fun hab => hab.mono fun _ => h.mem_iff.2⟩

theorem JoinsOn.connected (h : g.JoinsOn a b p) : g.Connected a b := by
  rcases h with ⟨c, hc, rfl, -⟩ | ⟨c, hc, rfl, -⟩
  · exact .rel a _ ⟨c, hc, rfl⟩
  · exact .symm b _ (.rel b _ ⟨c, hc, rfl⟩)

theorem Reaches.connected (h : g.Reaches id) : g.Connected root id := by
  induction h with
  | refl => exact .refl root
  | tail _ hleads ih => exact .trans _ _ _ ih (.rel _ _ hleads)

/-- If there is nothing to turn round, connected nodes are reached together. -/
theorem Connected.reaches_iff (h : g.Connected a b) (hf : g.flip? = none) :
    g.Reaches a ↔ g.Reaches b := by
  induction h with
  | rel a b hleads =>
    obtain ⟨c, hc, rfl⟩ := hleads
    refine ⟨fun ha => ha.step hc, fun hb => ?_⟩
    by_contra ha
    exact not_reaches_of_flip?_eq_none hf ha hc hb
  | refl a => exact Iff.rfl
  | symm a b _ ih => exact ih.symm
  | trans a b c _ _ ih ih' => exact ih.trans ih'

theorem reaches_iff_of_flip?_eq_none (hf : g.flip? = none) :
    g.Reaches id ↔ g.Connected root id :=
  ⟨Reaches.connected, fun h => (h.reaches_iff hf).1 reaches_root⟩

/-! ## Turning connections round -/

theorem undirected_orient (h : g.Bounded) : g.orient.2.undirected.Perm g.undirected := by
  have hboth : g.orient.2.Bounded ∧ g.orient.2.undirected.Perm g.undirected := by
    refine orient_induction (P := fun g' => g'.Bounded ∧ g'.undirected.Perm g.undirected)
      ⟨h, .refl _⟩ ?_
    intro g' f hg' hf
    exact ⟨hg'.1.turn hf, (undirected_turn hg'.1 hf).trans hg'.2⟩
  exact hboth.2

/-- An oriented graph reaches the nodes that were connected to the root. -/
theorem reaches_orient (h : g.Bounded) (hroot : root < g.size) :
    g.orient.2.Reaches id ↔ g.Connected root id :=
  (reaches_iff_of_flip?_eq_none (flip?_orient h hroot)).trans
    (connected_congr (undirected_orient h))

/-- A node that is reached keeps its connections, in their order and before all new ones. -/
theorem connections_prefix_turn (hf : g.flip? = some f) (hid : g.Reaches id) :
    g.connections id <+: (g.turn f).connections id := by
  have hne : f.owner ≠ id := by
    rintro rfl
    exact (flip?_eq_some hf).2.1 hid
  have hset : (g.setConnections f.owner
      ((g.connections f.owner).eraseIdx f.index)).connections id = g.connections id := by
    rw [connections_setConnections, if_neg fun h => hne h.1]
  rw [turn, connections_push, hset]
  split
  · exact List.prefix_append _ _
  · exact List.prefix_rfl

theorem connections_prefix_orient (hid : g.Reaches id) :
    g.connections id <+: g.orient.2.connections id := by
  have hboth : g.orient.2.Reaches id ∧ g.connections id <+: g.orient.2.connections id := by
    refine orient_induction
      (P := fun g' => g'.Reaches id ∧ g.connections id <+: g'.connections id)
      ⟨hid, List.prefix_rfl⟩ ?_
    intro g' f hg' hf
    exact ⟨hg'.1.turn hf, hg'.2.trans (connections_prefix_turn hf hg'.1)⟩
  exact hboth.2

/-- The root is reached from the start, so there are fewer turns than nodes. -/
theorem length_orient_lt (h : g.Bounded) (hroot : root < g.size) : g.orient.1.length < g.size := by
  have hpos : 0 < g.reachable.length := List.length_pos_of_mem (mem_reachable.2 reaches_root)
  have hlength : g.orient.1.length + g.orient.2.unreached ≤ g.unreached :=
    (exhausts_orient h hroot).length_le (P := fun g => g.Bounded ∧ 0 < g.size)
      (fun _ _ => unreached_turn) ⟨h, hroot⟩
  rw [unreached, unreached] at hlength
  omega

/-- An oriented graph reaches the component of the root. Turning connections round comes to an end
by itself, after fewer turns than there are nodes, and then there is nothing left to turn round.
The nodes are the same, and so are the connections regardless of their directions; those of
a node that was reached before stay where they are. -/
theorem orient_reaches_component (h : g.Bounded) (hroot : root < g.size) :
    (∀ fs g', Exhausts flip? (fun f g => g.turn f) g fs g' ↔ (fs, g') = g.orient) ∧
      g.orient.1.length < g.size ∧ (∀ id, g.orient.2.Reaches id ↔ g.Connected root id) ∧
      (g.orient.2.validate = .ok () ↔ ∀ a < g.size, ∀ b < g.size, g.Connected a b) ∧
      g.orient.2.size = g.size ∧
      (∀ id, g.orient.2.relation id = g.relation id ∧ g.orient.2.used id = g.used id) ∧
      g.orient.2.undirected.Perm g.undirected ∧
      (∀ id, g.Reaches id → g.connections id <+: g.orient.2.connections id) ∧
      g.orient.2.orient = ([], g.orient.2) := by
  have hrun := exhausts_orient h hroot
  have hflip : g.orient.2.flip? = none := flip?_orient h hroot
  have hreaches : ∀ id, g.orient.2.Reaches id ↔ g.Connected root id := fun _ =>
    reaches_orient h hroot
  refine ⟨?_, length_orient_lt h hroot, hreaches, ?_, size_orient,
    fun id => ⟨relation_orient, used_orient⟩, undirected_orient h,
    fun id hid => connections_prefix_orient hid, orient_of_flip?_eq_none hflip⟩
  · intro fs g'
    constructor
    · intro hrun'
      obtain ⟨rfl, rfl⟩ := hrun'.unique hrun
      rfl
    · intro heq
      obtain ⟨rfl, rfl⟩ := Prod.mk.inj heq
      exact hrun
  · rw [validate_eq_ok, size_orient]
    constructor
    · intro hall a ha b hb
      have hfrom : g.Connected root a := (hreaches a).1 (hall a ha)
      have hto : g.Connected root b := (hreaches b).1 (hall b hb)
      exact .trans a root b (.symm root a hfrom) hto
    · exact fun hall id hid => (hreaches id).2 (hall root hroot id hid)

/-- Items and their orders, and orders and their customers, both found from the wrong end. Orders
lead to their customers twice, and to themselves. -/
def ordersFromItems : JoinGraph :=
  let customer : FieldPairs := .zip ["CustomerId"] ["Id"]
  ⟨#[{ relation := "Customer" },
    { relation := "Item", connections := [⟨2, .zip ["OrderId"] ["Id"]⟩] },
    { relation := "Order",
      connections := [⟨0, customer⟩, ⟨0, customer⟩, ⟨2, .zip ["PreviousId"] ["Id"]⟩] }]⟩

theorem orient_ordersFromItems :
    ordersFromItems.Bounded ∧ root < ordersFromItems.size ∧
      ordersFromItems.orient.1.map Flip.owner = [2, 1] ∧
      ordersFromItems.orient.2.validate = .ok () ∧
      (∀ a < 3, ∀ b < 3, ordersFromItems.Connected a b) ∧
      ordersFromItems.orient.2.undirected.Perm ordersFromItems.undirected ∧
      ordersFromItems.orient.2.orient = ([], ordersFromItems.orient.2) := by
  have hbounded : ordersFromItems.Bounded := by decide +kernel
  have hroot : root < ordersFromItems.size := by decide +kernel
  have hflips : ordersFromItems.orient.1.map Flip.owner = [2, 1] := by decide +kernel
  have hvalidate : ordersFromItems.orient.2.validate = .ok () := by decide +kernel
  obtain ⟨-, -, -, hconnected, -, -, hperm, -, hagain⟩ := orient_reaches_component hbounded hroot
  exact ⟨hbounded, hroot, hflips, hvalidate, hconnected.1 hvalidate, hperm, hagain⟩

end FetchPlan.JoinGraph
