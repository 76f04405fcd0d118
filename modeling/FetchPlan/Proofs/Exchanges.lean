import FetchPlan.Proofs.Accepts
import FetchPlan.Proofs.JoinGraph.Component
import FetchPlan.Proofs.JoinGraph.Exchanged

/-!
# The order of operands

Exchanging operands changes neither whether a graph can be built nor the graph, up to the numbers of
its nodes and the directions of its connections (`JoinGraph.Alike`). So it does not change either
whether there is a plan (`Planner.alike_of_exchanged`).
-/

namespace FetchPlan

open Building JoinGraph

namespace JoinGraph

variable {s : Schema} {σ : Nat → Nat} {ν : Nat → Nat → Prop} {g g' : JoinGraph} {a b id : Nat}
  {c d : Connection} {p : FieldPair} {rs : List FetchPlan.Relation}

/-- The graphs are the same up to the numbers of their nodes and the directions of their
connections. -/
structure Alike (σ : Nat → Nat) (g g' : JoinGraph) : Prop where
  nodes : Set.BijOn σ (Set.Iio g.size) (Set.Iio g'.size)
  root : σ root = root
  relation : ∀ id < g.size, g'.relation (σ id) = g.relation id
  used : ∀ id < g.size, g'.used (σ id) = g.used id
  joins : ∀ a < g.size, ∀ b < g.size, ∀ p, g'.JoinsOn (σ a) (σ b) p ↔ g.JoinsOn a b p

/-! ## Graphs that grow alike from nothing -/

theorem wired_empty : empty.Wired := by
  have hnil : ∀ a, ∀ c, c ∉ empty.connections a := fun a c hc => by
    rw [connections_of_size_le (Nat.zero_le a)] at hc
    exact absurd hc List.not_mem_nil
  exact ⟨fun a c hc => absurd hc (hnil a c), fun a c hc => absurd hc (hnil a c),
    fun a c hc => absurd hc (hnil a c), fun a c hc => absurd hc (hnil a c)⟩

theorem paired_empty : Paired ⊥ empty empty :=
  ⟨wired_empty, wired_empty, fun h => h.elim, fun h => h.elim, fun h => h.elim, fun h => h.elim⟩

theorem not_holds_empty {fact : Fact} : ¬ empty.Holds fact := by
  cases fact with
  | used id x =>
    intro h
    rw [Holds, used, node_of_size_le (Nat.zero_le id)] at h
    exact OrderedSet.not_mem_empty x h
  | joined a b p =>
    rintro (⟨c, hc, -⟩ | ⟨c, hc, -⟩)
    · exact absurd (lt_size_of_mem hc) (Nat.not_lt_zero _)
    · exact absurd (lt_size_of_mem hc) (Nat.not_lt_zero _)

/-- Graphs that have grown alike from nothing are alike. -/
theorem Mirrors.alike (hm : Mirrors ⊥ ν empty empty g g') (hroot : ν root root) :
    ∃ σ, Alike σ g g' := by
  obtain ⟨F, F', hF, hF', hfacts⟩ := hm.grown
  rw [bot_sup_eq] at hfacts
  have hpaired := hm.paired paired_empty
  rw [bot_sup_eq] at hpaired
  have htotal : ∀ a < g.size, ∃ a', ν a a' := fun a ha => hm.nodes.total a ⟨Nat.zero_le a, ha⟩
  choose! σ hσ using htotal
  have hunique : ∀ {a a'}, ν a a' → σ a = a' := fun {a a'} ha =>
    (hm.nodes.injective (hσ a (hpaired.lt ha)) ha).1 rfl
  have hholds : ∀ fact, g.Holds fact ↔ F fact := fun fact =>
    (hF.adds fact).trans (or_iff_right not_holds_empty)
  have hholds' : ∀ fact, g'.Holds fact ↔ F' fact := fun fact =>
    (hF'.adds fact).trans (or_iff_right not_holds_empty)
  refine ⟨σ, ⟨?_, ?_, ?_⟩, hunique hroot, ?_, ?_, ?_⟩
  · exact fun a ha => (hm.nodes.mem' (hσ a ha)).2
  · exact fun a ha b hb heq => (hm.nodes.injective (hσ a ha) (hσ b hb)).2 heq
  · intro a' ha'
    obtain ⟨a, ha⟩ := hm.nodes.total' a' ⟨Nat.zero_le a', ha'⟩
    exact ⟨a, hpaired.lt ha, hunique ha⟩
  · exact fun id hid => hpaired.relation (hσ id hid)
  · intro id hid
    refine OrderedSet.ext_mem fun x => ⟨fun hx => ?_, fun hx => ?_⟩
    · obtain ⟨_, hfact, halike⟩ := hfacts.back _ ((hholds' (.used (σ id) x)).1 hx)
      cases halike with
      | used node =>
        obtain rfl := (hm.nodes.injective node (hσ id hid)).2 rfl
        exact (hholds (.used _ x)).2 hfact
    · obtain ⟨_, hfact, halike⟩ := hfacts.forth _ ((hholds (.used id x)).1 hx)
      cases halike with
      | used node =>
        rw [hunique node]
        exact (hholds' (.used _ x)).2 hfact
  · intro a ha b hb p
    constructor
    · intro h
      obtain ⟨_, hfact, halike⟩ := hfacts.back _ ((hholds' (.joined (σ a) (σ b) p)).1 h)
      cases halike with
      | joined node node' =>
        obtain rfl := (hm.nodes.injective node (hσ a ha)).2 rfl
        obtain rfl := (hm.nodes.injective node' (hσ b hb)).2 rfl
        exact (hholds (.joined _ _ p)).2 hfact
    · intro h
      obtain ⟨_, hfact, halike⟩ := hfacts.forth _ ((hholds (.joined a b p)).1 h)
      cases halike with
      | joined node node' =>
        rw [hunique node, hunique node']
        exact (hholds' (.joined _ _ p)).2 hfact

/-! ## Orienting -/

namespace Alike

/-- Nodes that correspond are connected alike. -/
theorem connected (h : Alike σ g g') (hg : g.Wired) (hj : g.Joining) (hab : g.Connected a b) :
    g'.Connected (σ a) (σ b) := by
  induction hab with
  | rel a b hleads =>
    obtain ⟨c, hc, rfl⟩ := hleads
    obtain ⟨p, hp⟩ := hj a c hc
    have hjoins : g'.JoinsOn (σ a) (σ c.target) p :=
      (h.joins a (lt_size_of_mem hc) c.target (hg.bounded a c hc) p).2 (Or.inl ⟨c, hc, rfl, hp⟩)
    exact hjoins.connected
  | refl a => exact .refl _
  | symm a b _ ih => exact .symm _ _ ih
  | trans a b c _ _ ih ih' => exact .trans _ _ _ ih ih'

/-- Graphs that are alike stay alike when they are oriented. -/
theorem orient (h : Alike σ g g') (hg : g.Wired) (hg' : g'.Wired) :
    Alike σ g.orient.2 g'.orient.2 := by
  refine ⟨?_, h.root, ?_, ?_, ?_⟩
  · rw [size_orient, size_orient]
    exact h.nodes
  · intro id hid
    rw [relation_orient, relation_orient]
    exact h.relation id (size_orient ▸ hid)
  · intro id hid
    rw [used_orient, used_orient]
    exact h.used id (size_orient ▸ hid)
  · intro a ha b hb p
    have hjoins := h.joins a (size_orient ▸ ha) b (size_orient ▸ hb) p
    exact (holds_orient hg' (.joined (σ a) (σ b) p)).trans
      (hjoins.trans (holds_orient hg (.joined a b p)).symm)

end Alike

/-! ## Keys -/

private theorem eq_of_count_map_le_one {α : Type} {f : α → Nat} {l : List α} {x y : α}
    (h : (l.map f).count (f x) ≤ 1) (hx : x ∈ l) (hy : y ∈ l) (heq : f y = f x) : x = y := by
  rw [List.count, List.countP_map, List.countP_eq_length_filter] at h
  have hx' : x ∈ l.filter ((· == f x) ∘ f) := List.mem_filter.2 ⟨hx, beq_self_eq_true _⟩
  have hy' : y ∈ l.filter ((· == f x) ∘ f) := List.mem_filter.2 ⟨hy, beq_iff_eq.2 heq⟩
  obtain ⟨z, hz⟩ := List.length_eq_one_iff.1 (Nat.le_antisymm h (List.length_pos_of_mem hx'))
  rw [hz, List.mem_singleton] at hx' hy'
  exact hx'.trans hy'.symm

/-- There is at most one connection between two nodes, so it has all pairs that they are joined
on. -/
theorem Simple.mem_fields (hg : g.Simple) (hw : g.Wired) (hc : c ∈ g.connections a) :
    p ∈ c.fields ↔ g.JoinsOn a c.target p := by
  have hlinks := hg a c.target (hw.loopless a c hc).symm
  have hone : 1 ≤ (g.targets a).count c.target :=
    List.one_le_count_iff.2 (List.mem_map_of_mem hc)
  unfold links at hlinks
  constructor
  · exact fun hp => Or.inl ⟨c, hc, rfl, hp⟩
  · rintro (⟨d, hd, heq, hp⟩ | ⟨d, hd, heq, -⟩)
    · have hcount : (g.targets a).count c.target ≤ 1 := by omega
      rwa [eq_of_count_map_le_one hcount hc hd heq]
    · have hback : 1 ≤ (g.targets c.target).count a :=
        List.one_le_count_iff.2 (heq ▸ List.mem_map_of_mem hd)
      omega

/-- The fields of `a` on which it is joined to `b` are exactly its primary key. -/
def KeyedAt (s : Schema) (g : JoinGraph) (a b : Nat) : Prop :=
  ∃ key, s.primaryKey (g.relation a) = .ok key ∧ ∀ x, (∃ y, g.JoinsOn a b ⟨x, y⟩) ↔ x ∈ key

theorem keyed_iff (hg : g.Simple) (hw : g.Wired) (hc : c ∈ g.connections a) :
    g.Keyed s a c ↔ g.KeyedAt s a c.target ∨ g.KeyedAt s c.target a := by
  have hsources : ∀ x, x ∈ c.fields.sources ↔ ∃ y, g.JoinsOn a c.target ⟨x, y⟩ := by
    intro x
    rw [FieldPairs.mem_sources]
    constructor
    · rintro ⟨⟨_, y⟩, hp, rfl⟩
      exact ⟨y, (hg.mem_fields hw hc).1 hp⟩
    · rintro ⟨y, hjoins⟩
      exact ⟨_, (hg.mem_fields hw hc).2 hjoins, rfl⟩
  have htargets : ∀ y, y ∈ c.fields.targets ↔ ∃ x, g.JoinsOn c.target a ⟨y, x⟩ := by
    intro y
    rw [FieldPairs.mem_targets]
    constructor
    · rintro ⟨⟨x, _⟩, hp, rfl⟩
      exact ⟨x, ((hg.mem_fields hw hc).1 hp).symm⟩
    · rintro ⟨x, hjoins⟩
      exact ⟨_, (hg.mem_fields hw hc).2 hjoins.symm, rfl⟩
  unfold Keyed Schema.IsKey KeyedAt
  simp only [hsources, htargets]

namespace Alike

theorem keyedAt (h : Alike σ g g') (ha : a < g.size) (hb : b < g.size) (hk : g.KeyedAt s a b) :
    g'.KeyedAt s (σ a) (σ b) := by
  obtain ⟨key, hkey, hmem⟩ := hk
  refine ⟨key, h.relation a ha ▸ hkey, ?_⟩
  intro x
  rw [← hmem x]
  exact exists_congr fun y => h.joins a ha b hb _

/-- If all connections of a graph are keyed, so are those of one that is alike. -/
theorem keyed (h : Alike σ g g') (hg : g.Simple) (hw : g.Wired) (hg' : g'.Simple) (hw' : g'.Wired)
    (hj' : g'.Joining) (hkeyed : ∀ a, ∀ c ∈ g.connections a, g.Keyed s a c) :
    ∀ a', ∀ c' ∈ g'.connections a', g'.Keyed s a' c' := by
  intro a' c' hc'
  obtain ⟨a, ha, rfl⟩ := h.nodes.surjOn (lt_size_of_mem hc')
  obtain ⟨b, hb, htarget⟩ := h.nodes.surjOn (hw'.bounded _ c' hc')
  obtain ⟨p, hp⟩ := hj' _ c' hc'
  have hjoins' : g'.JoinsOn (σ a) (σ b) p := Or.inl ⟨c', hc', htarget.symm, hp⟩
  rw [keyed_iff hg' hw' hc', ← htarget]
  -- A connection joins the nodes in the first graph too, owned by either of them.
  rcases (h.joins a ha b hb p).1 hjoins' with ⟨c, hc, rfl, -⟩ | ⟨c, hc, rfl, -⟩
  · exact ((keyed_iff hg hw hc).1 (hkeyed a c hc)).imp (h.keyedAt ha hb) (h.keyedAt hb ha)
  · exact ((keyed_iff hg hw hc).1 (hkeyed b c hc)).symm.imp (h.keyedAt ha hb) (h.keyedAt hb ha)

end Alike

/-! ## The graphs that are built -/

variable {query query' : Expr} {flow : NumberedPath}

theorem exists_alike_draftOfPath (hshape : query.shape.Exchanged query'.shape)
    (hflow : query.toPath = .ok flow) (hg : (draftOfPath s flow.path).result = .ok g) :
    ∃ flow' g' σ, query'.toPath = .ok flow' ∧ (draftOfPath s flow'.path).result = .ok g' ∧
      g.Wired ∧ g'.Wired ∧ 0 < g.size ∧ Alike σ g g' := by
  obtain ⟨c, v, hc, hstart, hbuilds⟩ := exists_draftOfPath_iff.1 ⟨flow, hflow, hg⟩
  rw [hc] at hshape
  generalize hc' : query'.shape = shape' at hshape
  cases hshape with
  | chain inner =>
    obtain ⟨ν, v', g', hbuilds', hm, -, hroot⟩ := inner.mirrored s hbuilds paired_empty .nil
    obtain ⟨flow', hflow', hg'⟩ := exists_draftOfPath_iff.2
      ⟨_, v', hc', inner.startsAtTable.trans hstart, hbuilds'⟩
    obtain ⟨σ, hσ⟩ := hm.alike (hroot hstart)
    have hpaired := hm.paired paired_empty
    exact ⟨flow', g', σ, hflow', hg', hpaired.wired, hpaired.wired',
      hpaired.lt (Or.inr (hroot hstart)), hσ⟩

/-- If operands are exchanged, a graph can still be built, and it is alike. -/
theorem exists_alike_ofPath (hs : Schema.ofRelations rs = .ok s)
    (hshape : query.shape.Exchanged query'.shape) (hflow : query.toPath = .ok flow)
    (hg : (ofPath s flow.path).result = .ok g) :
    ∃ flow' g' σ, query'.toPath = .ok flow' ∧ (ofPath s flow'.path).result = .ok g' ∧
      Alike σ g g' := by
  obtain ⟨draft, hdraft, rfl, hall⟩ := ofPath_eq_ok.1 hg
  have hjoining : draft.Joining := draftOfPath_induction hs hdraft
    (fun _ _ _ _ => joining_ofRoot) fun _ _ hg hstep => hstep.joining hg
  obtain ⟨flow', draft', σ, hflow', hdraft', hw, hw', hpos, hσ⟩ :=
    exists_alike_draftOfPath hshape hflow hdraft
  have hpos' : 0 < draft'.size := Nat.zero_lt_of_lt (hσ.nodes.mapsTo hpos)
  refine ⟨flow', draft'.orient.2, σ, hflow', ofPath_eq_ok.2 ⟨draft', hdraft', rfl, ?_⟩,
    hσ.orient hw hw'⟩
  intro id' hid'
  obtain ⟨id, hid, rfl⟩ := hσ.nodes.surjOn (size_orient ▸ hid' : id' ∈ Set.Iio draft'.size)
  have hconnected : draft.Connected root id :=
    (reaches_orient hw.bounded hpos).1 (hall id (size_orient.symm ▸ hid))
  exact (reaches_orient hw'.bounded hpos').2
    (hσ.root ▸ hσ.connected hw hjoining hconnected)

end JoinGraph

namespace Planner

variable {s : Schema} {rs : List Relation} {query query' : Expr}

/-- Exchanging the operands of some operations changes neither whether a graph can be built and
whether there is a plan, nor the graph, up to its numbering and directions. -/
theorem alike_of_exchanged (hs : Schema.ofRelations rs = .ok s) (h : query.Exchanged query') :
    ((∃ flow g, query.toPath = .ok flow ∧ (ofPath s flow.path).result = .ok g) ↔
        ∃ flow g, query'.toPath = .ok flow ∧ (ofPath s flow.path).result = .ok g) ∧
      (∀ flow flow' g g', query.toPath = .ok flow → (ofPath s flow.path).result = .ok g →
        query'.toPath = .ok flow' → (ofPath s flow'.path).result = .ok g' → ∃ σ, Alike σ g g') ∧
      ∀ config : Config, config.optimize = false →
        ((∃ b, (plan ⟨s, config⟩ query).result = .ok b) ↔
          ∃ b, (plan ⟨s, config⟩ query').result = .ok b) := by
  have hplan : ∀ {query query' : Expr} {config : Config}, query.shape.Exchanged query'.shape →
      config.optimize = false → (∃ b, (plan ⟨s, config⟩ query).result = .ok b) →
        ∃ b, (plan ⟨s, config⟩ query').result = .ok b := by
    intro query query' config hshape hoff hb
    obtain ⟨flow, g, hflow, hg, hkeyed⟩ := (plan_eq_ok_iff_keyed (p := ⟨s, config⟩) hs).1 hb
    obtain ⟨flow', g', σ, hflow', hg', hσ⟩ := exists_alike_ofPath hs hshape hflow hg
    refine (plan_eq_ok_iff_keyed (p := ⟨s, config⟩) hs).2 ⟨flow', g', hflow', hg', ?_⟩
    rw [planned, if_neg (by simp [hoff])] at hkeyed ⊢
    have hall := hσ.keyed (simple_of_ofPath hs hg) (wired_of_ofPath hs hg) (simple_of_ofPath hs hg')
      (wired_of_ofPath hs hg') (joining_of_ofPath hs hg') fun a c hc =>
        hkeyed a (reaches_of_ofPath hg a (lt_size_of_mem hc)) c hc
    exact fun a' _ => hall a'
  refine ⟨⟨?_, ?_⟩, ?_, ?_⟩
  · rintro ⟨flow, g, hflow, hg⟩
    obtain ⟨flow', g', -, hflow', hg', -⟩ := exists_alike_ofPath hs h.shape hflow hg
    exact ⟨flow', g', hflow', hg'⟩
  · rintro ⟨flow', g', hflow', hg'⟩
    obtain ⟨flow, g, -, hflow, hg, -⟩ := exists_alike_ofPath hs h.shape.symm hflow' hg'
    exact ⟨flow, g, hflow, hg⟩
  · intro flow flow' g g' hflow hg hflow' hg'
    obtain ⟨flow'', g'', σ, hflow'', hg'', hσ⟩ := exists_alike_ofPath hs h.shape hflow hg
    obtain rfl := Except.ok.inj (hflow'.symm.trans hflow'')
    obtain rfl := Except.ok.inj (hg'.symm.trans hg'')
    exact ⟨σ, hσ⟩
  · intro config hoff
    exact ⟨hplan h.shape hoff, hplan h.shape.symm hoff⟩

/-- Whether the customer has rows in a relation. -/
def customerHas (relation : String) : Expr :=
  .any (.table relation) (.lambda ["r"] (.binary .eq (.member (.param "r") (.column "CustomerId"))
    (.member (.param "c") (.column "Id"))))

/-- The customers that have rows in two relations. -/
def customersWith (relation other : String) : Expr :=
  .filter (.table "Customer")
    (.lambda ["c"] (.binary .and (customerHas relation) (customerHas other)))

/-- The order of the conditions decides which relation is the first node after the root. -/
theorem alike_customersWith :
    Schema.ofRelations shopRelations = .ok shop ∧
      (customersWith "Order" "Payment").Exchanged (customersWith "Payment" "Order") ∧
      ∃ flow flow' g g' σ b b', (customersWith "Order" "Payment").toPath = .ok flow ∧
        (ofPath shop flow.path).result = .ok g ∧
        (customersWith "Payment" "Order").toPath = .ok flow' ∧
        (ofPath shop flow'.path).result = .ok g' ∧
        g.relation 1 = "Order" ∧ g'.relation 1 = "Payment" ∧ Alike σ g g' ∧
        (plan ⟨shop, { optimize := false }⟩ (customersWith "Order" "Payment")).result = .ok b ∧
        (plan ⟨shop, { optimize := false }⟩ (customersWith "Payment" "Order")).result = .ok b' := by
  have hexchanged : (customersWith "Order" "Payment").Exchanged (customersWith "Payment" "Order") :=
    .call (.cons (.table _) (.cons (.quote (.lambda (.swapped (Expr.exchanged_self _)
      (Expr.exchanged_self _)))) .nil))
  have hgraph : ((customersWith "Order" "Payment").toPath >>= fun flow =>
      (ofPath shop flow.path).result >>= fun g => .ok (g.relation 1)) = .ok "Order" := by
    decide +kernel
  have hgraph' : ((customersWith "Payment" "Order").toPath >>= fun flow =>
      (ofPath shop flow.path).result >>= fun g => .ok (g.relation 1)) = .ok "Payment" := by
    decide +kernel
  have hplan : (plan ⟨shop, { optimize := false }⟩ (customersWith "Order" "Payment")).result >>=
      (fun _ => .ok ()) = .ok () := by
    decide +kernel
  obtain ⟨flow, hflow, hgraph⟩ := bind_eq_ok.1 hgraph
  obtain ⟨g, hg, hrelation⟩ := bind_eq_ok.1 hgraph
  obtain ⟨flow', hflow', hgraph'⟩ := bind_eq_ok.1 hgraph'
  obtain ⟨g', hg', hrelation'⟩ := bind_eq_ok.1 hgraph'
  obtain ⟨b, hb, -⟩ := bind_eq_ok.1 hplan
  obtain ⟨-, halike, hplans⟩ := alike_of_exchanged ofRelations_shop hexchanged
  obtain ⟨σ, hσ⟩ := halike flow flow' g g' hflow hg hflow' hg'
  obtain ⟨b', hb'⟩ := (hplans { optimize := false } rfl).1 ⟨b, hb⟩
  exact ⟨ofRelations_shop, hexchanged, flow, flow', g, g', σ, b, b', hflow, hg, hflow', hg',
    Except.ok.inj hrelation, Except.ok.inj hrelation', hσ, hb, hb'⟩

end Planner
end FetchPlan
