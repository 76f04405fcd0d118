import FetchPlan.Proofs.Planned

/-!
# Built graphs are well-formed

What later stages rely on without a check: all nodes are reached, two nodes are joined by at most
one connection, connections join used fields, and these are columns of known relations
(`wellFormed_of_ofPath`). Every step of the walk and every turn of a connection preserves it.
-/

namespace FetchPlan

namespace JoinGraph

variable {s : Schema} {g g' : JoinGraph} {a b x y id owner index : Nat} {c : Connection}

/-! ## Declared fields -/

/-- The relations of the nodes are known, and the used fields are columns of them. -/
structure Declared (s : Schema) (g : JoinGraph) : Prop where
  known : ∀ id < g.size, ∃ r, s.relation (g.relation id) = .ok r
  columns : ∀ id < g.size, ∀ x ∈ g.used id, s.Declares (g.relation id) x

theorem declared_ofRoot {relation : String} {r : Relation} (h : s.relation relation = .ok r) :
    (ofRoot relation).Declared s := by
  have hzero : ∀ id < (ofRoot relation).size, id = 0 := fun id hid => Nat.lt_one_iff.1 hid
  refine ⟨?_, ?_⟩
  · intro id hid
    rw [hzero id hid]
    exact ⟨r, h⟩
  · intro id hid x hx
    rw [hzero id hid] at hx
    exact absurd hx (OrderedSet.not_mem_empty x)

theorem Declared.addNode {relation : String} {r : Relation} (h : g.Declared s)
    (hr : s.relation relation = .ok r) : (g.addNode relation).Declared s := by
  refine ⟨?_, ?_⟩
  · intro id hid
    rw [relation_addNode]
    split
    · exact ⟨r, hr⟩
    · next hne => exact h.known id (by rw [size_addNode] at hid; omega)
  · intro id hid x hx
    rw [used_addNode] at hx
    rw [relation_addNode]
    split
    · next heq =>
      -- A new node uses no fields.
      rw [heq, used, node_of_size_le (Nat.le_refl _)] at hx
      exact absurd hx (OrderedSet.not_mem_empty x)
    · next hne => exact h.columns id (by rw [size_addNode] at hid; omega) x hx

/-- The same nodes with more used fields. -/
theorem Declared.of_used (h : g.Declared s) (hsize : g'.size = g.size)
    (hrelation : ∀ id, g'.relation id = g.relation id)
    (hused : ∀ id < g.size, ∀ x ∈ g'.used id, x ∈ g.used id ∨ s.Declares (g.relation id) x) :
    g'.Declared s := by
  refine ⟨?_, ?_⟩
  · intro id hid
    rw [hrelation]
    exact h.known id (hsize ▸ hid)
  · intro id hid x hx
    rw [hrelation]
    rcases hused id (hsize ▸ hid) x hx with hx | hx
    · exact h.columns id (hsize ▸ hid) x hx
    · exact hx

theorem Declared.use {fields : List String} (h : g.Declared s)
    (hfields : ∀ x ∈ fields, s.Declares (g.relation id) x) : (g.use id fields).Declared s := by
  refine h.of_used size_use (fun _ => relation_use) ?_
  intro n _ x hx
  rcases mem_used_use.1 hx with hx | ⟨rfl, -, hx⟩
  · exact Or.inl hx
  · exact Or.inr (hfields x hx)

theorem Declared.connect (h : g.Declared s)
    (hsources : ∀ x ∈ c.fields.sources, s.Declares (g.relation owner) x)
    (htargets : ∀ x ∈ c.fields.targets, s.Declares (g.relation c.target) x) :
    (g.connect owner c).Declared s := by
  rcases g.connect_cases owner c with ⟨-, hg⟩ | ⟨-, hg⟩
  · rwa [hg]
  · rw [hg]
    refine h.of_used size_link (fun _ => relation_link) ?_
    intro n _ x hx
    rcases mem_used_link.1 hx with hx | ⟨rfl, -, hx⟩ | ⟨rfl, -, hx⟩
    · exact Or.inl hx
    · exact Or.inr (hsources x hx)
    · exact Or.inr (htargets x hx)

theorem Declared.extend {pair : FieldPair} (h : g.Declared s)
    (hc : (g.connections owner)[index]? = some c)
    (hsource : s.Declares (g.relation owner) pair.source)
    (htarget : s.Declares (g.relation c.target) pair.target)
    (hg : g.extend? owner index pair = some g') : g'.Declared s := by
  obtain ⟨e, he, -, hsize, hused⟩ := of_mem_connections_extend? hg
  obtain rfl := Option.some.inj (hc.symm.trans he)
  refine h.of_used hsize (fun _ => relation_extend? hg) ?_
  intro n _ x hx
  rcases (hused n x).1 hx with hx | ⟨rfl, -, rfl⟩ | ⟨rfl, -, rfl⟩
  · exact Or.inl hx
  · exact Or.inr hsource
  · exact Or.inr htarget

theorem Declared.turn {f : Flip} (h : g.Declared s) : (g.turn f).Declared s :=
  h.of_used size_turn (fun _ => relation_turn) fun _ _ _ hx => Or.inl (used_turn ▸ hx)

theorem Step.declared (hstep : Step s g g') (h : g.Declared s) : g'.Declared s := by
  rcases hstep with hstep | hstep
  · cases hstep with
    | @follow origin column relation key lt declared declared' =>
      obtain ⟨r, hr⟩ := declared'.known
      refine (h.addNode hr).connect ?_ ?_
      · intro x hx
        rw [relation_addNode, if_neg (Nat.ne_of_lt lt),
          List.mem_singleton.1 (FieldPairs.of_mem_sources_zip hx)]
        exact declared
      · intro x hx
        rw [relation_addNode, if_pos rfl, List.mem_singleton.1 (FieldPairs.of_mem_targets_zip hx)]
        exact declared'
    | read _ declared =>
      refine h.use ?_
      intro x hx
      rw [List.mem_singleton.1 hx]
      exact declared
  · cases hstep with
    | table known =>
      obtain ⟨r, hr, -⟩ := bind_eq_ok.1 known
      exact h.addNode hr
    | within _ declared declared' =>
      refine (h.use declared).use ?_
      intro x hx
      rw [relation_use]
      exact declared' x hx
    | extend found declared declared' eq => exact h.extend found declared declared' eq
    | join _ _ _ _ _ _ declared declared' =>
      exact h.connect (fun x hx => declared x (FieldPairs.of_mem_sources_zip hx))
        fun x hx => declared' x (FieldPairs.of_mem_targets_zip hx)

theorem lt_size_of_mem_used {x : String} (h : x ∈ g.used id) : id < g.size := by
  by_contra hlt
  rw [used, node_of_size_le (Nat.le_of_not_lt hlt)] at h
  exact OrderedSet.not_mem_empty x h

/-- What stands for nodes stands for their fields. -/
theorem Absorbs.declared {ρ : Nat → Nat} (h : Absorbs ρ g g') (hd : g.Declared s) :
    g'.Declared s := by
  refine ⟨?_, ?_⟩
  · intro id hid
    rw [h.relation]
    exact hd.known id (h.size ▸ hid)
  · intro id _ x hx
    obtain ⟨n, rfl, hn⟩ := h.of_used id x hx
    rw [h.relation, h.same]
    exact hd.columns n (lt_size_of_mem_used hn) x hn

/-! ## Single connections -/

/-- The nodes that the connections of a node lead to. -/
def targets (g : JoinGraph) (a : Nat) : List Nat := (g.connections a).map Connection.target

/-- The number of connections between two nodes, in both directions. -/
def links (g : JoinGraph) (a b : Nat) : Nat := (g.targets a).count b + (g.targets b).count a

/-- Any two nodes are joined by at most one connection, whatever its direction. -/
def Simple (g : JoinGraph) : Prop := ∀ a b, a ≠ b → g.links a b ≤ 1

theorem Simple.of_targets (h : g.Simple) (ht : ∀ a, g'.targets a = g.targets a) : g'.Simple := by
  intro a b hne
  rw [links, ht, ht]
  exact h a b hne

theorem simple_ofRoot {relation : String} : (ofRoot relation).Simple := by
  intro a b _
  simp [links, targets, connections_ofRoot]

theorem targets_addNode {relation : String} : (g.addNode relation).targets a = g.targets a :=
  congrArg (List.map Connection.target) connections_addNode

theorem targets_use {fields : List String} : (g.use id fields).targets a = g.targets a :=
  congrArg (List.map Connection.target) connections_use

theorem targets_extend? {pair : FieldPair} (h : g.extend? owner index pair = some g') :
    g'.targets a = g.targets a := by
  obtain ⟨c, hc, rfl⟩ := extend?_eq_some h
  rw [targets_use, targets_use, targets, connections_setConnections]
  split
  · next ha =>
    obtain ⟨rfl, -⟩ := ha
    -- The connection keeps its target.
    obtain ⟨hindex, rfl⟩ := List.getElem?_eq_some_iff.1 hc
    have hlt : index < (g.targets owner).length := (List.length_map _).symm ▸ hindex
    have htarget : (g.connections owner)[index].target = (g.targets owner)[index] :=
      (List.getElem_map _).symm
    rw [List.map_set, htarget]
    exact List.set_getElem_self hlt
  · rfl

/-- Nothing joins two nodes of which neither leads to the other. -/
theorem links_eq_zero : g.links a b = 0 ↔
    (∀ c ∈ g.connections a, c.target ≠ b) ∧ ∀ c ∈ g.connections b, c.target ≠ a := by
  rw [links, Nat.add_eq_zero_iff, List.count_eq_zero, List.count_eq_zero]
  simp [targets]

theorem links_comm : g.links a b = g.links b a := Nat.add_comm _ _

theorem targets_link :
    (g.link owner c).targets a = if owner = a ∧ a < g.size then g.targets a ++ [c.target]
      else g.targets a := by
  rw [targets, connections_link]
  split
  · rw [List.map_append]
    rfl
  · rfl

theorem Simple.connect (h : g.Simple) (hne : c.target ≠ owner)
    (hnew : g.links owner c.target = 0) : (g.connect owner c).Simple := by
  rcases g.connect_cases owner c with ⟨-, hg⟩ | ⟨-, hg⟩
  · rwa [hg]
  · rw [hg]
    intro a b hab
    have hlinks := h a b hab
    -- The new connection counts for its ends only, which nothing has joined before.
    have hends : (owner = a ∧ c.target = b) ∨ (owner = b ∧ c.target = a) → g.links a b = 0 := by
      rintro (⟨rfl, rfl⟩ | ⟨rfl, rfl⟩)
      · exact hnew
      · exact links_comm.trans hnew
    unfold links at hends hlinks ⊢
    rw [targets_link, targets_link]
    grind

/-- Turning a connection round counts it for its owner instead of its target. -/
theorem count_targets_turn {f : Flip} (hg : g.Wired) (hf : g.flip? = some f) :
    ((g.turn f).targets x).count y + (if f.owner = x ∧ f.connection.target = y then 1 else 0) =
      (g.targets x).count y + if f.connection.target = x ∧ f.owner = y then 1 else 0 := by
  have hfound := getElem?_of_flip? hf
  obtain ⟨hindex, hconn⟩ := List.getElem?_eq_some_iff.1 hfound
  have howner : f.owner < g.size := lt_size_of_mem (List.mem_of_getElem? hfound)
  have htarget : f.connection.target < g.size :=
    hg.bounded f.owner f.connection (List.mem_of_getElem? hfound)
  have herase : (g.targets f.owner).count y =
      (((g.connections f.owner).eraseIdx f.index).map Connection.target).count y +
        if f.connection.target = y then 1 else 0 := by
    have hperm := (List.getElem_cons_eraseIdx_perm hindex).map Connection.target
    rw [targets, ← hperm.count_eq, hconn, List.map_cons, List.count_cons]
    simp
  have hturn : (g.turn f).targets x = (if f.owner = x then
      ((g.connections f.owner).eraseIdx f.index).map Connection.target else g.targets x) ++
        if f.connection.target = x then [f.owner] else [] := by
    rw [targets, turn, connections_push, connections_setConnections, size_setConnections]
    grind [targets]
  rw [hturn, List.count_append]
  grind

theorem links_turn {f : Flip} (hg : g.Wired) (hf : g.flip? = some f) :
    (g.turn f).links a b = g.links a b := by
  have hab := count_targets_turn (x := a) (y := b) hg hf
  have hba := count_targets_turn (x := b) (y := a) hg hf
  simp only [and_comm (a := f.connection.target = _)] at hab hba
  unfold links
  omega

theorem Simple.turn {f : Flip} (h : g.Simple) (hg : g.Wired) (hf : g.flip? = some f) :
    (g.turn f).Simple := by
  intro a b hne
  rw [links_turn hg hf]
  exact h a b hne

theorem links_eq_zero_of_between? (h : g.between? a b = none) : g.links a b = 0 :=
  links_eq_zero.2 (between?_eq_none.1 h)

theorem Step.simple (hstep : Step s g g') (h : g.Simple) (hg : g.Wired) : g'.Simple := by
  rcases hstep with hstep | hstep
  · cases hstep with
    | @follow origin column relation key lt _ _ =>
      have hadd : (g.addNode relation).Simple := h.of_targets fun _ => targets_addNode
      refine hadd.connect (Nat.ne_of_gt lt) (links_eq_zero.2 ⟨?_, ?_⟩)
      · intro c hc
        rw [connections_addNode] at hc
        exact Nat.ne_of_lt (hg.bounded origin c hc)
      · intro c hc
        rw [connections_addNode, connections_of_size_le (Nat.le_refl _)] at hc
        exact absurd hc List.not_mem_nil
    | read _ _ => exact h.of_targets fun _ => targets_use
  · cases hstep with
    | table _ => exact h.of_targets fun _ => targets_addNode
    | within _ _ _ => exact h.of_targets fun _ => targets_use.trans targets_use
    | extend _ _ _ eq => exact h.of_targets fun _ => targets_extend? eq
    | join _ _ ne _ _ new _ _ => exact h.connect (Ne.symm ne) (links_eq_zero_of_between? new)

/-! ## The graphs that are built -/

/-- What later stages rely on. -/
structure WellFormed (s : Schema) (g : JoinGraph) : Prop where
  reached : ∀ id < g.size, g.Reaches id
  wired : g.Wired
  simple : g.Simple
  joining : g.Joining
  declared : g.Declared s

variable {rs : List FetchPlan.Relation} {p : Path}

theorem declared_of_ofPath (hs : Schema.ofRelations rs = .ok s) (h : (ofPath s p).result = .ok g) :
    g.Declared s := by
  refine ofPath_induction hs h ?_ (fun _ _ hg hstep => hstep.declared hg) fun _ _ hg _ => hg.turn
  intro relation key _ hkey
  obtain ⟨r, hr, -⟩ := bind_eq_ok.1 hkey
  exact declared_ofRoot hr

theorem simple_of_ofPath (hs : Schema.ofRelations rs = .ok s) (h : (ofPath s p).result = .ok g) :
    g.Simple := by
  have hboth : g.Wired ∧ g.Simple :=
    ofPath_induction (P := fun g => g.Wired ∧ g.Simple) hs h
      (fun _ _ _ _ => ⟨wired_ofRoot, simple_ofRoot⟩)
      (fun _ _ hg hstep => ⟨hstep.wired hg.1, hstep.simple hg.2 hg.1⟩)
      fun _ _ hg hf => ⟨hg.1.turn hf, hg.2.turn hg.1 hf⟩
  exact hboth.2

/-- Every graph that is built over a verified schema is well-formed. -/
theorem wellFormed_of_ofPath (hs : Schema.ofRelations rs = .ok s)
    (h : (ofPath s p).result = .ok g) : g.WellFormed s where
  reached := reaches_of_ofPath h
  wired := wired_of_ofPath hs h
  simple := simple_of_ofPath hs h
  joining := joining_of_ofPath hs h
  declared := declared_of_ofPath hs h

theorem wellFormed_siblingOrders :
    Schema.ofRelations shopRelations = .ok shop ∧ ∃ flow g, siblingOrders.toPath = .ok flow ∧
      (ofPath shop flow.path).result = .ok g ∧ g.WellFormed shop := by
  have hcheck : (siblingOrders.toPath >>= fun flow => (ofPath shop flow.path).result >>= fun g =>
      .ok (decide (2 < g.size))) = .ok true := by decide +kernel
  obtain ⟨flow, hflow, h⟩ := bind_eq_ok.1 hcheck
  obtain ⟨g, hg, -⟩ := bind_eq_ok.1 h
  exact ⟨ofRelations_shop, flow, g, hflow, hg, wellFormed_of_ofPath ofRelations_shop hg⟩

end JoinGraph
end FetchPlan
