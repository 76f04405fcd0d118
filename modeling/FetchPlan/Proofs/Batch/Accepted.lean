import FetchPlan.Proofs.Batch.Staged
import FetchPlan.Proofs.JoinGraph.Visits
import FetchPlan.Proofs.JoinGraph.WellFormed

/-!
# The graphs that batches are made from

A connection is keyed if one of its sides is joined on exactly a primary key. A batch is made from
a graph if all connections that are met on its tour are keyed, and otherwise the error names the
first that is not (`ofGraph_cases`). Nothing else can go wrong, since all that is staged is
declared.
-/

namespace FetchPlan

open Emitting JoinGraph

/-! ## Primary keys -/

namespace Schema

variable {s : Schema} {rs : List Relation} {relation : String} {r : Relation}

/-- The fields are exactly those of the primary key. -/
def IsKey (s : Schema) (relation : String) (fields : FieldSet) : Prop :=
  ∃ key, s.primaryKey relation = .ok key ∧ ∀ x, x ∈ fields ↔ x ∈ key

/-- The check of a primary key is exact. -/
theorem isPrimaryKey_eq (hs : ofRelations rs = .ok s) (hr : s.relation relation = .ok r)
    (fields : FieldSet) :
    ∃ isKey, s.isPrimaryKey relation fields.toList = .ok isKey ∧
      (isKey = true ↔ s.IsKey relation fields) := by
  have hkey : s.primaryKey relation = .ok r.primaryKey := bind_eq_ok.2 ⟨r, hr, rfl⟩
  refine ⟨_, bind_eq_ok.2 ⟨r, hr, rfl⟩, ?_⟩
  simp only [Bool.and_eq_true, List.all_eq_true, List.contains_iff_mem, beq_iff_eq]
  constructor
  · intro h
    exact ⟨_, hkey, fun x => ⟨h.1.2 x, h.2 x⟩⟩
  · intro h
    obtain ⟨key, hkey', hmem⟩ := h
    obtain rfl := Except.ok.inj (hkey.symm.trans hkey')
    -- Lists without repetition that have the same members are equally long.
    have hperm := (List.perm_ext_iff_of_nodup (OrderedSet.nodup_toList fields)
      (key_of_ofRelations hs hkey).2).2 hmem
    exact ⟨⟨hperm.length_eq.symm, fun x hx => (hmem x).1 hx⟩, fun x hx => (hmem x).2 hx⟩

end Schema

variable {s : Schema} {config : Config} {g : JoinGraph} {rs : List Relation} {owner id : Nat}
  {c : Connection} {p : Passage} {e : Emission}

namespace JoinGraph

/-- One of the sides is joined on exactly its primary key. -/
def Keyed (s : Schema) (g : JoinGraph) (owner : Nat) (c : Connection) : Prop :=
  s.IsKey (g.relation owner) c.fields.sources ∨ s.IsKey (g.relation c.target) c.fields.targets

end JoinGraph

namespace Emitting

/-- The error for a connection that is keyed on neither side. -/
def unkeyed (g : JoinGraph) (owner : Nat) (c : Connection) : Error :=
  Cause.invalidJoin (g.relation owner) c.fields.sources.toList (g.relation c.target)
    c.fields.targets.toList

theorem keyedOnOwner_cases (hs : Schema.ofRelations rs = .ok s) (hg : g.Wired)
    (hd : g.Declared s) (hc : c ∈ g.connections owner) :
    (g.Keyed s owner c ∧ ∃ keyed, keyedOnOwner s g owner c = .ok keyed) ∨
      (¬ g.Keyed s owner c ∧ keyedOnOwner s g owner c = .error (unkeyed g owner c)) := by
  obtain ⟨r, hr⟩ := hd.known owner (lt_size_of_mem hc)
  obtain ⟨r', hr'⟩ := hd.known c.target (hg.bounded owner c hc)
  obtain ⟨onOwner, howner, howner'⟩ := Schema.isPrimaryKey_eq hs hr c.fields.sources
  obtain ⟨onTarget, htarget, htarget'⟩ := Schema.isPrimaryKey_eq hs hr' c.fields.targets
  have hcheck : keyedOnOwner s g owner c = if onOwner then .ok true else
      if onTarget then .ok false else .error (unkeyed g owner c) := by
    simp only [keyedOnOwner, howner, htarget]
    rfl
  rw [hcheck]
  cases onOwner with
  | true => exact Or.inl ⟨Or.inl (howner'.1 rfl), true, rfl⟩
  | false =>
    cases onTarget with
    | true => exact Or.inl ⟨Or.inr (htarget'.1 rfl), false, rfl⟩
    | false =>
      refine Or.inr ⟨?_, rfl⟩
      rintro (hkey | hkey)
      · exact Bool.false_ne_true (howner'.2 hkey)
      · exact Bool.false_ne_true (htarget'.2 hkey)

/-! ## What cannot fail -/

theorem exists_mapM_columnDef {relation : String} {names : List String}
    (h : ∀ x ∈ names, s.Declares relation x) :
    ∃ columns, names.mapM (columnDef s relation) = .ok columns := by
  induction names with
  | nil => exact ⟨[], rfl⟩
  | cons name names ih =>
    obtain ⟨type, htype⟩ := h name List.mem_cons_self
    obtain ⟨columns, hcolumns⟩ := ih fun x hx => h x (List.mem_cons_of_mem name hx)
    have hcolumn : columnDef s relation name = .ok ⟨name, type⟩ := bind_eq_ok.2 ⟨type, htype, rfl⟩
    refine ⟨⟨name, type⟩ :: columns, ?_⟩
    rw [List.mapM_cons, hcolumn, hcolumns]
    rfl

/-- All staged fields of a declared graph are columns. -/
theorem exists_stagedFields (hkey : s.KeysDeclared) (hd : g.Declared s) (hid : id < g.size) :
    ∃ fields, g.stagedFields s id = .ok fields ∧
      ∀ x ∈ fields, s.Declares (g.relation id) x := by
  obtain ⟨r, hr⟩ := hd.known id hid
  have hprimary : s.primaryKey (g.relation id) = .ok r.primaryKey := bind_eq_ok.2 ⟨r, hr, rfl⟩
  rw [stagedFields]
  split
  · rw [hprimary]
    refine ⟨_, rfl, ?_⟩
    intro x hx
    rcases OrderedSet.mem_insertAll.1 hx with hx | hx
    · exact (hkey _ _ hprimary).2 x hx
    · exact hd.columns id hid x hx
  · exact ⟨_, rfl, hd.columns id hid⟩

theorem exists_stagedColumns (hkey : s.KeysDeclared) (hd : g.Declared s) (hid : id < g.size) :
    ∃ columns, stagedColumns s g id = .ok columns := by
  obtain ⟨fields, hfields, hdeclared⟩ := exists_stagedFields hkey hd hid
  obtain ⟨columns, hmap⟩ := exists_mapM_columnDef hdeclared
  exact ⟨columns, bind_eq_ok.2 ⟨fields, hfields, hmap⟩⟩

theorem exists_yields_fetchRoot (hkey : s.KeysDeclared) (hd : g.Declared s) (hpos : 0 < g.size)
    (config : Config) (e : Emission) :
    ∃ e', Yields (fetchRoot s config g) e () e' := by
  obtain ⟨r, hr⟩ := hd.known root hpos
  obtain ⟨columns, hcolumns⟩ := exists_stagedColumns hkey hd hpos
  have hprimary : s.primaryKey (g.relation root) = .ok r.primaryKey := bind_eq_ok.2 ⟨r, hr, rfl⟩
  exact ⟨_, yields_fetchRoot.2 ⟨r.primaryKey, columns, hprimary, hcolumns, rfl⟩⟩

/-! ## The tour -/

/-- A passage over a keyed connection succeeds. -/
theorem exists_yields_pass {keyed : Bool} (hkey : s.KeysDeclared) (hg : g.Wired)
    (hd : g.Declared s) (hp : p.connection ∈ g.connections p.owner)
    (hkeyed : keyedOnOwner s g p.owner p.connection = .ok keyed) (config : Config)
    (e : Emission) : ∃ e', Yields (pass s config g p) e () e' := by
  have htarget : p.connection.target < g.size := hg.bounded _ _ hp
  obtain ⟨owner, c, isFirst⟩ := p
  cases isFirst with
  | false => exact ⟨e, yields_pass_again.2 ⟨⟨keyed, hkeyed⟩, rfl⟩⟩
  | true =>
    obtain ⟨columns, hcolumns⟩ := exists_stagedColumns hkey hd htarget
    exact ⟨_, yields_pass_first.2 ⟨keyed, columns, hkeyed, hcolumns, rfl⟩⟩

/-- A passage over another connection fails. -/
theorem fails_pass (h : keyedOnOwner s g p.owner p.connection =
    .error (unkeyed g p.owner p.connection)) :
    Fails (pass s config g p) e (unkeyed g p.owner p.connection) :=
  (fails_liftExcept h).bind

/-- The first connection that is not keyed ends the emission. -/
theorem forM_pass_cases (hs : Schema.ofRelations rs = .ok s) (hg : g.Wired) (hd : g.Declared s)
    {passages : List Passage} (hp : ∀ p ∈ passages, p.connection ∈ g.connections p.owner)
    (config : Config) (e : Emission) :
    ((∀ p ∈ passages, g.Keyed s p.owner p.connection) ∧
        ∃ e', Yields (passages.forM (pass s config g)) e () e') ∨
      ∃ before p after, passages = before ++ p :: after ∧
        (∀ q ∈ before, g.Keyed s q.owner q.connection) ∧ ¬ g.Keyed s p.owner p.connection ∧
        Fails (passages.forM (pass s config g)) e (unkeyed g p.owner p.connection) := by
  induction passages generalizing e with
  | nil => exact Or.inl ⟨fun p hp => absurd hp List.not_mem_nil, e, yields_pure.2 ⟨rfl, rfl⟩⟩
  | cons p passages ih =>
    have hmem := hp p List.mem_cons_self
    rcases keyedOnOwner_cases hs hg hd hmem with ⟨hkeyed, keyed, hcheck⟩ | ⟨hnot, hcheck⟩
    · obtain ⟨e₁, hpass⟩ := exists_yields_pass (Schema.keysDeclared_of_ofRelations hs) hg hd hmem
        hcheck config e
      rcases ih (fun q hq => hp q (List.mem_cons_of_mem p hq)) e₁ with
        ⟨hall, e', hrest⟩ | ⟨before, q, after, rfl, hbefore, hq, hrest⟩
      · exact Or.inl ⟨List.forall_mem_cons.2 ⟨hkeyed, hall⟩, e',
          yields_bind.2 ⟨(), e₁, hpass, hrest⟩⟩
      · exact Or.inr ⟨p :: before, q, after, rfl, List.forall_mem_cons.2 ⟨hkeyed, hbefore⟩, hq,
          hpass.fails_bind hrest⟩
    · exact Or.inr ⟨[], p, passages, rfl, fun q hq => absurd hq List.not_mem_nil, hnot,
        (fails_pass hcheck).bind⟩

end Emitting

namespace Batch

/-- A batch is made from a graph, or the first connection of its tour that is not keyed is the
error. -/
theorem ofGraph_cases (hs : Schema.ofRelations rs = .ok s) (hg : g.Wired) (hd : g.Declared s)
    (hpos : 0 < g.size) (config : Config) :
    ((∀ p ∈ g.tour, g.Keyed s p.owner p.connection) ∧
        ∃ b, (ofGraph s config g).result = .ok b) ∨
      ∃ before p after, g.tour = before ++ p :: after ∧
        (∀ q ∈ before, g.Keyed s q.owner q.connection) ∧ ¬ g.Keyed s p.owner p.connection ∧
        (ofGraph s config g).result = .error (unkeyed g p.owner p.connection) := by
  have hkey := Schema.keysDeclared_of_ofRelations hs
  have hmem : ∀ p ∈ g.tour, p.connection ∈ g.connections p.owner := fun p hp =>
    (mem_tour.1 ⟨p, hp, rfl, rfl⟩).2
  obtain ⟨e, hroot⟩ := exists_yields_fetchRoot hkey hd hpos config {}
  rcases forM_pass_cases hs hg hd hmem config e with
    ⟨hall, e', htour⟩ | ⟨before, p, after, heq, hbefore, hp, htour⟩
  · refine Or.inl ⟨hall, ⟨e'.declarations, e'.fetches⟩, result_bind_eq_ok.2 ⟨((), e'), ?_, rfl⟩⟩
    exact yields_bind.2 ⟨(), e, hroot, htour⟩
  · refine Or.inr ⟨before, p, after, heq, hbefore, hp, ?_⟩
    have hemit : Fails (do fetchRoot s config g; g.tour.forM (pass s config g)) {}
        (unkeyed g p.owner p.connection) := hroot.fails_bind htour
    unfold ofGraph
    rw [Traced.result_bind]
    exact congrArg (· >>= _) hemit

/-- A batch is made from a graph exactly if every connection of every reached node is keyed. -/
theorem exists_ofGraph_iff (hs : Schema.ofRelations rs = .ok s) (hg : g.Wired) (hd : g.Declared s)
    (hpos : 0 < g.size) : (∃ b, (ofGraph s config g).result = .ok b) ↔
      ∀ a, g.Reaches a → ∀ c ∈ g.connections a, g.Keyed s a c := by
  rcases ofGraph_cases hs hg hd hpos config with ⟨hall, hok⟩ | ⟨before, p, after, heq, -, hp, herr⟩
  · refine iff_of_true hok ?_
    intro a ha c hc
    obtain ⟨p, hp, rfl, rfl⟩ := mem_tour.2 ⟨ha, hc⟩
    exact hall p hp
  · have hmem : p ∈ g.tour := heq ▸ List.mem_append_right _ List.mem_cons_self
    obtain ⟨hreach, hc⟩ := mem_tour.1 ⟨p, hmem, rfl, rfl⟩
    refine iff_of_false ?_ fun hall => hp (hall _ hreach _ hc)
    intro hok
    obtain ⟨b, hb⟩ := hok
    exact absurd (herr.symm.trans hb) (by simp)

variable {path : Path} {g' : JoinGraph}

/-- A batch is made from a graph that is built, optimized or not, exactly if every connection of
every reached node is keyed. Otherwise the error is an invalid join, and names the first connection
in depth-first order that is not keyed. -/
theorem ofGraph_eq_ok_iff_keyed (hs : Schema.ofRelations rs = .ok s)
    (hg : (ofPath s path).result = .ok g) (hg' : g' = g ∨ g' = g.optimize.graph)
    (config : Config) :
    (∃ met, g'.Visits root (g'.connections root) [root] g'.tour met) ∧
      ((∃ b, (ofGraph s config g').result = .ok b) ↔
        ∀ a, g'.Reaches a → ∀ c ∈ g'.connections a, g'.Keyed s a c) ∧
      ∀ e, (ofGraph s config g').result = .error e →
        ∃ before p after, g'.tour = before ++ p :: after ∧
          (∀ q ∈ before, g'.Keyed s q.owner q.connection) ∧ ¬ g'.Keyed s p.owner p.connection ∧
          e = Cause.invalidJoin (g'.relation p.owner) p.connection.fields.sources.toList
            (g'.relation p.connection.target) p.connection.fields.targets.toList ∧
          e.kinds = [.invalidJoin] := by
  obtain ⟨ρ, hρ⟩ : ∃ ρ, Absorbs ρ g g' := by
    rcases hg' with rfl | rfl
    · exact ⟨_, .refl (wired_of_ofPath hs hg)⟩
    · exact ⟨_, run_optimize.absorbs (wired_of_ofPath hs hg)⟩
  have hpos : 0 < g'.size := hρ.size ▸ (root_of_ofPath hs hg).1
  have hwired := hρ.wired (wired_of_ofPath hs hg)
  have hdeclared := hρ.declared (declared_of_ofPath hs hg)
  refine ⟨g'.visits_tour, exists_ofGraph_iff hs hwired hdeclared hpos, ?_⟩
  intro e he
  rcases ofGraph_cases hs hwired hdeclared hpos config with
    ⟨-, b, hb⟩ | ⟨before, p, after, heq, hbefore, hp, herr⟩
  · exact absurd (he.symm.trans hb) (by simp)
  · obtain rfl := Except.error.inj (he.symm.trans herr)
    exact ⟨before, p, after, heq, hbefore, hp, rfl, rfl⟩

/-- The orders with a payment of the same customer. -/
def paidOrders : Expr :=
  .filter (.table "Order") <| .lambda ["o"] <|
    .any (.table "Payment") <| .lambda ["p"] <|
      .binary .eq (.member (.param "p") (.column "CustomerId"))
        (.member (.param "o") (.column "CustomerId"))

/-- A batch is made for the one query and not for the other. -/
theorem ofGraph_siblingOrders_paidOrders :
    Schema.ofRelations shopRelations = .ok shop ∧
      (∃ flow g, siblingOrders.toPath = .ok flow ∧ (ofPath shop flow.path).result = .ok g ∧
        (∃ b, (ofGraph shop {} g).result = .ok b) ∧
        ∀ a, g.Reaches a → ∀ c ∈ g.connections a, g.Keyed shop a c) ∧
      ∃ flow g e, paidOrders.toPath = .ok flow ∧ (ofPath shop flow.path).result = .ok g ∧
        (ofGraph shop {} g).result = .error e ∧ e.kinds = [.invalidJoin] := by
  refine ⟨ofRelations_shop, ?_, ?_⟩
  · have hcheck : (siblingOrders.toPath >>= fun flow => (ofPath shop flow.path).result >>= fun g =>
        (ofGraph shop {} g).result >>= fun b => .ok b.fetches.length) = .ok 3 := by decide +kernel
    obtain ⟨flow, hflow, h⟩ := bind_eq_ok.1 hcheck
    obtain ⟨g, hg, h⟩ := bind_eq_ok.1 h
    obtain ⟨b, hb, -⟩ := bind_eq_ok.1 h
    obtain ⟨-, hiff, -⟩ := ofGraph_eq_ok_iff_keyed ofRelations_shop hg (Or.inl rfl) {}
    exact ⟨flow, g, hflow, hg, ⟨b, hb⟩, hiff.1 ⟨b, hb⟩⟩
  · have hcheck : (paidOrders.toPath >>= fun flow => (ofPath shop flow.path).result >>= fun g =>
        .ok (ofGraph shop {} g).result.isOk) = .ok false := by decide +kernel
    obtain ⟨flow, hflow, h⟩ := bind_eq_ok.1 hcheck
    obtain ⟨g, hg, h⟩ := bind_eq_ok.1 h
    cases herr : (ofGraph shop {} g).result with
    | ok b =>
      rw [herr] at h
      exact absurd (Except.ok.inj h) (by simp [Except.isOk, Except.toBool])
    | error e =>
      obtain ⟨-, -, hall⟩ := ofGraph_eq_ok_iff_keyed ofRelations_shop hg (Or.inl rfl) {}
      obtain ⟨-, -, -, -, -, -, -, hkinds⟩ := hall e herr
      exact ⟨flow, g, e, hflow, hg, herr, hkinds⟩

end Batch
end FetchPlan
