import FetchPlan.Proofs.Flow.OnlyNavigates
import FetchPlan.Proofs.JoinGraph.Walks

/-!
# How a graph grows while a path is walked

Every walk changes the graph by a sequence of steps (`Path.grows_of_walk`), and a path that only
navigates takes steps of navigation alone. What the steps preserve holds of every graph that is
built. The induction carries that all that is noted speaks of columns of nodes of the graph
(`Resolved.Grounded`).
-/

namespace FetchPlan

open Building

/-! ## What steps stand for -/

/-- The node that an association was followed from is a node of the graph, and has the column. -/
structure Hop.Grounded (s : Schema) (g : JoinGraph) (h : Hop) : Prop where
  lt : h.origin < g.size
  declared : s.Declares (g.relation h.origin) h.column

/-- All nodes that a resolved step speaks of are nodes of the graph, and the fields are columns of
them. -/
inductive Resolved.Grounded (s : Schema) (g : JoinGraph) : Resolved → Prop
  | rows {id : Nat} {hop : Option Hop} (lt : id < g.size) (origin : ∀ h ∈ hop, h.Grounded s g) :
      Grounded s g (rows id hop)
  | field {id : Nat} {name : String} {hop : Option Hop} (lt : id < g.size)
      (declared : s.Declares (g.relation id) name) (origin : ∀ h ∈ hop, h.Grounded s g) :
      Grounded s g (field id name hop)
  | record {outputs : List (String × Resolved)} (all : ∀ o ∈ outputs, Grounded s g o.2) :
      Grounded s g (record outputs)
  | scalar : Grounded s g scalar

section Grounded

variable {s : Schema} {g g' : JoinGraph} {r : Resolved}

theorem Hop.Grounded.mono {hop : Hop} (h : hop.Grounded s g) (hg : g.Continues g') :
    hop.Grounded s g' :=
  ⟨Nat.lt_of_lt_of_le h.lt hg.size, by rw [hg.relation _ h.lt]; exact h.declared⟩

theorem Resolved.Grounded.mono (h : r.Grounded s g) (hg : g.Continues g') : r.Grounded s g' := by
  induction h with
  | rows lt origin =>
    exact .rows (Nat.lt_of_lt_of_le lt hg.size) fun h hh => (origin h hh).mono hg
  | field lt declared origin =>
    refine .field (Nat.lt_of_lt_of_le lt hg.size) ?_ fun h hh => (origin h hh).mono hg
    rw [hg.relation _ lt]
    exact declared
  | record _ ih => exact .record ih
  | scalar => exact .scalar

theorem Resolved.Grounded.bound (h : r.Grounded s g) : r.bound.Grounded s g := by
  cases h with
  | rows lt origin => exact .rows lt fun h hh => absurd hh (by simp)
  | field lt declared origin => exact .field lt declared origin
  | record all => exact .record all
  | scalar => exact .scalar

end Grounded

/-- The graph has a root, and what is noted speaks of columns of nodes of the graph. -/
structure Draft.Valid (s : Schema) (d : Draft) : Prop where
  pos : 0 < d.graph.size
  sources : ∀ n ∈ d.sources, n.2.Grounded s d.graph

/-! ## Members and comparisons -/

namespace Resolved.Grounded

variable {s : Schema} {g g' : JoinGraph} {r r' : Resolved} {m : Member} {id : Nat}
  {fields : List String}

/-- Taking a member takes at most one step of navigation. -/
theorem takes (h : r.Grounded s g) (ht : r.Takes s g m r' g') :
    Relation.ReflTransGen (JoinGraph.Navigation s) g g' ∧ r'.Grounded s g' := by
  cases ht with
  | @follow origin hop a declared declared' =>
    cases h with
    | rows lt _ =>
      have hstep := JoinGraph.Navigation.follow lt declared declared'
      refine ⟨.single hstep, .rows (by simp) ?_⟩
      intro hop hhop
      obtain rfl := Option.some.inj hhop
      have horigin : Hop.Grounded s g ⟨origin, a.thisKey, a.otherKey⟩ := ⟨lt, declared⟩
      exact horigin.mono (JoinGraph.Step.continues (Or.inl hstep))
  | read _ declared =>
    cases h with
    | rows lt origin =>
      have hstep := JoinGraph.Navigation.read lt declared
      have hfield := Resolved.Grounded.field lt declared origin
      exact ⟨.single hstep, hfield.mono (JoinGraph.Step.continues (Or.inl hstep))⟩
  | output _ found =>
    cases h with
    | record all =>
      obtain ⟨l₁, l₂, rfl, -⟩ := List.lookup_eq_some_iff.1 found
      exact ⟨.refl, all _ (List.mem_append_right _ List.mem_cons_self)⟩

/-- The sides of an equality are columns of nodes of the graph. -/
theorem compares (hkey : s.KeysDeclared) (h : r.Grounded s g) (hc : r.Compares s g id fields) :
    JoinGraph.Compared s g id fields := by
  cases hc with
  | hop =>
    cases h with
    | rows _ origin =>
      have horigin := origin _ rfl
      exact JoinGraph.compared_singleton horigin.lt horigin.declared
  | key eq =>
    cases h with
    | rows lt _ =>
      obtain ⟨hne, hdeclared⟩ := hkey _ _ eq
      exact ⟨lt, hne, hdeclared⟩
  | known _ =>
    cases h with
    | field _ _ origin =>
      have horigin := origin _ rfl
      exact JoinGraph.compared_singleton horigin.lt horigin.declared
  | field _ =>
    cases h with
    | field lt declared _ => exact JoinGraph.compared_singleton lt declared

end Resolved.Grounded

/-! ## What a walk does -/

namespace Building

/-- The draft stays valid, the graph grows by steps of the given kind, and the result speaks of
columns of nodes of the graph. -/
structure Grows (s : Schema) (step : JoinGraph → JoinGraph → Prop) (d d' : Draft) (r : Resolved) :
    Prop where
  valid : d'.Valid s
  steps : Relation.ReflTransGen step d.graph d'.graph
  continues : d.graph.Continues d'.graph
  grounded : r.Grounded s d'.graph

namespace Grows

variable {s : Schema} {step : JoinGraph → JoinGraph → Prop} {g : JoinGraph} {d d' e : Draft}
  {r r' : Resolved} {m : Member} {id : Nat}

theorem refl (h : d.Valid s) (hr : r.Grounded s d.graph) : Grows s step d d r :=
  ⟨h, .refl, .refl, hr⟩

theorem trans (h : Grows s step d e r) (h' : Grows s step e d' r') : Grows s step d d' r' :=
  ⟨h'.valid, h.steps.trans h'.steps, h.continues.trans h'.continues, h'.grounded⟩

/-- What is noted is what the walk stands for from then on. -/
theorem note (h : Grows s step d e r') (hr : r.Grounded s e.graph) :
    Grows s step d ⟨e.graph, (id, r) :: e.sources⟩ r := by
  refine ⟨⟨h.valid.pos, ?_⟩, h.steps, h.continues, hr⟩
  intro n hn
  rcases List.mem_cons.1 hn with rfl | hn
  · exact hr
  · exact h.valid.sources n hn

/-- The graph takes steps of another kind, and the notes stay as they are. -/
theorem graph {kind : JoinGraph → JoinGraph → Prop} (h : Grows s step d e r')
    (hsteps : Relation.ReflTransGen kind e.graph g)
    (hkind : ∀ g g', kind g g' → JoinGraph.Step s g g' ∧ step g g') (hr : r.Grounded s g) :
    Grows s step d { e with graph := g } r := by
  have hgrown : e.graph.Continues g := JoinGraph.continues_of_steps
    (Relation.ReflTransGen.mono (fun g g' hstep => (hkind g g' hstep).1) _ _ hsteps)
  have hstep := Relation.ReflTransGen.mono (fun g g' hstep => (hkind g g' hstep).2) _ _ hsteps
  refine ⟨⟨Nat.lt_of_lt_of_le h.valid.pos hgrown.size, ?_⟩, h.steps.trans hstep,
    h.continues.trans hgrown, hr⟩
  exact fun n hn => (h.valid.sources n hn).mono hgrown

/-- A member is taken by navigation, and noted. -/
theorem takes (h : Grows s step d e r) (hnav : ∀ g g', JoinGraph.Navigation s g g' → step g g')
    (ht : r.Takes s e.graph m r' g) : Grows s step d ⟨g, (id, r') :: e.sources⟩ r' := by
  obtain ⟨hsteps, hgrounded⟩ := h.grounded.takes ht
  have htaken : Grows s step d { e with graph := g } r' :=
    h.graph hsteps (fun g g' hstep => ⟨Or.inl hstep, hnav g g' hstep⟩) hgrounded
  exact htaken.note hgrounded

end Grows
end Building

variable {s : Schema} {R : JoinGraph → JoinGraph → Prop}

mutual

/-- A walk takes steps of navigation, and of comparison unless the flow only navigates. -/
theorem Flow.grows_of_walk (hkey : s.KeysDeclared)
    (hnav : ∀ g g', JoinGraph.Navigation s g g' → R g g') :
    ∀ (f : Flow) {d d' : Draft} {r : Resolved},
      (f.OnlyNavigates ∨ ∀ g g', JoinGraph.Comparison s g g' → R g g') → d.Valid s →
      Yields (f.walk s) d r d' → Grows s R d d' r
  | .path p, d, d', r, hor, h, hy => by
    rw [Flow.walk] at hy
    exact p.grows_of_walk hkey hnav hor h hy
  | .binary _ op lhs rhs, d, d', r, hor, h, hy => by
    have hl : lhs.OnlyNavigates ∨ ∀ g g', JoinGraph.Comparison s g g' → R g g' :=
      hor.imp_left fun hn => hn.2.1
    have hr : rhs.OnlyNavigates ∨ ∀ g g', JoinGraph.Comparison s g g' → R g g' :=
      hor.imp_left fun hn => hn.2.2
    obtain ⟨_, _, _, e', hleft, hright, rfl, hjoin⟩ := Flow.yields_walk_binary.1 hy
    have gl := lhs.grows_of_walk hkey hnav hl h hleft
    have gr := rhs.grows_of_walk hkey hnav hr gl.valid hright
    have hgrown := gl.trans gr
    rcases hjoin with ⟨hop, hfixed₁, hfixed₂, hequate⟩ | ⟨-, rfl⟩
    · rcases hor with hn | hcmp
      · exact absurd hn (Flow.not_onlyNavigates_of_not_isFixed hop hfixed₁ hfixed₂)
      · obtain ⟨a, fields, b, otherFields, ha, hb, hlen, rfl⟩ := yields_equate.1 hequate
        have hsteps := JoinGraph.steps_equate
          ((gl.grounded.mono gr.continues).compares hkey ha) (gr.grounded.compares hkey hb) hlen
        exact hgrown.graph hsteps (fun g g' hstep => ⟨Or.inr hstep, hcmp g g' hstep⟩) .scalar
    · exact hgrown.trans (.refl hgrown.valid .scalar)
  | .unary _ _ operand, d, d', r, hor, h, hy => by
    obtain ⟨_, hwalk, rfl⟩ := Flow.yields_walk_unary.1 hy
    have go := operand.grows_of_walk hkey hnav hor h hwalk
    exact go.trans (.refl go.valid .scalar)
  | .fixed _, d, d', r, hor, h, hy => by
    obtain ⟨rfl, rfl⟩ := Flow.yields_walk_fixed.1 hy
    exact .refl h .scalar

/-- See `Flow.grows_of_walk`. -/
theorem Path.grows_of_walk (hkey : s.KeysDeclared)
    (hnav : ∀ g g', JoinGraph.Navigation s g g' → R g g') :
    ∀ (p : Path) {d d' : Draft} {r : Resolved},
      (p.OnlyNavigates ∨ ∀ g g', JoinGraph.Comparison s g g' → R g g') → d.Valid s →
      Yields (p.walk s) d r d' → Grows s R d d' r
  | .table id relation, d, d', r, hor, h, hy => by
    have hstart : Grows s R d d .scalar := .refl h .scalar
    by_cases hid : id = 0
    · subst hid
      obtain ⟨rfl, rfl⟩ := Path.yields_walk_root.1 hy
      exact hstart.note (.rows h.pos fun hop hhop => absurd hhop (by simp))
    · obtain ⟨_, known, rfl, rfl⟩ := (Path.yields_walk_table hid).1 hy
      rcases hor with hn | hcmp
      · exact absurd hn hid
      · have hnew : (Resolved.rows d.graph.size none).Grounded s (d.graph.addNode relation) :=
          .rows (by simp) fun hop hhop => absurd hhop (by simp)
        have hgrown := hstart.graph (.single (JoinGraph.Comparison.table known))
          (fun g g' hstep => ⟨Or.inr hstep, hcmp g g' hstep⟩) hnew
        exact hgrown.note hnew
  | .reference id target, d, d', r, hor, h, hy => by
    obtain ⟨r', hlookup, rfl, rfl⟩ := Path.yields_walk_reference.1 hy
    obtain ⟨l₁, l₂, hsources, -⟩ := List.lookup_eq_some_iff.1 hlookup
    have hmem : (target, r') ∈ d.sources :=
      hsources ▸ List.mem_append_right _ List.mem_cons_self
    have hgrounded := (h.sources _ hmem).bound
    exact (Grows.refl h hgrounded).note hgrounded
  | .association init id column relation key, d, d', r, hor, h, hy => by
    obtain ⟨_, _, _, hinit, htakes, rfl⟩ :=
      (Path.yields_walk_step (m := .association ⟨"", column, relation, key⟩)).1 hy
    exact (init.grows_of_walk hkey hnav hor h hinit).takes hnav htakes
  | .column init id name, d, d', r, hor, h, hy => by
    obtain ⟨_, _, _, hinit, htakes, rfl⟩ := (Path.yields_walk_step (m := .column name)).1 hy
    exact (init.grows_of_walk hkey hnav hor h hinit).takes hnav htakes
  | .output init id name, d, d', r, hor, h, hy => by
    obtain ⟨_, _, _, hinit, htakes, rfl⟩ := (Path.yields_walk_step (m := .projected name)).1 hy
    exact (init.grows_of_walk hkey hnav hor h hinit).takes hnav htakes
  | .select init id outputs, d, d', r, hor, h, hy => by
    obtain ⟨_, _, _, hinit, houtputs, rfl⟩ := Path.yields_walk_select.1 hy
    have gi := init.grows_of_walk hkey hnav (hor.imp_left And.left) h hinit
    have go := outputs.grows_of_walk hkey hnav (hor.imp_left And.right) gi.valid houtputs
    exact (gi.trans go).note go.grounded
  | .filter init id inner, d, d', r, hor, h, hy => by
    obtain ⟨_, _, _, hinit, hinner, rfl⟩ := Path.yields_walk_filter.1 hy
    have gi := init.grows_of_walk hkey hnav (hor.imp_left And.left) h hinit
    have gn := inner.grows_of_walk hkey hnav (hor.imp_left And.right) gi.valid hinner
    exact (gi.trans gn).note (gi.grounded.mono gn.continues)

/-- See `Flow.grows_of_walk`. -/
theorem Outputs.grows_of_walk
    (hkey : s.KeysDeclared)
    (hnav : ∀ g g', JoinGraph.Navigation s g g' → R g g') :
    ∀ (o : Outputs) {d d' : Draft} {r : Resolved},
      (o.OnlyNavigates ∨ ∀ g g', JoinGraph.Comparison s g g' → R g g') → d.Valid s →
      Yields (o.walk s) d r d' → Grows s R d d' r
  | .single inner, d, d', r, hor, h, hy => by
    rw [Outputs.walk] at hy
    exact inner.grows_of_walk hkey hnav hor h hy
  | .record fields, d, d', r, hor, h, hy => by
    obtain ⟨_, hfields, rfl⟩ := Outputs.yields_walk_record.1 hy
    exact fields.grows_of_walk hkey hnav hor h hfields

/-- See `Flow.grows_of_walk`. -/
theorem FlowFields.grows_of_walk
    (hkey : s.KeysDeclared)
    (hnav : ∀ g g', JoinGraph.Navigation s g g' → R g g') :
    ∀ (fs : FlowFields) {d d' : Draft} {outputs : List (String × Resolved)},
      (fs.OnlyNavigates ∨ ∀ g g', JoinGraph.Comparison s g g' → R g g') → d.Valid s →
      Yields (fs.walk s) d outputs d' → Grows s R d d' (.record outputs)
  | .nil, d, d', outputs, hor, h, hy => by
    rw [FlowFields.walk] at hy
    obtain ⟨rfl, rfl⟩ := yields_pure.1 hy
    exact .refl h (.record fun o ho => absurd ho List.not_mem_nil)
  | .cons name inner rest, d, d', outputs, hor, h, hy => by
    obtain ⟨_, _, _, hinner, hrest, rfl⟩ := FlowFields.yields_walk_cons.1 hy
    have gi := inner.grows_of_walk hkey hnav (hor.imp_left And.left) h hinner
    have gr := rest.grows_of_walk hkey hnav (hor.imp_left And.right) gi.valid hrest
    refine ⟨gr.valid, gi.steps.trans gr.steps, gi.continues.trans gr.continues, .record ?_⟩
    intro o ho
    rcases List.mem_cons.1 ho with rfl | ho
    · exact gi.grounded.mono gr.continues
    · cases gr.grounded with
      | record all => exact all o ho

end

end FetchPlan
