import FetchPlan.JoinGraph.OfFlow
import FetchPlan.Proofs.JoinGraph.Facts
import FetchPlan.Proofs.Yields

/-!
# Single operations of a walk

What each operation of a walk yields, and from which drafts. A member is taken, or two sides are
compared, in a way that depends on the graph alone (`Resolved.Takes`, `Resolved.Compares`), and the
notes stay as they are.
-/

namespace FetchPlan

open Building

namespace Building

variable {s : Schema} {g : JoinGraph} {d d' : Draft} {r r' : Resolved} {u : Unit}

/-! ## Single operations -/

theorem yields_graph : Yields graph d g d' ↔ g = d.graph ∧ d' = d := by
  rw [graph, yields_bind]
  constructor
  · rintro ⟨a, e, h, hg⟩
    obtain ⟨rfl, rfl⟩ := yields_get.1 h
    exact yields_pure.1 hg
  · rintro ⟨rfl, rfl⟩
    exact ⟨d', d', yields_get.2 ⟨rfl, rfl⟩, yields_pure.2 ⟨rfl, rfl⟩⟩

theorem yields_setGraph : Yields (setGraph g) d u d' ↔ d' = { d with graph := g } :=
  yields_modify

theorem yields_report {e : Event} : Yields (report e) d u d' ↔ d' = d := by
  rw [report, yields_lift]
  simp

theorem not_yields_fail {α : Type} {a : α} {e : Error} : ¬ Yields (fail e) d a d' := by
  rw [fail, yields_lift]
  simp

theorem yields_discard {α : Type} {x : Building α} :
    Yields (discard x) d u d' ↔ ∃ a, Yields x d a d' := by
  have h : Yields (discard x) d u d' ↔ Yields ((fun _ => ()) <$> x) d u d' := Iff.rfl
  rw [h, yields_map]
  simp

theorem yields_note {id : Nat} :
    Yields (note id r) d r' d' ↔ r' = r ∧ d' = { d with sources := (id, r) :: d.sources } := by
  rw [note, yields_bind]
  constructor
  · rintro ⟨u, e, hm, hp⟩
    obtain rfl := yields_modify.1 hm
    exact yields_pure.1 hp
  · rintro ⟨rfl, rfl⟩
    exact ⟨(), _, yields_modify.2 rfl, yields_pure.2 ⟨rfl, rfl⟩⟩

theorem yields_addNode {relation : String} {id : Nat} :
    Yields (addNode relation) d id d' ↔
      id = d.graph.size ∧ d' = { d with graph := d.graph.addNode relation } := by
  rw [addNode, yields_bind]
  constructor
  · rintro ⟨g, e, hg, h⟩
    obtain ⟨rfl, rfl⟩ := yields_graph.1 hg
    obtain ⟨u, e', hs, hp⟩ := yields_bind.1 h
    obtain rfl := yields_setGraph.1 hs
    exact yields_pure.1 hp
  · rintro ⟨rfl, rfl⟩
    exact ⟨_, _, yields_graph.2 ⟨rfl, rfl⟩,
      yields_bind.2 ⟨(), _, yields_setGraph.2 rfl, yields_pure.2 ⟨rfl, rfl⟩⟩⟩

/-! ## First steps -/

variable {α β : Type} {b : β}

theorem yields_graph_bind {f : JoinGraph → Building β} :
    Yields (graph >>= f) d b d' ↔ Yields (f d.graph) d b d' := by
  rw [yields_bind]
  constructor
  · intro h
    obtain ⟨g, e, hgraph, h⟩ := h
    obtain ⟨rfl, rfl⟩ := yields_graph.1 hgraph
    exact h
  · intro h
    exact ⟨d.graph, d, yields_graph.2 ⟨rfl, rfl⟩, h⟩

theorem yields_report_bind {e : Event} {f : Unit → Building β} :
    Yields (report e >>= f) d b d' ↔ Yields (f ()) d b d' := by
  rw [yields_bind]
  constructor
  · intro h
    obtain ⟨u, e, hreport, h⟩ := h
    obtain rfl := yields_report.1 hreport
    exact h
  · intro h
    exact ⟨(), d, yields_report.2 rfl, h⟩

theorem yields_discard_bind {x : Building α} {f : Unit → Building β} :
    Yields (discard x >>= f) d b d' ↔ ∃ a e, Yields x d a e ∧ Yields (f ()) e b d' := by
  rw [yields_bind]
  constructor
  · intro h
    obtain ⟨u, e, hdiscard, h⟩ := h
    obtain ⟨a, hx⟩ := yields_discard.1 hdiscard
    exact ⟨a, e, hx, h⟩
  · intro h
    obtain ⟨a, e, hx, h⟩ := h
    exact ⟨(), e, yields_discard.2 ⟨a, hx⟩, h⟩

/-- A check lets the computation go on or ends it. -/
theorem yields_check_bind {x : Except Error α} {f : Unit → Building β} :
    Yields (discard (liftM x) >>= f) d b d' ↔ ∃ a, x = .ok a ∧ Yields (f ()) d b d' := by
  rw [yields_discard_bind]
  constructor
  · intro h
    obtain ⟨a, e, hlift, h⟩ := h
    obtain ⟨hx, rfl⟩ := yields_liftExcept.1 hlift
    exact ⟨a, hx, h⟩
  · intro h
    obtain ⟨a, hx, h⟩ := h
    exact ⟨a, d, yields_liftExcept.2 ⟨hx, rfl⟩, h⟩

theorem yields_addNode_bind {relation : String} {f : Nat → Building β} :
    Yields (addNode relation >>= f) d b d' ↔
      Yields (f d.graph.size) { d with graph := d.graph.addNode relation } b d' := by
  rw [yields_bind]
  constructor
  · intro h
    obtain ⟨id, e, hadd, h⟩ := h
    obtain ⟨rfl, rfl⟩ := yields_addNode.1 hadd
    exact h
  · intro h
    exact ⟨_, _, yields_addNode.2 ⟨rfl, rfl⟩, h⟩

/-! ## Connections -/

theorem yields_connect {owner : Nat} {c : Connection} :
    Yields (connect owner c) d u d' ↔ d' = { d with graph := d.graph.connect owner c } := by
  rw [connect, yields_graph_bind, JoinGraph.connect]
  cases d.graph.connect? owner c with
  | none => exact yields_pure.trans (and_iff_right rfl)
  | some g' => exact yields_report_bind.trans yields_setGraph

/-- An extension changes nothing if the pair is there already. -/
theorem yields_extend {owner index : Nat} {pair : FieldPair} :
    Yields (extend owner index pair) d u d' ↔
      d' = { d with graph := (d.graph.extend? owner index pair).getD d.graph } := by
  rw [extend, yields_graph_bind]
  cases d.graph.extend? owner index pair with
  | none => exact yields_pure.trans (and_iff_right rfl)
  | some g' =>
    dsimp only
    split
    · exact yields_report_bind.trans yields_setGraph
    · exact yields_setGraph

theorem yields_extendAll {owner index a : Nat} {pairs : List (String × String)} :
    Yields (extendAll owner index a pairs) d u d' ↔
      d' = { d with graph := d.graph.extendAll owner index a pairs } := by
  induction pairs generalizing d with
  | nil => exact yields_pure.trans (and_iff_right rfl)
  | cons pair pairs ih =>
    constructor
    · intro h
      obtain ⟨_, _, hextend, hrest⟩ := yields_bind.1 h
      obtain rfl := yields_extend.1 hextend
      exact ih.1 hrest
    · intro h
      exact yields_bind.2 ⟨(), _, yields_extend.2 rfl, ih.2 h⟩

end Building

/-! ## Members -/

namespace Resolved

/-- Taking a member of what is resolved: what it is resolved to, and the graph from then on. -/
inductive Takes (s : Schema) (g : JoinGraph) : Resolved → Member → Resolved → JoinGraph → Prop
  /-- An association leads to a node of its own. -/
  | follow {origin : Nat} {hop : Option Hop} {a : Association}
      (declared : s.Declares (g.relation origin) a.thisKey)
      (declared' : s.Declares a.otherRelation a.otherKey) :
      Takes s g (rows origin hop) (.association a)
        (rows g.size (some ⟨origin, a.thisKey, a.otherKey⟩))
        ((g.addNode a.otherRelation).connect origin
          ⟨g.size, FieldPairs.zip [a.thisKey] [a.otherKey]⟩)
  /-- A column of rows is read. -/
  | read {id : Nat} {hop : Option Hop} {m : Member} (named : ∀ a, m ≠ .association a)
      (declared : s.Declares (g.relation id) m.name) :
      Takes s g (rows id hop) m (field id m.name hop) (g.use id [m.name])
  /-- An output of a record is there already. -/
  | output {outputs : List (String × Resolved)} {m : Member} {r : Resolved}
      (named : ∀ a, m ≠ .association a) (found : outputs.lookup m.name = some r) :
      Takes s g (record outputs) m r g

/-- What one side of an equality compares: a node and fields of it. -/
inductive Compares (s : Schema) (g : JoinGraph) : Resolved → Nat → List String → Prop
  /-- Rows reached by an association stand for the column it leaves from. -/
  | hop {id : Nat} {hop : Hop} : Compares s g (rows id (some hop)) hop.origin [hop.column]
  /-- Other rows stand for their primary key. -/
  | key {id : Nat} {key : List String} (eq : s.primaryKey (g.relation id) = .ok key) :
      Compares s g (rows id none) id key
  /-- A primary key that an association leads to stands for the column it leaves from. -/
  | known {id : Nat} {hop : Hop} (eq : s.isPrimaryKey (g.relation id) [hop.key] = .ok true) :
      Compares s g (field id hop.key (some hop)) hop.origin [hop.column]
  /-- Other fields stand for themselves. -/
  | field {id : Nat} {name : String} {hop : Option Hop}
      (other : ∀ h ∈ hop, name = h.key → s.isPrimaryKey (g.relation id) [name] = .ok false) :
      Compares s g (field id name hop) id [name]

end Resolved

namespace Building

variable {s : Schema} {d d' : Draft} {v w : Resolved} {u : Unit} {a : Nat} {fields : List String}

theorem yields_follow {a : Association} :
    Yields (follow s v a.thisKey a.otherRelation a.otherKey) d w d' ↔
      ∃ g, v.Takes s d.graph (.association a) w g ∧ d' = { d with graph := g } := by
  constructor
  · intro h
    cases v with
    | rows origin hop =>
      have h := yields_graph_bind.1 h
      obtain ⟨type, htype, h⟩ := yields_check_bind.1 h
      obtain ⟨type', htype', h⟩ := yields_check_bind.1 h
      have h := yields_addNode_bind.1 h
      obtain ⟨_, _, hconnect, h⟩ := yields_bind.1 h
      obtain rfl := yields_connect.1 hconnect
      obtain ⟨rfl, rfl⟩ := yields_pure.1 h
      exact ⟨_, .follow ⟨type, htype⟩ ⟨type', htype'⟩, rfl⟩
    | _ => exact absurd h not_yields_fail
  · rintro ⟨g, htakes, rfl⟩
    cases htakes with
    | follow declared declared' =>
      obtain ⟨type, htype⟩ := declared
      obtain ⟨type', htype'⟩ := declared'
      exact yields_graph_bind.2 (yields_check_bind.2 ⟨type, htype, yields_check_bind.2 ⟨type',
        htype', yields_addNode_bind.2 (yields_bind.2 ⟨(), _, yields_connect.2 rfl,
          yields_pure.2 ⟨rfl, rfl⟩⟩)⟩⟩)
    | read named _ => exact absurd rfl (named a)
    | output named _ => exact absurd rfl (named a)

theorem yields_read {m : Member} (named : ∀ a, m ≠ .association a) :
    Yields (read s v m.name) d w d' ↔
      ∃ g, v.Takes s d.graph m w g ∧ d' = { d with graph := g } := by
  constructor
  · intro h
    cases v with
    | rows id hop =>
      have h := yields_graph_bind.1 h
      obtain ⟨type, htype, h⟩ := yields_check_bind.1 h
      have h := yields_modify_bind.1 h
      obtain ⟨rfl, rfl⟩ := yields_pure.1 h
      exact ⟨_, .read named ⟨type, htype⟩, rfl⟩
    | record outputs =>
      simp only [read] at h
      split at h
      · next r hfound =>
        obtain ⟨rfl, rfl⟩ := yields_pure.1 h
        exact ⟨_, .output named hfound, rfl⟩
      · exact absurd h not_yields_fail
    | _ => exact absurd h not_yields_fail
  · rintro ⟨g, htakes, rfl⟩
    cases htakes with
    | follow _ _ => exact absurd rfl (named _)
    | read _ declared =>
      obtain ⟨type, htype⟩ := declared
      exact yields_graph_bind.2 (yields_check_bind.2 ⟨type, htype, yields_modify_bind.2
        (yields_pure.2 ⟨rfl, rfl⟩)⟩)
    | output _ found =>
      simp only [read, found]
      exact yields_pure.2 ⟨rfl, rfl⟩

/-! ## Comparisons -/

private theorem yields_pure_pair {b : Nat} {names : List String} :
    Yields (pure (b, names) : Building (Nat × List String)) d (a, fields) d' ↔
      (a = b ∧ fields = names) ∧ d' = d := by
  rw [yields_pure, Prod.mk.injEq]

/-- A field of rows that an association leads to stands for the column that it leaves from, if it is
their primary key. -/
private theorem yields_side_field {id : Nat} {name : String} {hop : Hop} :
    Yields (side s (.field id name (some hop))) d (a, fields) d' ↔
      (Resolved.field id name (some hop)).Compares s d.graph a fields ∧ d' = d := by
  simp only [side]
  by_cases hkey : name = hop.key
  · rw [if_pos hkey, yields_graph_bind, yields_liftExcept_bind]
    constructor
    · rintro ⟨isKey, hisKey, h⟩
      subst hkey
      cases isKey with
      | true =>
        obtain ⟨⟨rfl, rfl⟩, rfl⟩ := yields_pure_pair.1 h
        exact ⟨.known hisKey, rfl⟩
      | false =>
        obtain ⟨⟨rfl, rfl⟩, rfl⟩ := yields_pure_pair.1 h
        refine ⟨.field ?_, rfl⟩
        intro h _ _
        exact hisKey
    · rintro ⟨h, rfl⟩
      cases h with
      | known eq => exact ⟨true, eq, yields_pure_pair.2 ⟨⟨rfl, rfl⟩, rfl⟩⟩
      | field other => exact ⟨false, other hop rfl hkey, yields_pure_pair.2 ⟨⟨rfl, rfl⟩, rfl⟩⟩
  · rw [if_neg hkey]
    refine yields_pure_pair.trans (and_congr_left fun _ => ⟨?_, ?_⟩)
    · rintro ⟨rfl, rfl⟩
      refine .field ?_
      intro h hh heq
      obtain rfl := Option.some.inj hh
      exact absurd heq hkey
    · intro h
      cases h with
      | known _ => exact absurd rfl hkey
      | field _ => exact ⟨rfl, rfl⟩

theorem yields_side : Yields (side s v) d (a, fields) d' ↔
    v.Compares s d.graph a fields ∧ d' = d := by
  cases v with
  | rows id hop =>
    cases hop with
    | none =>
      rw [side, yields_graph_bind, yields_liftExcept_bind]
      simp only [yields_pure_pair]
      constructor
      · rintro ⟨key, hkey, ⟨rfl, rfl⟩, rfl⟩
        exact ⟨.key hkey, rfl⟩
      · rintro ⟨h, rfl⟩
        cases h with
        | key eq => exact ⟨_, eq, ⟨rfl, rfl⟩, rfl⟩
    | some hop =>
      rw [side, yields_pure_pair]
      refine and_congr_left fun _ => ⟨?_, ?_⟩
      · rintro ⟨rfl, rfl⟩
        exact .hop
      · intro h
        cases h with
        | hop => exact ⟨rfl, rfl⟩
  | field id name hop =>
    cases hop with
    | none =>
      rw [side, yields_pure_pair]
      refine and_congr_left fun _ => ⟨?_, ?_⟩
      · rintro ⟨rfl, rfl⟩
        exact .field fun h hh => absurd hh (by simp)
      · intro h
        cases h with
        | field _ => exact ⟨rfl, rfl⟩
    | some hop =>
      exact yields_side_field
  | _ =>
    refine iff_of_false not_yields_fail ?_
    rintro ⟨h, -⟩
    cases h

/-- An equality compares what its two sides stand for, if they stand for equally many fields. -/
theorem yields_equate : Yields (equate s v w) d u d' ↔
    ∃ a fields b otherFields, v.Compares s d.graph a fields ∧ w.Compares s d.graph b otherFields ∧
      fields.length = otherFields.length ∧
      d' = { d with graph := d.graph.equate a fields b otherFields } := by
  unfold equate
  simp only [yields_bind, Prod.exists, yields_side, and_assoc, exists_and_left, exists_eq_left]
  refine exists_congr fun a => exists_congr fun fields => and_congr_right fun _ =>
    exists_congr fun b => exists_congr fun otherFields => and_congr_right fun _ => ?_
  rw [← yields_bind, yields_graph_bind]
  by_cases hlen : fields.length = otherFields.length
  · rw [if_neg (not_not.2 hlen), and_iff_right hlen, JoinGraph.equate]
    by_cases heq : a = b
    · rw [if_pos heq, if_pos heq]
      exact yields_report_bind.trans yields_setGraph
    · rw [if_neg heq, if_neg heq]
      cases d.graph.between? a b with
      | some found => exact yields_extendAll
      | none =>
        dsimp only
        by_cases hreach : (d.graph.isReachable b && !d.graph.isReachable a) = true
        · rw [if_pos hreach, if_pos hreach]
          exact yields_connect
        · rw [if_neg hreach, if_neg hreach]
          exact yields_connect
  · rw [if_pos hlen]
    exact iff_of_false not_yields_fail fun h => hlen h.1

end Building
end FetchPlan
