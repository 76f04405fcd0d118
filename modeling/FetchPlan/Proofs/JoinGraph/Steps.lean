import FetchPlan.Proofs.JoinGraph.Wired
import FetchPlan.Proofs.Schema.Verified

/-!
# The steps by which a graph is built

`Navigation` lists the steps that associations and columns take, `Comparison` those of relations
read on their own and of equalities between rows. All fields that they speak of are columns of the
nodes. Both keep graphs well-formed. An equality takes some steps of comparison (`steps_equate`).
-/

namespace FetchPlan.JoinGraph

variable {s : Schema} {g g' h : JoinGraph}

/-- A step that navigation takes. -/
inductive Navigation (s : Schema) : JoinGraph → JoinGraph → Prop
  /-- An association leads to a node of its own. -/
  | follow {g : JoinGraph} {origin : Nat} {column relation key : String} (lt : origin < g.size)
      (declared : s.Declares (g.relation origin) column) (declared' : s.Declares relation key) :
      Navigation s g
        ((g.addNode relation).connect origin ⟨g.size, FieldPairs.zip [column] [key]⟩)
  /-- A column is read. -/
  | read {g : JoinGraph} {id : Nat} {name : String} (lt : id < g.size)
      (declared : s.Declares (g.relation id) name) :
      Navigation s g (g.use id [name])

/-- A step that comparisons of rows take. -/
inductive Comparison (s : Schema) : JoinGraph → JoinGraph → Prop
  /-- A relation is read on its own. -/
  | table {g : JoinGraph} {relation : String} {key : List String}
      (known : s.primaryKey relation = .ok key) : Comparison s g (g.addNode relation)
  /-- Two fields of one node are compared. -/
  | within {g : JoinGraph} {id : Nat} {fields otherFields : List String} (lt : id < g.size)
      (declared : ∀ x ∈ fields, s.Declares (g.relation id) x)
      (declared' : ∀ x ∈ otherFields, s.Declares (g.relation id) x) :
      Comparison s g ((g.use id fields).use id otherFields)
  /-- A connection takes a pair of fields over. -/
  | extend {g g' : JoinGraph} {owner index : Nat} {pair : FieldPair} {c : Connection}
      (found : (g.connections owner)[index]? = some c)
      (declared : s.Declares (g.relation owner) pair.source)
      (declared' : s.Declares (g.relation c.target) pair.target)
      (eq : g.extend? owner index pair = some g') : Comparison s g g'
  /-- Two nodes that were not connected are joined. -/
  | join {g : JoinGraph} {a b : Nat} {fields otherFields : List String} (lt : a < g.size)
      (lt' : b < g.size) (ne : a ≠ b) (nonempty : fields ≠ [])
      (length : fields.length = otherFields.length) (new : g.between? a b = none)
      (declared : ∀ x ∈ fields, s.Declares (g.relation a) x)
      (declared' : ∀ x ∈ otherFields, s.Declares (g.relation b) x) :
      Comparison s g (g.connect a ⟨b, FieldPairs.zip fields otherFields⟩)

/-- A step of any kind. -/
def Step (s : Schema) (g g' : JoinGraph) : Prop := Navigation s g g' ∨ Comparison s g g'

theorem size_extend? {owner index : Nat} {pair : FieldPair}
    (h : g.extend? owner index pair = some g') : g'.size = g.size := by
  obtain ⟨c, -, rfl⟩ := extend?_eq_some h
  rw [size_use, size_use, size_setConnections]

theorem relation_extend? {owner index id : Nat} {pair : FieldPair}
    (h : g.extend? owner index pair = some g') : g'.relation id = g.relation id := by
  obtain ⟨c, -, rfl⟩ := extend?_eq_some h
  rw [relation_use, relation_use, relation_setConnections]

theorem exists_mem_zip {fields otherFields : List String} (hne : fields ≠ [])
    (hlen : fields.length = otherFields.length) :
    ∃ p, p ∈ FieldPairs.zip fields otherFields := by
  cases fields with
  | nil => exact absurd rfl hne
  | cons f fs =>
    cases otherFields with
    | nil => exact absurd hlen (Nat.succ_ne_zero _)
    | cons k ks => exact ⟨⟨f, k⟩, OrderedSet.mem_ofList.2 List.mem_cons_self⟩

/-- Steps keep graphs well-formed. -/
theorem Step.wired (hstep : Step s g g') (h : g.Wired) : g'.Wired := by
  rcases hstep with hstep | hstep
  · cases hstep with
    | @follow _ _ relation _ lt _ _ =>
      have hlt : g.size < (g.addNode relation).size := by simp
      exact (h.addNode relation).connect (Nat.lt_trans lt hlt) hlt (Nat.ne_of_gt lt)
    | read _ _ => exact h.use _ _
  · cases hstep with
    | table _ => exact h.addNode _
    | within _ _ _ => exact (h.use _ _).use _ _
    | extend _ _ _ eq => exact h.extend eq
    | join lt lt' ne _ _ _ _ _ => exact h.connect lt lt' (Ne.symm ne)

theorem Step.joining (hstep : Step s g g') (h : g.Joining) : g'.Joining := by
  rcases hstep with hstep | hstep
  · cases hstep with
    | follow _ _ _ => exact (h.addNode _).connect (exists_mem_zip (List.cons_ne_nil _ _) rfl)
    | read _ _ => exact h.use _ _
  · cases hstep with
    | table _ => exact h.addNode _
    | within _ _ _ => exact (h.use _ _).use _ _
    | extend _ _ _ eq => exact h.extend eq
    | join _ _ _ nonempty length _ _ _ => exact h.connect (exists_mem_zip nonempty length)

/-- The nodes of `g` are nodes of `g'` too, of the same relations. -/
structure Continues (g g' : JoinGraph) : Prop where
  size : g.size ≤ g'.size
  relation : ∀ id < g.size, g'.relation id = g.relation id

theorem Continues.refl : g.Continues g := ⟨Nat.le_refl _, fun _ _ => rfl⟩

theorem Continues.trans (h₁ : g.Continues g') (h₂ : g'.Continues h) : g.Continues h :=
  ⟨Nat.le_trans h₁.size h₂.size, fun id hid =>
    (h₂.relation id (Nat.lt_of_lt_of_le hid h₁.size)).trans (h₁.relation id hid)⟩

theorem continues_of_eq (hsize : g'.size = g.size)
    (hrelation : ∀ id, g'.relation id = g.relation id) : g.Continues g' :=
  ⟨Nat.le_of_eq hsize.symm, fun id _ => hrelation id⟩

theorem continues_addNode {relation : String} : g.Continues (g.addNode relation) := by
  refine ⟨by simp, ?_⟩
  intro id hid
  rw [relation_addNode, if_neg (Nat.ne_of_lt hid)]

/-- Steps add nodes, and leave the relations of the nodes there are as they are. -/
theorem Step.continues (hstep : Step s g g') : g.Continues g' := by
  rcases hstep with hstep | hstep
  · cases hstep with
    | follow _ _ _ =>
      exact continues_addNode.trans (continues_of_eq size_connect fun _ => relation_connect)
    | read _ _ => exact continues_of_eq size_use fun _ => relation_use
  · cases hstep with
    | table _ => exact continues_addNode
    | within _ _ _ => exact continues_of_eq (by simp) fun _ => by simp
    | extend _ _ _ eq => exact continues_of_eq (size_extend? eq) fun _ => relation_extend? eq
    | join _ _ _ _ _ _ _ _ => exact continues_of_eq size_connect fun _ => relation_connect

/-- So does any number of steps. -/
theorem continues_of_steps (h : Relation.ReflTransGen (Step s) g g') : g.Continues g' := by
  induction h with
  | refl => exact .refl
  | tail _ hstep ih => exact ih.trans hstep.continues

/-! ## Comparisons -/

variable {a b owner index : Nat} {c : Connection} {fields otherFields : List String}
  {p : FieldPair} {pairs : List (String × String)}

/-- The graph in which a connection takes pairs of fields over, seen from its end `a`. -/
def extendAll (g : JoinGraph) (owner index a : Nat) (pairs : List (String × String)) : JoinGraph :=
  pairs.foldl (fun g q => (g.extend? owner index (pairFrom owner a q.1 q.2)).getD g) g

/-- The graph in which fields of two nodes are compared, position by position. -/
def equate (g : JoinGraph) (a : Nat) (fields : List String) (b : Nat)
    (otherFields : List String) : JoinGraph :=
  if a = b then (g.use a fields).use a otherFields
  else match g.between? a b with
    | some (owner, index) => g.extendAll owner index a (fields.zip otherFields)
    | none =>
      if g.isReachable b && !g.isReachable a then g.connect b ⟨a, FieldPairs.zip otherFields fields⟩
      else g.connect a ⟨b, FieldPairs.zip fields otherFields⟩

/-! ### The nodes stay as they are -/

theorem size_getD_extend? : ((g.extend? owner index p).getD g).size = g.size := by
  cases hx : g.extend? owner index p with
  | none => rfl
  | some g' => exact size_extend? hx

theorem relation_getD_extend? {id : Nat} :
    ((g.extend? owner index p).getD g).relation id = g.relation id := by
  cases hx : g.extend? owner index p with
  | none => rfl
  | some g' => exact relation_extend? hx

@[simp] theorem size_extendAll : (g.extendAll owner index a pairs).size = g.size := by
  induction pairs generalizing g with
  | nil => rfl
  | cons pair pairs ih => exact ih.trans size_getD_extend?

@[simp] theorem relation_extendAll {id : Nat} :
    (g.extendAll owner index a pairs).relation id = g.relation id := by
  induction pairs generalizing g with
  | nil => rfl
  | cons pair pairs ih => exact ih.trans relation_getD_extend?

/-- What a comparison makes of a graph depends on whether a connection joins the nodes before. -/
theorem equate_cases {P : JoinGraph → Prop}
    (within : a = b → P ((g.use a fields).use a otherFields))
    (extend : ∀ owner index c, g.Connects owner index c a b →
      P (g.extendAll owner index a (fields.zip otherFields)))
    (join : a ≠ b → g.between? a b = none →
      P (g.connect a ⟨b, FieldPairs.zip fields otherFields⟩))
    (back : b ≠ a → g.between? b a = none →
      P (g.connect b ⟨a, FieldPairs.zip otherFields fields⟩)) :
    P (g.equate a fields b otherFields) := by
  unfold equate
  split
  · next heq => exact within heq
  · next hne =>
    split
    · next owner index hfound =>
      obtain ⟨c, hc⟩ := between?_eq_some hfound hne
      exact extend owner index c hc
    · next hnew =>
      split
      · exact back (Ne.symm hne) (between?_eq_none_comm.1 hnew)
      · exact join hne hnew

@[simp] theorem size_equate : (g.equate a fields b otherFields).size = g.size := by
  refine equate_cases (P := fun h => h.size = g.size) ?_ (fun _ _ _ _ => size_extendAll)
    (fun _ _ => size_connect) fun _ _ => size_connect
  intro _
  rw [size_use, size_use]

@[simp] theorem relation_equate {id : Nat} :
    (g.equate a fields b otherFields).relation id = g.relation id := by
  refine equate_cases (P := fun h => h.relation id = g.relation id) ?_
    (fun _ _ _ _ => relation_extendAll) (fun _ _ => relation_connect) fun _ _ => relation_connect
  intro _
  rw [relation_use, relation_use]

/-! ### Steps of a comparison -/

/-- These are columns of a node of the graph, so an equality can compare them. -/
structure Compared (s : Schema) (g : JoinGraph) (id : Nat) (fields : List String) : Prop where
  lt : id < g.size
  nonempty : fields ≠ []
  declared : ∀ x ∈ fields, s.Declares (g.relation id) x

theorem compared_singleton {id : Nat} {x : String} (lt : id < g.size)
    (declared : s.Declares (g.relation id) x) : Compared s g id [x] := by
  refine ⟨lt, List.cons_ne_nil _ _, ?_⟩
  intro y hy
  rw [List.mem_singleton.1 hy]
  exact declared

/-- The connection is still there when it has taken a pair over. -/
theorem Connects.getD_extend? (hc : g.Connects owner index c a b) :
    ∃ c', ((g.extend? owner index p).getD g).Connects owner index c' a b := by
  cases hx : g.extend? owner index p with
  | none => exact ⟨c, hc⟩
  | some g' => exact ⟨_, hc.extend hx⟩

/-- A pair of fields that a connection takes over is at most one step. -/
theorem Connects.steps_extend? {x y : String} (hc : g.Connects owner index c a b)
    (hx : s.Declares (g.relation a) x) (hy : s.Declares (g.relation b) y) :
    Relation.ReflTransGen (Comparison s) g
      ((g.extend? owner index (pairFrom owner a x y)).getD g) := by
  cases hg : g.extend? owner index (pairFrom owner a x y) with
  | none => exact .refl
  | some g' =>
    rcases hc.ends with ⟨rfl, htarget⟩ | ⟨rfl, htarget⟩
    · refine .single (.extend hc.found ?_ ?_ hg)
      · rw [pairFrom, if_pos rfl]
        exact hx
      · rw [pairFrom, if_pos rfl, htarget]
        exact hy
    · refine .single (.extend hc.found ?_ ?_ hg)
      · rw [pairFrom, if_neg (Ne.symm hc.ne)]
        exact hy
      · rw [pairFrom, if_neg (Ne.symm hc.ne), htarget]
        exact hx

theorem Connects.steps_extendAll (hc : g.Connects owner index c a b)
    (hpairs : ∀ q ∈ pairs, s.Declares (g.relation a) q.1 ∧ s.Declares (g.relation b) q.2) :
    Relation.ReflTransGen (Comparison s) g (g.extendAll owner index a pairs) := by
  induction pairs generalizing g c with
  | nil => exact .refl
  | cons pair pairs ih =>
    obtain ⟨hx, hy⟩ := hpairs pair List.mem_cons_self
    obtain ⟨c', hc'⟩ := hc.getD_extend?
    refine (hc.steps_extend? hx hy).trans (ih hc' ?_)
    intro q hq
    rw [relation_getD_extend?, relation_getD_extend?]
    exact hpairs q (List.mem_cons_of_mem _ hq)

/-- Comparing columns of two nodes takes steps of comparison only. -/
theorem steps_equate (ha : Compared s g a fields) (hb : Compared s g b otherFields)
    (hlen : fields.length = otherFields.length) :
    Relation.ReflTransGen (Comparison s) g (g.equate a fields b otherFields) := by
  refine equate_cases ?_ ?_ ?_ ?_
  · intro heq
    subst heq
    exact .single (.within ha.lt ha.declared hb.declared)
  · intro owner index c hc
    refine hc.steps_extendAll ?_
    intro q hq
    exact ⟨ha.declared _ (List.of_mem_zip hq).1, hb.declared _ (List.of_mem_zip hq).2⟩
  · intro hne hnew
    exact .single (.join ha.lt hb.lt hne ha.nonempty hlen hnew ha.declared hb.declared)
  · intro hne hnew
    exact .single (.join hb.lt ha.lt hne hb.nonempty hlen.symm hnew hb.declared ha.declared)

end FetchPlan.JoinGraph
