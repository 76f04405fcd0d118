import FetchPlan.Proofs.JoinGraph.Building
import FetchPlan.Proofs.Schema.Verified

/-!
# The graphs that are built

A graph that is built comes from its root by steps and turns (`ofPath_induction`). It is
well-formed, all of its nodes are reached, and its root is the relation that the query starts at.
-/

namespace FetchPlan.JoinGraph

variable {s : Schema} {R : JoinGraph → JoinGraph → Prop} {p : Path} {g : JoinGraph}

private theorem discard_eq_ok {α : Type} {x : Except Error α} {u : Unit} :
    (discard (liftM x : Traced α)).result = .ok u ↔ ∃ a, x = .ok a := by
  cases x with
  | error e =>
    have herr : (discard (liftM (Except.error e : Except Error α) : Traced α)).result =
        .error e := rfl
    rw [herr]
    simp
  | ok a => exact iff_of_true rfl ⟨a, rfl⟩

/-- The graph of a path, before its connections are oriented, is what the walk makes of the graph of
its relation. -/
theorem draftOfPath_eq_ok : (draftOfPath s p).result = .ok g ↔
    ∃ relation key r d, p.relation? = some relation ∧ s.primaryKey relation = .ok key ∧
      Yields (p.walk s) { graph := ofRoot relation } r d ∧ g = d.graph := by
  unfold draftOfPath
  constructor
  · intro h
    split at h
    · exact absurd h (by simp)
    · next relation hrelation =>
      obtain ⟨_, hcheck, h⟩ := result_bind_eq_ok.1 h
      obtain ⟨key, hk⟩ := discard_eq_ok.1 hcheck
      obtain ⟨⟨r, d⟩, hwalk, h⟩ := result_bind_eq_ok.1 h
      obtain rfl := result_pure_eq_ok.1 h
      exact ⟨relation, key, r, d, hrelation, hk, hwalk, rfl⟩
  · rintro ⟨relation, key, r, d, hrelation, hk, hwalk, rfl⟩
    rw [hrelation]
    exact result_bind_eq_ok.2 ⟨(), discard_eq_ok.2 ⟨key, hk⟩, result_bind_eq_ok.2
      ⟨(r, d), hwalk, result_pure_eq_ok.2 rfl⟩⟩

/-- The graph of a path, before its connections are oriented, is made from its relation by steps
of navigation, and of comparison unless the path only navigates. -/
theorem of_draftOfPath (hkey : s.KeysDeclared)
    (hnav : ∀ g g', Navigation s g g' → R g g')
    (hor : p.OnlyNavigates ∨ ∀ g g', Comparison s g g' → R g g')
    (h : (draftOfPath s p).result = .ok g) :
    ∃ relation key, p.relation? = some relation ∧ s.primaryKey relation = .ok key ∧
      Relation.ReflTransGen R (ofRoot relation) g := by
  obtain ⟨relation, key, r, d, hrelation, hk, hwalk, rfl⟩ := draftOfPath_eq_ok.1 h
  have hvalid : Draft.Valid s { graph := ofRoot relation } :=
    ⟨Nat.one_pos, fun n hn => absurd hn List.not_mem_nil⟩
  exact ⟨relation, key, hrelation, hk, (p.grows_of_walk hkey hnav hor hvalid hwalk).steps⟩

/-- Validation lets exactly the graphs pass all of whose nodes are reached. -/
theorem validate_eq_ok : g.validate = .ok () ↔ ∀ id < g.size, g.Reaches id := by
  rw [validate]
  cases hfind : g.ids.find? (· ∉ g.reachable) with
  | some id =>
    have hmem := List.mem_of_find?_eq_some hfind
    have hnot := List.find?_some hfind
    rw [decide_eq_true_iff, mem_reachable] at hnot
    refine iff_of_false (by simp) fun hall => hnot (hall id (mem_ids.1 hmem))
  | none =>
    refine iff_of_true rfl ?_
    intro id hid
    have hnot := List.find?_eq_none.1 hfind id (mem_ids.2 hid)
    simpa [mem_reachable] using hnot

/-- A graph can be finished if all of its nodes are reached once its connections are turned. -/
theorem finish_eq_ok {draft : JoinGraph} : draft.finish.result = .ok g ↔
    g = draft.orient.2 ∧ ∀ id < g.size, g.Reaches id := by
  unfold finish
  constructor
  · intro h
    obtain ⟨_, _, h⟩ := result_bind_eq_ok.1 h
    obtain ⟨_, hvalidate, h⟩ := result_bind_eq_ok.1 h
    obtain rfl := result_pure_eq_ok.1 h
    exact ⟨rfl, validate_eq_ok.1 hvalidate⟩
  · rintro ⟨rfl, hall⟩
    exact result_bind_eq_ok.2 ⟨(), rfl, result_bind_eq_ok.2
      ⟨(), validate_eq_ok.2 hall, result_pure_eq_ok.2 rfl⟩⟩

/-- The graph of a path is a graph of `draftOfPath` with connections turned round, and all of its
nodes are reached. -/
theorem ofPath_eq_ok : (ofPath s p).result = .ok g ↔
    ∃ draft, (draftOfPath s p).result = .ok draft ∧ g = draft.orient.2 ∧
      ∀ id < g.size, g.Reaches id := by
  rw [ofPath, result_bind_eq_ok]
  simp only [finish_eq_ok]

/-! ## The graphs that are built -/

variable {rs : List FetchPlan.Relation}

/-- What single steps preserve holds of every graph that is built, before its connections are
oriented. -/
theorem draftOfPath_induction {P : JoinGraph → Prop} (hs : Schema.ofRelations rs = .ok s)
    (h : (draftOfPath s p).result = .ok g)
    (start : ∀ relation key, p.relation? = some relation → s.primaryKey relation = .ok key →
      P (ofRoot relation))
    (step : ∀ g g', P g → Step s g g' → P g') : P g := by
  obtain ⟨relation, key, hrelation, hk, hsteps⟩ := of_draftOfPath
    (Schema.keysDeclared_of_ofRelations hs) (fun _ _ => Or.inl) (Or.inr fun _ _ => Or.inr) h
  clear h
  induction hsteps with
  | refl => exact start relation key hrelation hk
  | tail _ hstep ih => exact step _ _ ih hstep

/-- What single steps and turns preserve holds of every graph that is built. -/
theorem ofPath_induction {P : JoinGraph → Prop} (hs : Schema.ofRelations rs = .ok s)
    (h : (ofPath s p).result = .ok g)
    (start : ∀ relation key, p.relation? = some relation → s.primaryKey relation = .ok key →
      P (ofRoot relation))
    (step : ∀ g g', P g → Step s g g' → P g')
    (turn : ∀ g f, P g → g.flip? = some f → P (g.turn f)) : P g := by
  obtain ⟨draft, hdraft, rfl, -⟩ := ofPath_eq_ok.1 h
  exact orient_induction (draftOfPath_induction hs hdraft start step) turn

/-- A graph that is built is well-formed. -/
theorem wired_of_ofPath (hs : Schema.ofRelations rs = .ok s) (h : (ofPath s p).result = .ok g) :
    g.Wired :=
  ofPath_induction hs h (fun _ _ _ _ => wired_ofRoot) (fun _ _ hg hstep => hstep.wired hg)
    fun _ _ hg hf => hg.turn hf

theorem joining_of_ofPath (hs : Schema.ofRelations rs = .ok s)
    (h : (ofPath s p).result = .ok g) : g.Joining :=
  ofPath_induction hs h (fun _ _ _ _ => joining_ofRoot) (fun _ _ hg hstep => hstep.joining hg)
    fun _ _ hg hf => hg.turn hf

theorem reaches_of_ofPath (h : (ofPath s p).result = .ok g) : ∀ n < g.size, g.Reaches n := by
  obtain ⟨-, -, -, hall⟩ := ofPath_eq_ok.1 h
  exact hall

/-- The root of a graph that is built is the relation that the path starts at. -/
theorem root_of_ofPath (hs : Schema.ofRelations rs = .ok s) (h : (ofPath s p).result = .ok g) :
    0 < g.size ∧ p.relation? = some (g.relation root) := by
  refine ofPath_induction (P := fun g => 0 < g.size ∧ p.relation? = some (g.relation root)) hs h
    (fun _ _ hrelation _ => ⟨Nat.one_pos, hrelation⟩) ?_
    fun g f hg hf => by simpa using hg
  intro g g' hg hstep
  have hnodes := hstep.continues
  exact ⟨Nat.lt_of_lt_of_le hg.1 hnodes.size, by rw [hnodes.relation root hg.1]; exact hg.2⟩

end FetchPlan.JoinGraph
