import FetchPlan.Proofs.JoinGraph.Visits

/-!
# Two walks in the same order

The nodes that are reached are listed with a stack, and the connections are met in a recursion over
the connections of each node (`Visits`). The recursion has one result only (`Visits.unique`), and
the nodes are listed in the order in which it meets them for the first time (`reachable_eq`). It
makes no difference whether nodes that are listed already are put on the stack
(`stackWalk_eq_reachable`).
-/

namespace FetchPlan.JoinGraph

variable {g : JoinGraph} {owner : Nat} {cs : List Connection} {seen met met' early : List Nat}
  {passages passages' : List Passage}

/-! ## The recursion -/

/-- The passages of a recursion over the connections of the root, depth first. -/
def Traverses (g : JoinGraph) (passages : List Passage) : Prop :=
  ∃ met, g.Visits root (g.connections root) [root] passages met

theorem Visits.unique (h : g.Visits owner cs seen passages met)
    (h' : g.Visits owner cs seen passages' met') : passages = passages' ∧ met = met' := by
  induction h generalizing passages' met' with
  | done =>
    cases h' with
    | done => exact ⟨rfl, rfl⟩
  | again known _ ih =>
    cases h' with
    | again _ rest' =>
      obtain ⟨rfl, rfl⟩ := ih rest'
      exact ⟨rfl, rfl⟩
    | first new _ _ => exact absurd known new
  | first new _ _ ihbelow ihrest =>
    cases h' with
    | again known _ => exact absurd known new
    | first _ below' rest' =>
      obtain ⟨rfl, rfl⟩ := ihbelow below'
      obtain ⟨rfl, rfl⟩ := ihrest rest'
      exact ⟨rfl, rfl⟩

/-- The tour is the one recursion over the connections of the root. -/
theorem traverses_iff : g.Traverses passages ↔ passages = g.tour := by
  obtain ⟨met, htour⟩ := g.visits_tour
  constructor
  · rintro ⟨met', hpassages⟩
    exact (hpassages.unique htour).1
  · rintro rfl
    exact ⟨met, htour⟩

/-- The passages that lead to a node for the first time. -/
def firsts (passages : List Passage) : List Passage := passages.filter Passage.isFirst

@[simp] theorem firsts_nil : firsts [] = [] := rfl

@[simp] theorem firsts_again {c : Connection} :
    firsts (⟨owner, c, false⟩ :: passages) = firsts passages := rfl

@[simp] theorem firsts_first {c : Connection} {inner outer : List Passage} :
    firsts (⟨owner, c, true⟩ :: (inner ++ outer)) =
      ⟨owner, c, true⟩ :: (firsts inner ++ firsts outer) :=
  congrArg _ (List.filter_append inner outer)

/-- The nodes that are known afterwards are those before and those that are met. -/
theorem Visits.met_eq (h : g.Visits owner cs seen passages met) :
    met.reverse = seen.reverse ++ (firsts passages).map (·.connection.target) := by
  induction h with
  | done => simp
  | again _ _ ih => rw [ih, firsts_again]
  | first _ _ _ ihbelow ihrest =>
    rw [ihrest, ihbelow]
    simp

/-! ## The stack -/

theorem Visits.walk (h : g.Visits owner cs seen passages met) (rest : List Nat) :
    g.walk (cs.map Connection.target ++ rest) seen = g.walk rest met := by
  induction h generalizing rest with
  | done => rfl
  | again known _ ih =>
    rw [List.map_cons, List.cons_append, JoinGraph.walk, if_pos known]
    exact ih rest
  | first new _ _ ihbelow ihrest =>
    rw [List.map_cons, List.cons_append, JoinGraph.walk, if_neg new, ihbelow, ihrest]

/-- The nodes are listed in the order in which the tour first meets them. -/
theorem reachable_eq : g.reachable = root :: (firsts g.tour).map (·.connection.target) := by
  obtain ⟨met, htour⟩ := g.visits_tour
  have hwalk : g.reachable = g.walk ((g.connections root).map Connection.target ++ []) [root] := by
    rw [reachable, JoinGraph.walk, if_neg List.not_mem_nil]
  rw [hwalk, htour.walk, JoinGraph.walk, htour.met_eq]
  rfl

/-- The walk with a stack that a node is only put on if it is not listed yet. -/
def stackWalk (g : JoinGraph) : (stack seen : List Nat) → List Nat
  | [], seen => seen.reverse
  | id :: stack, seen =>
    if id ∈ seen then g.stackWalk stack seen
    else
      let next := (g.connections id).map Connection.target
      g.stackWalk (next.filter (· ∉ id :: seen) ++ stack) (id :: seen)
termination_by stack seen => stack.length + g.unspent seen
decreasing_by
  · simp
  · have hspent := unspent_cons (g := g) ‹id ∉ seen›
    have hle := List.length_filter_le (· ∉ id :: seen) ((g.connections id).map Connection.target)
    simp only [List.length_append, List.length_map, List.length_cons] at hle ⊢
    omega

/-- The nodes on the stack were not listed when they were put there, but they may be by now. -/
theorem Visits.stackWalk (h : g.Visits owner cs seen passages met) (rest : List Nat)
    (hearly : early ⊆ seen) :
    g.stackWalk ((cs.map Connection.target).filter (· ∉ early) ++ rest) seen =
      g.stackWalk rest met := by
  induction h generalizing early rest with
  | done => rfl
  | @again owner c cs seen met passages known _ ih =>
    by_cases hc : c.target ∈ early
    · rw [List.map_cons, List.filter_cons_of_neg (by simpa using hc)]
      exact ih rest hearly
    · rw [List.map_cons, List.filter_cons_of_pos (by simpa using hc), List.cons_append,
        JoinGraph.stackWalk, if_pos known]
      exact ih rest hearly
  | @first owner c cs seen between met inner outer new below _ ihbelow ihrest =>
    have hc : c.target ∉ early := fun hin => new (hearly hin)
    have hlater : early ⊆ between := fun n hn =>
      below.closed.1 (List.mem_cons_of_mem c.target (hearly hn))
    rw [List.map_cons, List.filter_cons_of_pos (by simpa using hc), List.cons_append,
      JoinGraph.stackWalk, if_neg new]
    rw [ihbelow _ (List.Subset.refl _), ihrest rest hlater]

theorem stackWalk_eq_reachable : g.stackWalk [root] [] = g.reachable := by
  obtain ⟨met, htour⟩ := g.visits_tour
  rw [JoinGraph.stackWalk, if_neg List.not_mem_nil, htour.stackWalk [] (List.Subset.refl _),
    JoinGraph.stackWalk, htour.met_eq, reachable_eq]
  rfl

end FetchPlan.JoinGraph
