import FetchPlan.Proofs.JoinGraph.Reaches

/-!
# The order of a tour

`Visits` is the depth-first order itself: a node hands out its connections in order, and behind one
that leads to a new node come all that lead on from there. The tour, which keeps the connections to
come in one list, meets them in this order (`visits_tour`), and it meets exactly the connections of
the nodes that are reached (`mem_tour`).
-/

namespace FetchPlan.JoinGraph

variable {g : JoinGraph} {owner : Nat} {cs : List Connection} {c : Connection}
  {seen met : List Nat} {passages : List Passage}

/-- The passages over connections of `owner` and over all that lead on from there, if the nodes
`seen` are known before and the nodes `met` afterwards. -/
inductive Visits (g : JoinGraph) :
    Nat → List Connection → List Nat → List Passage → List Nat → Prop
  | done {owner : Nat} {seen : List Nat} : Visits g owner [] seen [] seen
  /-- The node is known already. -/
  | again {owner : Nat} {c : Connection} {cs : List Connection} {seen met : List Nat}
      {passages : List Passage} (known : c.target ∈ seen)
      (rest : Visits g owner cs seen passages met) :
      Visits g owner (c :: cs) seen (⟨owner, c, false⟩ :: passages) met
  /-- What the new node leads to comes before the other connections of the owner. -/
  | first {owner : Nat} {c : Connection} {cs : List Connection} {seen between met : List Nat}
      {inner outer : List Passage} (new : c.target ∉ seen)
      (below : Visits g c.target (g.connections c.target) (c.target :: seen) inner between)
      (rest : Visits g owner cs between outer met) :
      Visits g owner (c :: cs) seen (⟨owner, c, true⟩ :: (inner ++ outer)) met

/-- A tour first meets what the connections of one node lead to, and then the rest. -/
theorem exists_visits (owner : Nat) (cs : List Connection) (seen : List Nat) :
    ∃ passages met, g.Visits owner cs seen passages met ∧ g.unspent met ≤ g.unspent seen ∧
      ∀ rest, g.tourFrom (cs.map (owner, ·) ++ rest) seen = passages ++ g.tourFrom rest met := by
  match cs with
  | [] => exact ⟨[], seen, .done, Nat.le_refl _, fun rest => rfl⟩
  | c :: cs =>
    by_cases hc : c.target ∈ seen
    · obtain ⟨passages, met, hvisits, hle, htour⟩ := exists_visits owner cs seen
      refine ⟨_, met, .again hc hvisits, hle, ?_⟩
      intro rest
      rw [List.map_cons, List.cons_append, tourFrom, if_pos hc, htour, List.cons_append]
    · have hspent := unspent_cons (g := g) hc
      obtain ⟨inner, between, hbelow, hle, hinner⟩ :=
        exists_visits c.target (g.connections c.target) (c.target :: seen)
      obtain ⟨outer, met, hrest, hle', houter⟩ := exists_visits owner cs between
      refine ⟨_, met, .first hc hbelow hrest, by omega, ?_⟩
      intro rest
      rw [List.map_cons, List.cons_append, tourFrom, if_neg hc, hinner, houter, List.cons_append,
        List.append_assoc]
termination_by cs.length + g.unspent seen
decreasing_by
  · simp
  · rw [List.length_cons]
    omega
  · rw [List.length_cons]
    omega

/-- The tour is in depth-first order. -/
theorem visits_tour (g : JoinGraph) :
    ∃ met, g.Visits root (g.connections root) [root] g.tour met := by
  obtain ⟨passages, met, hvisits, -, htour⟩ := exists_visits root (g.connections root) [root]
  have heq : g.tour = passages := by
    have hrest := htour []
    rwa [List.append_nil, tourFrom, List.append_nil] at hrest
  exact ⟨met, heq ▸ hvisits⟩

/-! ## The connections that are met -/

/-- All passages are over connections of reached nodes. -/
theorem Visits.reaches (h : g.Visits owner cs seen passages met) (howner : g.Reaches owner)
    (hcs : cs ⊆ g.connections owner) :
    ∀ p ∈ passages, g.Reaches p.owner ∧ p.connection ∈ g.connections p.owner := by
  induction h with
  | done => exact fun p hp => absurd hp List.not_mem_nil
  | again _ _ ih =>
    obtain ⟨hc, hcs⟩ := List.cons_subset.1 hcs
    intro p hp
    rcases List.mem_cons.1 hp with rfl | hp
    · exact ⟨howner, hc⟩
    · exact ih howner hcs p hp
  | first _ _ _ ihbelow ihrest =>
    obtain ⟨hc, hcs⟩ := List.cons_subset.1 hcs
    intro p hp
    rcases List.mem_cons.1 hp with rfl | hp
    · exact ⟨howner, hc⟩
    · rcases List.mem_append.1 hp with hp | hp
      · exact ihbelow (howner.step hc) (List.Subset.refl _) p hp
      · exact ihrest howner hcs p hp

/-- A connection is met, and so its target is known. -/
def Met (passages : List Passage) (met : List Nat) (owner : Nat) (c : Connection) : Prop :=
  c.target ∈ met ∧ ∃ p ∈ passages, p.owner = owner ∧ p.connection = c

theorem Met.mono {passages' : List Passage} {met' : List Nat} (h : Met passages met owner c)
    (hp : passages ⊆ passages') (hm : met ⊆ met') : Met passages' met' owner c := by
  obtain ⟨htarget, p, hmem, hp'⟩ := h
  exact ⟨hm htarget, p, hp hmem, hp'⟩

/-- All connections of the owner are met, and all of the nodes that are new. -/
theorem Visits.closed (h : g.Visits owner cs seen passages met) :
    seen ⊆ met ∧ (∀ c ∈ cs, Met passages met owner c) ∧
      ∀ n ∈ met, n ∈ seen ∨ ∀ c ∈ g.connections n, Met passages met n c := by
  induction h with
  | done =>
    exact ⟨List.Subset.refl _, fun c hc => absurd hc List.not_mem_nil, fun n hn => Or.inl hn⟩
  | @again owner c cs seen met passages known _ ih =>
    obtain ⟨hseen, hcs, hnew⟩ := ih
    have hsub : passages ⊆ ⟨owner, c, false⟩ :: passages := List.subset_cons_self _ _
    refine ⟨hseen, ?_, ?_⟩
    · intro d hd
      rcases List.mem_cons.1 hd with rfl | hd
      · exact ⟨hseen known, _, List.mem_cons_self, rfl, rfl⟩
      · exact (hcs d hd).mono hsub (List.Subset.refl _)
    · intro n hn
      exact (hnew n hn).imp_right fun h d hd => (h d hd).mono hsub (List.Subset.refl _)
  | @first owner c cs seen between met inner outer new _ _ ihbelow ihrest =>
    obtain ⟨hseen, hcs, hnew⟩ := ihbelow
    obtain ⟨hseen', hcs', hnew'⟩ := ihrest
    have hinner : inner ⊆ ⟨owner, c, true⟩ :: (inner ++ outer) :=
      List.subset_cons_of_subset _ (List.subset_append_left _ _)
    have houter : outer ⊆ ⟨owner, c, true⟩ :: (inner ++ outer) :=
      List.subset_cons_of_subset _ (List.subset_append_right _ _)
    obtain ⟨htarget, hseen⟩ := List.cons_subset.1 hseen
    refine ⟨List.Subset.trans hseen hseen', ?_, ?_⟩
    · intro d hd
      rcases List.mem_cons.1 hd with rfl | hd
      · exact ⟨hseen' htarget, _, List.mem_cons_self, rfl, rfl⟩
      · exact (hcs' d hd).mono houter (List.Subset.refl _)
    · intro n hn
      rcases hnew' n hn with hn | hmet
      · rcases hnew n hn with hn | hmet
        · rcases List.mem_cons.1 hn with rfl | hn
          · exact Or.inr fun d hd => (hcs d hd).mono hinner hseen'
          · exact Or.inl hn
        · exact Or.inr fun d hd => (hmet d hd).mono hinner hseen'
      · exact Or.inr fun d hd => (hmet d hd).mono houter (List.Subset.refl _)

/-- The tour meets exactly the connections of the nodes that are reached. -/
theorem mem_tour : (∃ p ∈ g.tour, p.owner = owner ∧ p.connection = c) ↔
    g.Reaches owner ∧ c ∈ g.connections owner := by
  obtain ⟨met, hvisits⟩ := g.visits_tour
  constructor
  · rintro ⟨p, hp, rfl, rfl⟩
    exact hvisits.reaches reaches_root (List.Subset.refl _) p hp
  · rintro ⟨hreach, hc⟩
    obtain ⟨hseen, hcs, hnew⟩ := hvisits.closed
    have hall : ∀ n ∈ met, ∀ c ∈ g.connections n, Met g.tour met n c := by
      intro n hn
      rcases hnew n hn with hn | hn
      · rw [List.mem_singleton.1 hn]
        exact hcs
      · exact hn
    have howner : owner ∈ met := by
      clear hc
      induction hreach with
      | refl => exact hseen List.mem_cons_self
      | tail _ hleads ih =>
        obtain ⟨d, hd, rfl⟩ := hleads
        exact (hall _ ih d hd).1
    exact (hall owner howner c hc).2

end FetchPlan.JoinGraph
