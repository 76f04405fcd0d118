import FetchPlan.Proofs.JoinGraph.Operations
import Mathlib.Order.CompletePartialOrder
import Mathlib.Order.ConditionallyCompleteLattice.Basic
import Mathlib.Order.Interval.Set.Disjoint
import Mathlib.Order.Interval.Set.LinearOrder

/-!
# Graphs that grow alike

Two graphs are walked over, and some nodes of one correspond to nodes of the other (`Paired`). They
grow alike if their new nodes correspond as well, and what is added to the one is added to the other
about the nodes that correspond (`Mirrors`). Growing alike twice is growing alike, also if one of
the graphs makes its two steps in the other order (`Mirrors.cross`).
-/

namespace FetchPlan

namespace JoinGraph

variable {π ρ ν μ : Nat → Nat → Prop} {g g' h h' k k' : JoinGraph} {a a' b b' : Nat}
  {fields otherFields : List String} {F F' G G' : Fact → Prop} {fact : Fact}

/-! ## Nodes that correspond -/

/-- Some nodes of two well-formed graphs correspond one to one, and are of the same relations. -/
structure Paired (π : Nat → Nat → Prop) (g g' : JoinGraph) : Prop where
  wired : g.Wired
  wired' : g'.Wired
  lt : ∀ {a a'}, π a a' → a < g.size
  lt' : ∀ {a a'}, π a a' → a' < g'.size
  relation : ∀ {a a'}, π a a' → g'.relation a' = g.relation a
  injective : ∀ {a a' b b'}, π a a' → π b b' → (a = b ↔ a' = b')

/-- Nodes still correspond when a graph grows. -/
theorem Paired.left (h : Paired π g g') (hg : g.Grown F k) : Paired π k g' where
  wired := hg.wired
  wired' := h.wired'
  lt ha := Nat.lt_of_lt_of_le (h.lt ha) hg.continues.size
  lt' := h.lt'
  relation ha := (h.relation ha).trans (hg.continues.relation _ (h.lt ha)).symm
  injective := h.injective

theorem Paired.right (h : Paired π g g') (hg : g'.Grown F k') : Paired π g k' where
  wired := h.wired
  wired' := hg.wired
  lt := h.lt
  lt' ha := Nat.lt_of_lt_of_le (h.lt' ha) hg.continues.size
  relation ha := (hg.continues.relation _ (h.lt' ha)).trans (h.relation ha)
  injective := h.injective

/-- Numbers in one set correspond one to one to those in another. -/
structure Matching (ν : Nat → Nat → Prop) (A A' : Set Nat) : Prop where
  mem : ∀ {a a'}, ν a a' → a ∈ A
  mem' : ∀ {a a'}, ν a a' → a' ∈ A'
  total : ∀ a ∈ A, ∃ a', ν a a'
  total' : ∀ a' ∈ A', ∃ a, ν a a'
  injective : ∀ {a a' b b'}, ν a a' → ν b b' → (a = b ↔ a' = b')

namespace Matching

variable {A A' B B' : Set Nat}

/-- Nothing corresponds to nothing. -/
theorem empty : Matching ⊥ ∅ ∅ :=
  ⟨fun h => h.elim, fun h => h.elim, fun _ h => h.elim, fun _ h => h.elim, fun h => h.elim⟩

theorem singleton : Matching (fun c c' => c = a ∧ c' = a') {a} {a'} := by
  refine ⟨And.left, And.right, fun c hc => ⟨a', hc, rfl⟩, fun c' hc' => ⟨a, rfl, hc'⟩, ?_⟩
  rintro b b' c c' ⟨rfl, rfl⟩ ⟨rfl, rfl⟩
  exact iff_of_true rfl rfl

/-- Numbers in disjoint sets correspond one to one if those in each of them do. -/
theorem union (h : Matching ν A A') (h' : Matching μ B B') (hd : Disjoint A B)
    (hd' : Disjoint A' B') : Matching (ν ⊔ μ) (A ∪ B) (A' ∪ B') := by
  have hcross : ∀ {a a' b b'}, ν a a' → μ b b' → (a = b ↔ a' = b') := by
    intro a a' b b' ha hb
    refine iff_of_false ?_ ?_
    · rintro rfl
      exact Set.disjoint_left.1 hd (h.mem ha) (h'.mem hb)
    · rintro rfl
      exact Set.disjoint_left.1 hd' (h.mem' ha) (h'.mem' hb)
  refine ⟨Or.imp h.mem h'.mem, Or.imp h.mem' h'.mem', ?_, ?_, ?_⟩
  · rintro a (ha | ha)
    · exact (h.total a ha).imp fun _ => Or.inl
    · exact (h'.total a ha).imp fun _ => Or.inr
  · rintro a' (ha | ha)
    · exact (h.total' a' ha).imp fun _ => Or.inl
    · exact (h'.total' a' ha).imp fun _ => Or.inr
  · rintro a a' b b' (ha | ha) (hb | hb)
    · exact h.injective ha hb
    · exact hcross ha hb
    · rw [eq_comm, eq_comm (a := a')]
      exact hcross hb ha
    · exact h'.injective ha hb

end Matching

/-! ## Facts that correspond -/

namespace Fact

/-- Two facts say the same about nodes that correspond. -/
inductive Alike (π : Nat → Nat → Prop) : Fact → Fact → Prop
  | used {a a' : Nat} {x : String} (node : π a a') : Alike π (.used a x) (.used a' x)
  | joined {a a' b b' : Nat} {p : FieldPair} (node : π a a') (node' : π b b') :
      Alike π (.joined a b p) (.joined a' b' p)

theorem Alike.mono {fact' : Fact} (h : Alike π fact fact') (hle : π ≤ ρ) : Alike ρ fact fact' := by
  cases h with
  | used node => exact .used (hle _ _ node)
  | joined node node' => exact .joined (hle _ _ node) (hle _ _ node')

/-- The same is said about nodes that correspond. -/
structure Correspond (π : Nat → Nat → Prop) (F F' : Fact → Prop) : Prop where
  forth : ∀ fact, F fact → ∃ fact', F' fact' ∧ Alike π fact fact'
  back : ∀ fact', F' fact' → ∃ fact, F fact ∧ Alike π fact fact'

namespace Correspond

theorem none : Correspond π Fact.none Fact.none :=
  ⟨fun _ h => h.elim, fun _ h => h.elim⟩

theorem mono (h : Correspond π F F') (hle : π ≤ ρ) : Correspond ρ F F' := by
  refine ⟨?_, ?_⟩
  · intro fact hfact
    obtain ⟨fact', hfact', halike⟩ := h.forth fact hfact
    exact ⟨fact', hfact', halike.mono hle⟩
  · intro fact' hfact'
    obtain ⟨fact, hfact, halike⟩ := h.back fact' hfact'
    exact ⟨fact, hfact, halike.mono hle⟩

theorem or (h : Correspond π F F') (h' : Correspond π G G') :
    Correspond π (fun fact => F fact ∨ G fact) (fun fact => F' fact ∨ G' fact) := by
  refine ⟨?_, ?_⟩
  · rintro fact (hfact | hfact)
    · exact (h.forth fact hfact).imp fun _ => And.imp_left Or.inl
    · exact (h'.forth fact hfact).imp fun _ => And.imp_left Or.inr
  · rintro fact' (hfact' | hfact')
    · exact (h.back fact' hfact').imp fun _ => And.imp_left Or.inl
    · exact (h'.back fact' hfact').imp fun _ => And.imp_left Or.inr

theorem congr (h : Correspond π F F') (hiff : ∀ fact, F fact ↔ G fact)
    (hiff' : ∀ fact, F' fact ↔ G' fact) : Correspond π G G' := by
  refine ⟨?_, ?_⟩
  · intro fact hfact
    exact (h.forth fact ((hiff fact).2 hfact)).imp fun fact' => And.imp_left (hiff' fact').1
  · intro fact' hfact'
    exact (h.back fact' ((hiff' fact').2 hfact')).imp fun fact => And.imp_left (hiff fact).1

theorem used (ha : π a a') : Correspond π (Fact.fields a fields) (Fact.fields a' fields) := by
  refine ⟨?_, ?_⟩
  · rintro _ ⟨x, hx, rfl⟩
    exact ⟨_, ⟨x, hx, rfl⟩, .used ha⟩
  · rintro _ ⟨x, hx, rfl⟩
    exact ⟨_, ⟨x, hx, rfl⟩, .used ha⟩

/-- Equalities between nodes that correspond say the same. -/
theorem equality (ha : π a a') (hb : π b b') (hab : a = b ↔ a' = b') :
    Correspond π (Equality a fields b otherFields) (Equality a' fields b' otherFields) := by
  refine ⟨?_, ?_⟩
  · intro fact hfact
    cases hfact with
    | left mem => exact ⟨_, .left mem, .used ha⟩
    | right mem => exact ⟨_, .right mem, .used hb⟩
    | forth ne mem => exact ⟨_, .forth (mt hab.2 ne) mem, .joined ha hb⟩
    | back ne mem => exact ⟨_, .back (mt hab.2 ne) mem, .joined hb ha⟩
  · intro fact' hfact'
    cases hfact' with
    | left mem => exact ⟨_, .left mem, .used ha⟩
    | right mem => exact ⟨_, .right mem, .used hb⟩
    | forth ne mem => exact ⟨_, .forth (mt hab.1 ne) mem, .joined ha hb⟩
    | back ne mem => exact ⟨_, .back (mt hab.1 ne) mem, .joined hb ha⟩

end Correspond
end Fact

/-! ## Growing alike -/

/-- The graphs `g` and `g'` grow to `h` and `h'`. The new nodes correspond by `ν`, and the same is
added about nodes that correspond. -/
structure Mirrors (π ν : Nat → Nat → Prop) (g g' h h' : JoinGraph) : Prop where
  nodes : Matching ν (Set.Ico g.size h.size) (Set.Ico g'.size h'.size)
  relation : ∀ {a a'}, ν a a' → h'.relation a' = h.relation a
  grown : ∃ F F', g.Grown F h ∧ g'.Grown F' h' ∧ Fact.Correspond (π ⊔ ν) F F'

/-- The next node of one graph corresponds to the next one of the other. -/
def next (g g' : JoinGraph) (a a' : Nat) : Prop := a = g.size ∧ a' = g'.size

namespace Mirrors

/-- Old and new nodes correspond one to one. -/
theorem paired (hm : Mirrors π ν g g' h h') (hp : Paired π g g') : Paired (π ⊔ ν) h h' := by
  obtain ⟨F, F', hF, hF', -⟩ := hm.grown
  have hp' := (hp.left hF).right hF'
  -- An old node and a new one are different on both sides.
  have hcross : ∀ {a a' b b'}, π a a' → ν b b' → (a = b ↔ a' = b') := by
    intro a a' b b' ha hb
    refine iff_of_false (Nat.ne_of_lt ?_) (Nat.ne_of_lt ?_)
    · exact Nat.lt_of_lt_of_le (hp.lt ha) (hm.nodes.mem hb).1
    · exact Nat.lt_of_lt_of_le (hp.lt' ha) (hm.nodes.mem' hb).1
  refine ⟨hp'.wired, hp'.wired', ?_, ?_, ?_, ?_⟩
  · rintro a a' (ha | ha)
    · exact hp'.lt ha
    · exact (hm.nodes.mem ha).2
  · rintro a a' (ha | ha)
    · exact hp'.lt' ha
    · exact (hm.nodes.mem' ha).2
  · rintro a a' (ha | ha)
    · exact hp'.relation ha
    · exact hm.relation ha
  · rintro a a' b b' (ha | ha) (hb | hb)
    · exact hp.injective ha hb
    · exact hcross ha hb
    · rw [eq_comm, eq_comm (a := a')]
      exact hcross hb ha
    · exact hm.nodes.injective ha hb

/-- Both graphs make two steps. -/
theorem trans (hm : Mirrors π ν g g' h h') (hm' : Mirrors (π ⊔ ν) μ h h' k k') :
    Mirrors π (ν ⊔ μ) g g' k k' := by
  obtain ⟨F, F', hF, hF', hfacts⟩ := hm.grown
  obtain ⟨G, G', hG, hG', hfacts'⟩ := hm'.grown
  refine ⟨?_, ?_, _, _, hF.trans hG, hF'.trans hG', ?_⟩
  · rw [← Set.Ico_union_Ico_eq_Ico hF.continues.size hG.continues.size,
      ← Set.Ico_union_Ico_eq_Ico hF'.continues.size hG'.continues.size]
    exact hm.nodes.union hm'.nodes (Set.Ico_disjoint_Ico_same ..) (Set.Ico_disjoint_Ico_same ..)
  · rintro a a' (ha | ha)
    · rw [hG'.continues.relation a' (hm.nodes.mem' ha).2,
        hG.continues.relation a (hm.nodes.mem ha).2]
      exact hm.relation ha
    · exact hm'.relation ha
  · rw [← sup_assoc]
    exact (hfacts.mono le_sup_left).or hfacts'

/-- Both graphs make two steps, and the other one makes them in the other order. -/
theorem cross (hm : Mirrors π ν g h' h k') (hm' : Mirrors π μ h g' k h') :
    Mirrors π (ν ⊔ μ) g g' k k' := by
  obtain ⟨F, F', hF, hF', hfacts⟩ := hm.grown
  obtain ⟨G, G', hG, hG', hfacts'⟩ := hm'.grown
  refine ⟨?_, ?_, _, _, hF.trans hG, hG'.trans hF', ?_⟩
  · rw [← Set.Ico_union_Ico_eq_Ico hF.continues.size hG.continues.size,
      ← Set.Ico_union_Ico_eq_Ico hG'.continues.size hF'.continues.size,
      Set.union_comm (Set.Ico g'.size _)]
    exact hm.nodes.union hm'.nodes (Set.Ico_disjoint_Ico_same ..)
      (Set.Ico_disjoint_Ico_same ..).symm
  · rintro a a' (ha | ha)
    · rw [hG.continues.relation a (hm.nodes.mem ha).2]
      exact hm.relation ha
    · rw [hF'.continues.relation a' (hm'.nodes.mem' ha).2]
      exact hm'.relation ha
  · have hleft := hfacts.mono (sup_le_sup_left (le_sup_left : ν ≤ ν ⊔ μ) π)
    have hright := hfacts'.mono (sup_le_sup_left (le_sup_right : μ ≤ ν ⊔ μ) π)
    exact (hleft.or hright).congr (fun _ => Iff.rfl) fun _ => or_comm

/-- No nodes are added. -/
theorem of_grown (hF : g.Grown F h) (hF' : g'.Grown F' h') (hsize : h.size = g.size)
    (hsize' : h'.size = g'.size) (hfacts : Fact.Correspond π F F') : Mirrors π ⊥ g g' h h' := by
  refine ⟨?_, fun h => h.elim, F, F', hF, hF', hfacts.mono le_sup_left⟩
  rw [hsize, hsize', Set.Ico_self, Set.Ico_self]
  exact .empty

theorem refl (hp : Paired π g g') : Mirrors π ⊥ g g' g g' :=
  of_grown (.refl hp.wired) (.refl hp.wired') rfl rfl .none

/-- Steps that add no nodes can be appended. -/
theorem append (hm : Mirrors π ν g g' h h') (hm' : Mirrors (π ⊔ ν) ⊥ h h' k k') :
    Mirrors π ν g g' k k' := by
  have htrans := hm.trans hm'
  rwa [sup_bot_eq] at htrans

/-- One node is added. -/
theorem of_new (hF : g.Grown F h) (hF' : g'.Grown F' h') (hsize : h.size = g.size + 1)
    (hsize' : h'.size = g'.size + 1) (hrelation : h'.relation g'.size = h.relation g.size)
    (hfacts : Fact.Correspond (π ⊔ next g g') F F') : Mirrors π (next g g') g g' h h' := by
  refine ⟨?_, ?_, F, F', hF, hF', hfacts⟩
  · have hnew : ∀ n : Nat, Set.Ico n (n + 1) = {n} := by
      intro n
      ext c
      rw [Set.mem_Ico, Set.mem_singleton_iff]
      omega
    rw [hsize, hsize', hnew, hnew]
    exact .singleton
  · rintro a a' ⟨rfl, rfl⟩
    exact hrelation

/-! ### Single operations -/

theorem addNode (hp : Paired π g g') (relation : String) :
    Mirrors π (next g g') g g' (g.addNode relation) (g'.addNode relation) := by
  refine of_new (grown_addNode hp.wired relation) (grown_addNode hp.wired' relation) size_addNode
    size_addNode ?_ .none
  rw [relation_addNode, relation_addNode, if_pos rfl, if_pos rfl]

theorem use (hp : Paired π g g') (ha : π a a') :
    Mirrors π ⊥ g g' (g.use a fields) (g'.use a' fields) :=
  of_grown (grown_use hp.wired (hp.lt ha) fields) (grown_use hp.wired' (hp.lt' ha) fields) size_use
    size_use (.used ha)

/-- Associations are followed from nodes that correspond. -/
theorem follow {column relation key : String} (hp : Paired π g g') (ha : π a a') :
    Mirrors π (next g g') g g'
      ((g.addNode relation).connect a ⟨g.size, FieldPairs.zip [column] [key]⟩)
      ((g'.addNode relation).connect a' ⟨g'.size, FieldPairs.zip [column] [key]⟩) := by
  refine of_new (grown_follow hp.wired (hp.lt ha)) (grown_follow hp.wired' (hp.lt' ha))
    (size_connect.trans size_addNode) (size_connect.trans size_addNode) ?_ ?_
  · rw [relation_connect, relation_connect, relation_addNode, relation_addNode, if_pos rfl,
      if_pos rfl]
  · refine .equality (Or.inl ha) (Or.inr ⟨rfl, rfl⟩) (iff_of_false ?_ ?_)
    · exact Nat.ne_of_lt (hp.lt ha)
    · exact Nat.ne_of_lt (hp.lt' ha)

/-- Fields of nodes that correspond are compared. -/
theorem equate (hp : Paired π g g') (ha : π a a') (hb : π b b')
    (hlen : fields.length = otherFields.length) :
    Mirrors π ⊥ g g' (g.equate a fields b otherFields) (g'.equate a' fields b' otherFields) :=
  of_grown (grown_equate hp.wired (hp.lt ha) (hp.lt hb) hlen)
    (grown_equate hp.wired' (hp.lt' ha) (hp.lt' hb) hlen) size_equate size_equate
    (.equality ha hb (hp.injective ha hb))

/-- Comparing the other way round adds the same. -/
theorem equate_comm (hp : Paired π g g') (ha : π a a') (hb : π b b')
    (hlen : fields.length = otherFields.length) :
    Mirrors π ⊥ g g' (g.equate a fields b otherFields) (g'.equate b' otherFields a' fields) := by
  refine of_grown (grown_equate hp.wired (hp.lt ha) (hp.lt hb) hlen)
    (grown_equate hp.wired' (hp.lt' hb) (hp.lt' ha) hlen.symm) size_equate size_equate ?_
  exact (Fact.Correspond.equality ha hb (hp.injective ha hb)).congr (fun _ => Iff.rfl)
    fun _ => Fact.Equality.comm

end Mirrors
end JoinGraph
end FetchPlan
