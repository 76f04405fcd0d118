import FetchPlan.Proofs.JoinGraph.Steps
import Mathlib.Data.List.Zip

/-!
# What a graph says

Apart from its nodes and their order, a graph says which fields a node uses and on which pairs of
fields two nodes are joined. These are its facts. Which of two joined nodes owns their connection is
none of them, nor is whether a pair came with the connection or was added to it later: an equality
adds the same facts in all cases (`grown_equate`).
-/

namespace FetchPlan.JoinGraph

/-- Two nodes are joined on a pair of fields, the first of them a field of the first node. -/
def JoinsOn (g : JoinGraph) (a b : Nat) (p : FieldPair) : Prop :=
  (∃ c ∈ g.connections a, c.target = b ∧ p ∈ c.fields) ∨
    ∃ c ∈ g.connections b, c.target = a ∧ p.swap ∈ c.fields

instance {g : JoinGraph} {a b : Nat} {p : FieldPair} : Decidable (g.JoinsOn a b p) :=
  inferInstanceAs (Decidable ((∃ c ∈ g.connections a, c.target = b ∧ p ∈ c.fields) ∨
    ∃ c ∈ g.connections b, c.target = a ∧ p.swap ∈ c.fields))

/-- Something that a graph can say. -/
inductive Fact
  | used (id : Nat) (field : String)
  | joined (a b : Nat) (p : FieldPair)

/-- What the graph says. -/
def Holds (g : JoinGraph) : Fact → Prop
  | .used id x => x ∈ g.used id
  | .joined a b p => g.JoinsOn a b p

/-- The graph `g'` says what `g` says and what is added. -/
def Adds (g : JoinGraph) (added : Fact → Prop) (g' : JoinGraph) : Prop :=
  ∀ fact, g'.Holds fact ↔ g.Holds fact ∨ added fact

/-- No facts. -/
def Fact.none (_ : Fact) : Prop := False

/-- The fields of a node. -/
def Fact.fields (id : Nat) (fields : List String) (fact : Fact) : Prop :=
  ∃ x ∈ fields, fact = .used id x

/-- What an equality between fields of two nodes says, position by position. -/
inductive Fact.Equality (a : Nat) (fields : List String) (b : Nat) (otherFields : List String) :
    Fact → Prop
  | left {x : String} (mem : x ∈ fields) : Equality a fields b otherFields (.used a x)
  | right {y : String} (mem : y ∈ otherFields) : Equality a fields b otherFields (.used b y)
  | forth {x y : String} (ne : a ≠ b) (mem : (x, y) ∈ fields.zip otherFields) :
      Equality a fields b otherFields (.joined a b ⟨x, y⟩)
  | back {x y : String} (ne : a ≠ b) (mem : (x, y) ∈ fields.zip otherFields) :
      Equality a fields b otherFields (.joined b a ⟨y, x⟩)

variable {g g' h : JoinGraph} {a b id owner index : Nat} {c d : Connection} {p : FieldPair}
  {fields otherFields : List String} {F G : Fact → Prop} {fact : Fact}

/-! ## Added facts -/

theorem Adds.refl : g.Adds Fact.none g := fun _ => (or_iff_left id).symm

theorem Adds.trans (h₁ : g.Adds F g') (h₂ : g'.Adds G h) :
    g.Adds (fun fact => F fact ∨ G fact) h := by
  intro fact
  rw [h₂, h₁, or_assoc]

theorem Adds.congr (h : g.Adds F g') (hiff : ∀ fact, F fact ↔ G fact) : g.Adds G g' := by
  intro fact
  rw [h, hiff]

/-- Facts that hold already can be added without a change. -/
theorem Adds.of_holds (h : ∀ fact, F fact → g.Holds fact) : g.Adds F g := by
  intro fact
  exact (or_iff_left_of_imp (h fact)).symm

theorem adds_addNode {relation : String} : g.Adds Fact.none (g.addNode relation) := by
  intro fact
  cases fact with
  | used id x => simp only [Holds, used_addNode, Fact.none, or_false]
  | joined a b p => simp only [Holds, JoinsOn, connections_addNode, Fact.none, or_false]

theorem adds_use (hid : id < g.size) : g.Adds (Fact.fields id fields) (g.use id fields) := by
  intro fact
  cases fact with
  | used j x =>
    simp only [Holds, Fact.fields, mem_used_use, Fact.used.injEq]
    refine or_congr_right ⟨?_, ?_⟩
    · rintro ⟨rfl, -, hx⟩
      exact ⟨x, hx, rfl, rfl⟩
    · rintro ⟨y, hy, rfl, rfl⟩
      exact ⟨rfl, hid, hy⟩
  | joined a b p => simp [Holds, JoinsOn, connections_use, Fact.fields]

/-! ## Equalities -/

namespace Fact.Equality

/-- An equality says the same from its other side. -/
theorem symm (h : Equality a fields b otherFields fact) : Equality b otherFields a fields fact := by
  cases h with
  | left mem => exact .right mem
  | right mem => exact .left mem
  | forth ne mem => exact .back (Ne.symm ne) (FieldPairs.mem_zip_swap.1 mem)
  | back ne mem => exact .forth (Ne.symm ne) (FieldPairs.mem_zip_swap.1 mem)

theorem comm : Equality a fields b otherFields fact ↔ Equality b otherFields a fields fact :=
  ⟨symm, symm⟩

theorem nil : ¬ Equality a [] b [] fact := by
  intro h
  cases h with
  | left mem => exact absurd mem List.not_mem_nil
  | right mem => exact absurd mem List.not_mem_nil
  | forth _ mem => exact absurd mem List.not_mem_nil
  | back _ mem => exact absurd mem List.not_mem_nil

/-- An equality of lists of fields is one of their heads and one of their tails. -/
theorem cons {x y : String} : Equality a (x :: fields) b (y :: otherFields) fact ↔
    Equality a [x] b [y] fact ∨ Equality a fields b otherFields fact := by
  constructor
  · intro h
    cases h with
    | left mem =>
      rcases List.mem_cons.1 mem with rfl | mem
      · exact Or.inl (.left List.mem_cons_self)
      · exact Or.inr (.left mem)
    | right mem =>
      rcases List.mem_cons.1 mem with rfl | mem
      · exact Or.inl (.right List.mem_cons_self)
      · exact Or.inr (.right mem)
    | forth ne mem =>
      rcases List.mem_cons.1 mem with heq | mem
      · exact Or.inl (.forth ne (heq ▸ List.mem_cons_self))
      · exact Or.inr (.forth ne mem)
    | back ne mem =>
      rcases List.mem_cons.1 mem with heq | mem
      · exact Or.inl (.back ne (heq ▸ List.mem_cons_self))
      · exact Or.inr (.back ne mem)
  · rintro (h | h)
    · cases h with
      | left mem => exact .left (List.mem_singleton.1 mem ▸ List.mem_cons_self)
      | right mem => exact .right (List.mem_singleton.1 mem ▸ List.mem_cons_self)
      | forth ne mem => exact .forth ne (List.mem_singleton.1 mem ▸ List.mem_cons_self)
      | back ne mem => exact .back ne (List.mem_singleton.1 mem ▸ List.mem_cons_self)
    · cases h with
      | left mem => exact .left (List.mem_cons_of_mem _ mem)
      | right mem => exact .right (List.mem_cons_of_mem _ mem)
      | forth ne mem => exact .forth ne (List.mem_cons_of_mem _ mem)
      | back ne mem => exact .back ne (List.mem_cons_of_mem _ mem)

end Fact.Equality

/-! ## New connections -/

theorem mem_connections_link (ho : owner < g.size) :
    d ∈ (g.link owner c).connections a ↔ d ∈ g.connections a ∨ (a = owner ∧ d = c) := by
  refine ⟨of_mem_connections_link, ?_⟩
  rw [connections_link]
  rintro (hd | ⟨rfl, rfl⟩)
  · split
    · exact List.mem_append_left _ hd
    · exact hd
  · rw [if_pos ⟨rfl, ho⟩]
    exact List.mem_append_right _ List.mem_cons_self

theorem joinsOn_link {i j : Nat} (ho : owner < g.size) : (g.link owner c).JoinsOn i j p ↔
    g.JoinsOn i j p ∨ (i = owner ∧ j = c.target ∧ p ∈ c.fields) ∨
      (j = owner ∧ i = c.target ∧ p.swap ∈ c.fields) := by
  have hhalf : ∀ (i j : Nat) (p : FieldPair),
      (∃ d ∈ (g.link owner c).connections i, d.target = j ∧ p ∈ d.fields) ↔
        (∃ d ∈ g.connections i, d.target = j ∧ p ∈ d.fields) ∨
          (i = owner ∧ j = c.target ∧ p ∈ c.fields) := by
    intro i j p
    simp only [mem_connections_link ho]
    constructor
    · rintro ⟨d, hd | ⟨rfl, rfl⟩, htarget, hp⟩
      · exact Or.inl ⟨d, hd, htarget, hp⟩
      · exact Or.inr ⟨rfl, htarget.symm, hp⟩
    · rintro (⟨d, hd, htarget, hp⟩ | ⟨rfl, rfl, hp⟩)
      · exact ⟨d, Or.inl hd, htarget, hp⟩
      · exact ⟨c, Or.inr ⟨rfl, rfl⟩, rfl, hp⟩
  unfold JoinsOn
  rw [hhalf, hhalf, or_or_or_comm]

/-- A new connection says that fields are equal, position by position. -/
theorem adds_link (ha : a < g.size) (hb : b < g.size) (hne : a ≠ b)
    (hlen : fields.length = otherFields.length) :
    g.Adds (Fact.Equality a fields b otherFields)
      (g.link a ⟨b, FieldPairs.zip fields otherFields⟩) := by
  intro fact
  cases fact with
  | used j x =>
    simp only [Holds, mem_used_link, FieldPairs.mem_sources_zip hlen,
      FieldPairs.mem_targets_zip hlen]
    refine or_congr_right ⟨?_, ?_⟩
    · rintro (⟨rfl, -, hx⟩ | ⟨rfl, -, hx⟩)
      · exact .left hx
      · exact .right hx
    · intro h
      cases h with
      | left mem => exact Or.inl ⟨rfl, ha, mem⟩
      | right mem => exact Or.inr ⟨rfl, hb, mem⟩
  | joined i j p =>
    simp only [Holds, joinsOn_link ha, FieldPairs.mem_zip]
    refine or_congr_right ⟨?_, ?_⟩
    · rintro (⟨rfl, rfl, hp⟩ | ⟨rfl, rfl, hp⟩)
      · exact .forth hne hp
      · exact .back hne hp
    · intro h
      cases h with
      | forth _ mem => exact Or.inl ⟨rfl, rfl, mem⟩
      | back _ mem => exact Or.inr ⟨rfl, rfl, mem⟩

/-- Nodes that nothing joins are joined by a new connection. -/
theorem connect_of_between? (h : g.between? a b = none) {ps : FieldPairs} :
    g.connect a ⟨b, ps⟩ = g.link a ⟨b, ps⟩ := by
  obtain ⟨hab, hba⟩ := between?_eq_none.1 h
  refine connect_of_not_joined ?_
  rintro (hj | hj)
  · exact hab _ hj rfl
  · exact hba _ hj rfl

/-! ## Longer connections -/

/-- Every connection is still there, with its fields. -/
theorem exists_mem_connections_extend? (hg : g.extend? owner index p = some g')
    (hd : d ∈ g.connections a) :
    ∃ d' ∈ g'.connections a, d'.target = d.target ∧ ∀ q ∈ d.fields, q ∈ d'.fields := by
  obtain ⟨c, hc, rfl⟩ := extend?_eq_some hg
  obtain ⟨hindex, rfl⟩ := List.getElem?_eq_some_iff.1 hc
  rw [connections_use, connections_use, connections_setConnections]
  split
  · next ha =>
    obtain ⟨rfl, -⟩ := ha
    obtain ⟨i, hi⟩ := List.getElem?_of_mem hd
    by_cases heq : index = i
    · subst heq
      obtain rfl := Option.some.inj ((List.getElem?_eq_getElem hindex).symm.trans hi)
      exact ⟨_, List.mem_set hindex _, rfl, fun q hq => OrderedSet.mem_insert.2 (Or.inr hq)⟩
    · refine ⟨d, ?_, rfl, fun q hq => hq⟩
      exact List.mem_of_getElem? ((List.getElem?_set_ne heq).trans hi)
  · exact ⟨d, hd, rfl, fun q hq => hq⟩

theorem joinsOn_extend? {i j : Nat} (hg : g.extend? owner index p = some g')
    (hc : (g.connections owner)[index]? = some c) {q : FieldPair} :
    g'.JoinsOn i j q ↔ g.JoinsOn i j q ∨ (i = owner ∧ j = c.target ∧ q = p) ∨
      (j = owner ∧ i = c.target ∧ q.swap = p) := by
  have hsize : owner < g.size := lt_size_of_mem (List.mem_of_getElem? hc)
  obtain ⟨e, he, hmem, -, -⟩ := of_mem_connections_extend? hg
  obtain rfl := Option.some.inj (hc.symm.trans he)
  have hnew : ∃ e ∈ g'.connections owner, e.target = c.target ∧ p ∈ e.fields := by
    obtain ⟨c', hc', rfl⟩ := extend?_eq_some hg
    obtain rfl := Option.some.inj (hc.symm.trans hc')
    rw [connections_use, connections_use, connections_setConnections, if_pos ⟨rfl, hsize⟩]
    exact ⟨_, List.mem_set (List.getElem?_eq_some_iff.1 hc).1 _, rfl,
      OrderedSet.mem_insert.2 (Or.inl rfl)⟩
  have hhalf : ∀ (i j : Nat) (q : FieldPair),
      (∃ d ∈ g'.connections i, d.target = j ∧ q ∈ d.fields) ↔
        (∃ d ∈ g.connections i, d.target = j ∧ q ∈ d.fields) ∨
          (i = owner ∧ j = c.target ∧ q = p) := by
    intro i j q
    constructor
    · rintro ⟨d, hd, rfl, hq⟩
      rcases hmem i d hd with hd | ⟨rfl, rfl⟩
      · exact Or.inl ⟨d, hd, rfl, hq⟩
      · rcases OrderedSet.mem_insert.1 hq with rfl | hq
        · exact Or.inr ⟨rfl, rfl, rfl⟩
        · exact Or.inl ⟨c, List.mem_of_getElem? hc, rfl, hq⟩
    · rintro (⟨d, hd, rfl, hq⟩ | ⟨rfl, rfl, rfl⟩)
      · obtain ⟨d', hd', htarget, hsub⟩ := exists_mem_connections_extend? hg hd
        exact ⟨d', hd', htarget, hsub q hq⟩
      · exact hnew
  unfold JoinsOn
  rw [hhalf, hhalf, or_or_or_comm]

theorem mem_fields_of_extend?_eq_none (hc : (g.connections owner)[index]? = some c)
    (h : g.extend? owner index p = none) : p ∈ c.fields := by
  by_contra hp
  simp [extend?, hc, hp] at h

/-- A pair of fields that a connection takes over says that they are equal. -/
theorem adds_extend? {x y : String} (hw : g.Wired) (hc : (g.connections a)[index]? = some c)
    (hne : a ≠ c.target) : g.Adds (Fact.Equality a [x] c.target [y])
      ((g.extend? a index ⟨x, y⟩).getD g) := by
  have hmem : c ∈ g.connections a := List.mem_of_getElem? hc
  cases hx : g.extend? a index ⟨x, y⟩ with
  | none =>
    -- The pair is there already, and what it says holds.
    have hp := mem_fields_of_extend?_eq_none hc hx
    refine .of_holds ?_
    intro fact hfact
    cases hfact with
    | left mem =>
      rw [List.mem_singleton.1 mem]
      exact hw.sources a c hmem x (FieldPairs.mem_sources.2 ⟨_, hp, rfl⟩)
    | right mem =>
      rw [List.mem_singleton.1 mem]
      exact hw.targets a c hmem y (FieldPairs.mem_targets.2 ⟨_, hp, rfl⟩)
    | forth _ mem =>
      obtain ⟨rfl, rfl⟩ := Prod.mk.inj (List.mem_singleton.1 mem)
      exact Or.inl ⟨c, hmem, rfl, hp⟩
    | back _ mem =>
      obtain ⟨rfl, rfl⟩ := Prod.mk.inj (List.mem_singleton.1 mem)
      exact Or.inr ⟨c, hmem, rfl, hp⟩
  | some g' =>
    obtain ⟨e, he, -, -, hused⟩ := of_mem_connections_extend? hx
    obtain rfl := Option.some.inj (hc.symm.trans he)
    intro fact
    cases fact with
    | used j z =>
      refine (hused j z).trans (or_congr_right ⟨?_, ?_⟩)
      · rintro (⟨rfl, -, rfl⟩ | ⟨rfl, -, rfl⟩)
        · exact .left List.mem_cons_self
        · exact .right List.mem_cons_self
      · intro h
        cases h with
        | left mem => exact Or.inl ⟨rfl, lt_size_of_mem hmem, List.mem_singleton.1 mem⟩
        | right mem => exact Or.inr ⟨rfl, hw.bounded a c hmem, List.mem_singleton.1 mem⟩
    | joined i j q =>
      refine (joinsOn_extend? hx hc).trans (or_congr_right ⟨?_, ?_⟩)
      · rintro (⟨rfl, rfl, rfl⟩ | ⟨rfl, rfl, hq⟩)
        · exact .forth hne List.mem_cons_self
        · obtain rfl : q = ⟨y, x⟩ := congrArg FieldPair.swap hq
          exact .back hne List.mem_cons_self
      · intro h
        cases h with
        | forth _ mem =>
          obtain ⟨rfl, rfl⟩ := Prod.mk.inj (List.mem_singleton.1 mem)
          exact Or.inl ⟨rfl, rfl, rfl⟩
        | back _ mem =>
          obtain ⟨rfl, rfl⟩ := Prod.mk.inj (List.mem_singleton.1 mem)
          exact Or.inr ⟨rfl, rfl, rfl⟩

theorem Connects.adds_extend? {x y : String} (hw : g.Wired) (hc : g.Connects owner index c a b) :
    g.Adds (Fact.Equality a [x] b [y])
      ((g.extend? owner index (pairFrom owner a x y)).getD g) := by
  rcases hc.ends with ⟨rfl, rfl⟩ | ⟨rfl, rfl⟩
  · rw [pairFrom, if_pos rfl]
    exact JoinGraph.adds_extend? hw hc.found hc.ne
  · rw [pairFrom, if_neg (Ne.symm hc.ne)]
    exact (JoinGraph.adds_extend? hw hc.found (Ne.symm hc.ne)).congr fun _ => Fact.Equality.comm

/-! ## Growing -/

/-- The graph `g'` has the nodes of `g` and is well-formed, and says what is added. -/
structure Grown (g : JoinGraph) (added : Fact → Prop) (g' : JoinGraph) : Prop where
  wired : g'.Wired
  continues : g.Continues g'
  adds : g.Adds added g'

theorem Grown.refl (h : g.Wired) : g.Grown Fact.none g := ⟨h, .refl, .refl⟩

theorem Grown.trans (h₁ : g.Grown F g') (h₂ : g'.Grown G h) :
    g.Grown (fun fact => F fact ∨ G fact) h :=
  ⟨h₂.wired, h₁.continues.trans h₂.continues, h₁.adds.trans h₂.adds⟩

theorem Grown.congr (h : g.Grown F g') (hiff : ∀ fact, F fact ↔ G fact) : g.Grown G g' :=
  ⟨h.wired, h.continues, h.adds.congr hiff⟩

theorem grown_addNode (h : g.Wired) (relation : String) :
    g.Grown Fact.none (g.addNode relation) :=
  ⟨h.addNode relation, continues_addNode, adds_addNode⟩

theorem grown_use (h : g.Wired) (hid : id < g.size) (fields : List String) :
    g.Grown (Fact.fields id fields) (g.use id fields) :=
  ⟨h.use id fields, continues_of_eq size_use fun _ => relation_use, adds_use hid⟩

theorem grown_connect (h : g.Wired) (ha : a < g.size) (hb : b < g.size) (hne : a ≠ b)
    (hlen : fields.length = otherFields.length) (hnew : g.between? a b = none) :
    g.Grown (Fact.Equality a fields b otherFields)
      (g.connect a ⟨b, FieldPairs.zip fields otherFields⟩) := by
  rw [connect_of_between? hnew]
  exact ⟨h.link ha hb (Ne.symm hne), continues_of_eq size_link fun _ => relation_link,
    adds_link ha hb hne hlen⟩

theorem grown_extend? {x y : String} (h : g.Wired) (hc : g.Connects owner index c a b) :
    g.Grown (Fact.Equality a [x] b [y])
      ((g.extend? owner index (pairFrom owner a x y)).getD g) := by
  have hadds := hc.adds_extend? (x := x) (y := y) h
  cases hx : g.extend? owner index (pairFrom owner a x y) with
  | none =>
    rw [hx] at hadds
    exact ⟨h, .refl, hadds⟩
  | some g' =>
    rw [hx] at hadds
    exact ⟨h.extend hx, continues_of_eq (size_extend? hx) fun _ => relation_extend? hx, hadds⟩

theorem grown_extendAll (h : g.Wired) (hc : g.Connects owner index c a b)
    (hlen : fields.length = otherFields.length) :
    g.Grown (Fact.Equality a fields b otherFields)
      (g.extendAll owner index a (fields.zip otherFields)) := by
  induction fields generalizing g c otherFields with
  | nil =>
    obtain rfl : otherFields = [] := List.length_eq_zero_iff.1 hlen.symm
    exact (Grown.refl h).congr fun fact => iff_of_false (fun h => h) Fact.Equality.nil
  | cons x fields ih =>
    cases otherFields with
    | nil => exact absurd hlen (Nat.succ_ne_zero _)
    | cons y otherFields =>
      have hgrown := grown_extend? (x := x) (y := y) h hc
      obtain ⟨c', hc'⟩ := hc.getD_extend?
      have hrest := ih hgrown.wired hc' (Nat.succ.inj hlen)
      exact (hgrown.trans hrest).congr fun fact => Fact.Equality.cons.symm

/-- A comparison says the same whatever its two nodes are joined by before. -/
theorem grown_equate (h : g.Wired) (ha : a < g.size) (hb : b < g.size)
    (hlen : fields.length = otherFields.length) :
    g.Grown (Fact.Equality a fields b otherFields) (g.equate a fields b otherFields) := by
  refine equate_cases ?_ ?_ ?_ ?_
  · intro heq
    subst heq
    have hgrown := (grown_use h ha fields).trans
      (grown_use (h.use a fields) (size_use.symm ▸ ha) otherFields)
    refine hgrown.congr fun fact => ⟨?_, ?_⟩
    · rintro (⟨x, hx, rfl⟩ | ⟨x, hx, rfl⟩)
      · exact .left hx
      · exact .right hx
    · intro hfact
      cases hfact with
      | left mem => exact Or.inl ⟨_, mem, rfl⟩
      | right mem => exact Or.inr ⟨_, mem, rfl⟩
      | forth ne _ => exact absurd rfl ne
      | back ne _ => exact absurd rfl ne
  · intro owner index c hc
    exact grown_extendAll h hc hlen
  · intro hne hnew
    exact grown_connect h ha hb hne hlen hnew
  · intro hne hnew
    exact (grown_connect h hb ha hne hlen.symm hnew).congr fun fact => Fact.Equality.comm

/-- An association leads to a new node. -/
theorem grown_follow {column relation key : String} (h : g.Wired) (ha : a < g.size) :
    g.Grown (Fact.Equality a [column] g.size [key])
      ((g.addNode relation).connect a ⟨g.size, FieldPairs.zip [column] [key]⟩) := by
  have hadd := grown_addNode h relation
  have hnew : (g.addNode relation).between? a g.size = none := by
    refine between?_eq_none.2 ⟨?_, ?_⟩
    · intro c hc
      rw [connections_addNode] at hc
      exact Nat.ne_of_lt (h.bounded a c hc)
    · intro c hc
      rw [connections_addNode, connections_of_size_le (Nat.le_refl _)] at hc
      exact absurd hc List.not_mem_nil
  have hconnect : (g.addNode relation).Grown (Fact.Equality a [column] g.size [key])
      ((g.addNode relation).connect a ⟨g.size, FieldPairs.zip [column] [key]⟩) :=
    grown_connect hadd.wired (Nat.lt_of_lt_of_le ha hadd.continues.size) (by simp)
      (Nat.ne_of_lt ha) rfl hnew
  exact (hadd.trans hconnect).congr fun fact => or_iff_right (fun h => h)

end FetchPlan.JoinGraph
