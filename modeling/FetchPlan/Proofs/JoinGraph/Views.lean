import FetchPlan.JoinGraph.Contraction
import FetchPlan.JoinGraph.Orient
import FetchPlan.Proofs.JoinGraph.Reaches
import Mathlib.Data.List.Zip

/-!
# Graphs under construction, seen node by node

What new nodes, new connections and longer connections change about the relation, the used fields
and the connections of each node. `Joined` is the relation that `isJoined` decides.
-/

namespace FetchPlan

/-! ## Field pairs -/

namespace FieldPairs

variable {ps : FieldPairs} {x : String}

theorem mem_sources : x ∈ ps.sources ↔ ∃ p ∈ ps, p.source = x := by
  rw [sources, OrderedSet.mem_ofList, List.mem_map]
  rfl

theorem mem_targets : x ∈ ps.targets ↔ ∃ p ∈ ps, p.target = x := by
  rw [targets, OrderedSet.mem_ofList, List.mem_map]
  rfl

theorem mem_sources_reversed : x ∈ ps.reversed.sources ↔ x ∈ ps.targets := by
  rw [mem_sources, mem_targets]
  constructor
  · rintro ⟨p, hp, rfl⟩
    exact ⟨p.swap, mem_reversed.1 hp, rfl⟩
  · rintro ⟨p, hp, rfl⟩
    exact ⟨p.swap, mem_reversed.2 hp, rfl⟩

theorem mem_targets_reversed : x ∈ ps.reversed.targets ↔ x ∈ ps.sources := by
  rw [← mem_sources_reversed, reversed_reversed]

/-- A single pair of fields. -/
theorem forall_mem_zip_singleton {column key : String} {P : FieldPair → Prop} :
    (∀ q ∈ FieldPairs.zip [column] [key], P q) ↔ P ⟨column, key⟩ := by
  have hmem : ∀ q, q ∈ FieldPairs.zip [column] [key] ↔ q = ⟨column, key⟩ := fun q =>
    OrderedSet.mem_ofList.trans List.mem_singleton
  simp only [hmem, forall_eq]

variable {sources targets : List String}

theorem mem_zip {p : FieldPair} :
    p ∈ zip sources targets ↔ (p.source, p.target) ∈ sources.zip targets := by
  rw [zip, OrderedSet.mem_ofList, ← List.map_uncurry_zip_eq_zipWith, List.mem_map]
  constructor
  · rintro ⟨q, hq, rfl⟩
    exact hq
  · intro h
    exact ⟨_, h, rfl⟩

theorem of_mem_sources_zip (h : x ∈ (zip sources targets).sources) : x ∈ sources := by
  obtain ⟨p, hp, rfl⟩ := mem_sources.1 h
  exact (List.of_mem_zip (mem_zip.1 hp)).1

theorem of_mem_targets_zip (h : x ∈ (zip sources targets).targets) : x ∈ targets := by
  obtain ⟨p, hp, rfl⟩ := mem_targets.1 h
  exact (List.of_mem_zip (mem_zip.1 hp)).2

theorem mem_zip_swap {y : String} :
    (x, y) ∈ sources.zip targets ↔ (y, x) ∈ targets.zip sources := by
  rw [← List.zip_swap, List.mem_map]
  constructor
  · rintro ⟨q, hq, heq⟩
    obtain ⟨rfl, rfl⟩ := Prod.mk.inj heq
    exact hq
  · exact fun h => ⟨_, h, rfl⟩

/-- Seen from the other end, the lists change their places. -/
theorem reversed_zip (sources targets : List String) :
    (zip sources targets).reversed = zip targets sources := by
  refine OrderedSet.ext_mem fun p => ?_
  rw [mem_reversed, mem_zip, mem_zip]
  exact mem_zip_swap

theorem mem_sources_zip (hlength : sources.length = targets.length) :
    x ∈ (zip sources targets).sources ↔ x ∈ sources := by
  refine ⟨of_mem_sources_zip, fun hx => mem_sources.2 ?_⟩
  rw [← List.map_fst_zip (Nat.le_of_eq hlength), List.mem_map] at hx
  obtain ⟨⟨_, y⟩, hp, rfl⟩ := hx
  exact ⟨⟨_, y⟩, mem_zip.2 hp, rfl⟩

theorem mem_targets_zip (hlength : sources.length = targets.length) :
    x ∈ (zip sources targets).targets ↔ x ∈ targets := by
  rw [← mem_sources_reversed, reversed_zip]
  exact mem_sources_zip hlength.symm

theorem isReverseOf_iff {qs : FieldPairs} : ps.isReverseOf qs = true ↔ ps = qs.reversed := by
  rw [isReverseOf, decide_eq_true_iff]

end FieldPairs

namespace JoinGraph

variable {g g' : JoinGraph} {id j a b owner index : Nat} {c d : Connection} {x : String}
  {fields : List String}

/-! ## Used fields and new nodes -/

theorem mem_used_use :
    x ∈ (g.use id fields).used j ↔ x ∈ g.used j ∨ (id = j ∧ j < g.size ∧ x ∈ fields) := by
  rw [used_use]
  split
  · next h => simp [h.1, h.2, or_comm]
  · next h =>
    constructor
    · exact Or.inl
    · rintro (hx | ⟨hid, hj, -⟩)
      · exact hx
      · exact absurd ⟨hid, hj⟩ h

theorem connections_addNode {relation : String} :
    (g.addNode relation).connections j = g.connections j := by
  rw [connections, node_addNode]
  split
  · next h =>
    subst h
    exact (connections_of_size_le (Nat.le_refl _)).symm
  · rfl

theorem used_addNode {relation : String} : (g.addNode relation).used j = g.used j := by
  rw [used, node_addNode]
  split
  · next h =>
    subst h
    rw [used, node_of_size_le (Nat.le_refl _)]
    rfl
  · rfl

theorem relation_addNode {relation : String} :
    (g.addNode relation).relation j = if j = g.size then relation else g.relation j := by
  rw [JoinGraph.relation, node_addNode]
  split
  · rfl
  · rfl

/-! ## New connections -/

/-- Two nodes are joined on exactly these fields, in either direction. -/
def Joined (g : JoinGraph) (a b : Nat) (fields : FieldPairs) : Prop :=
  ⟨b, fields⟩ ∈ g.connections a ∨ ⟨a, fields.reversed⟩ ∈ g.connections b

theorem any_connection_iff {cs : List Connection} {b : Nat} {fields : FieldPairs} :
    (cs.any fun c => c.target = b ∧ c.fields = fields) = true ↔ ⟨b, fields⟩ ∈ cs := by
  rw [List.any_eq_true]
  constructor
  · rintro ⟨⟨t, f⟩, hc, h⟩
    obtain ⟨rfl, rfl⟩ := of_decide_eq_true h
    exact hc
  · intro h
    exact ⟨_, h, decide_eq_true ⟨rfl, rfl⟩⟩

theorem isJoined_iff {fields : FieldPairs} : g.isJoined a b fields = true ↔ g.Joined a b fields := by
  rw [isJoined, Bool.or_eq_true, any_connection_iff, any_connection_iff]
  rfl

theorem Joined.symm {fields : FieldPairs} (h : g.Joined a b fields) :
    g.Joined b a fields.reversed := by
  rcases h with h | h
  · exact Or.inr (by rwa [FieldPairs.reversed_reversed])
  · exact Or.inl h

/-- The graph with a new connection, whose fields are used from then on. -/
def link (g : JoinGraph) (owner : Nat) (c : Connection) : JoinGraph :=
  ((g.use owner c.fields.sources.toList).use c.target c.fields.targets.toList).push owner c

theorem connect?_eq_some :
    g.connect? owner c = some g' ↔ ¬ g.Joined owner c.target c.fields ∧ g' = g.link owner c := by
  rw [connect?, ← isJoined_iff]
  split
  · next h => simp [h]
  · next h =>
    rw [Option.some.injEq, eq_comm]
    exact ⟨fun hg => ⟨h, hg⟩, fun hg => hg.2⟩

theorem connect_of_joined (h : g.Joined owner c.target c.fields) : g.connect owner c = g := by
  rw [connect, connect?, if_pos (isJoined_iff.2 h)]
  rfl

theorem connect_of_not_joined (h : ¬ g.Joined owner c.target c.fields) :
    g.connect owner c = g.link owner c := by
  have hsome : g.connect? owner c = some (g.link owner c) := connect?_eq_some.2 ⟨h, rfl⟩
  rw [connect, hsome]
  rfl

theorem connect_cases (g : JoinGraph) (owner : Nat) (c : Connection) :
    (g.Joined owner c.target c.fields ∧ g.connect owner c = g) ∨
      (¬ g.Joined owner c.target c.fields ∧ g.connect owner c = g.link owner c) := by
  by_cases h : g.Joined owner c.target c.fields
  · exact Or.inl ⟨h, connect_of_joined h⟩
  · exact Or.inr ⟨h, connect_of_not_joined h⟩

@[simp] theorem size_link : (g.link owner c).size = g.size := by simp [link]

@[simp] theorem relation_link : (g.link owner c).relation j = g.relation j := by simp [link]

theorem connections_link :
    (g.link owner c).connections j =
      if owner = j ∧ j < g.size then g.connections j ++ [c] else g.connections j := by
  rw [link, connections_push]
  simp

theorem of_mem_connections_link (hd : d ∈ (g.link owner c).connections a) :
    d ∈ g.connections a ∨ (a = owner ∧ d = c) := by
  rw [connections_link] at hd
  split at hd
  · next ha =>
    rcases List.mem_append.1 hd with hd | hd
    · exact Or.inl hd
    · exact Or.inr ⟨ha.1.symm, List.mem_singleton.1 hd⟩
  · exact Or.inl hd

theorem mem_used_link :
    x ∈ (g.link owner c).used j ↔ x ∈ g.used j ∨ (owner = j ∧ j < g.size ∧ x ∈ c.fields.sources) ∨
      (c.target = j ∧ j < g.size ∧ x ∈ c.fields.targets) := by
  rw [link, used_push, mem_used_use, mem_used_use, size_use, or_assoc]
  rfl

@[simp] theorem size_connect : (g.connect owner c).size = g.size := by
  rcases g.connect_cases owner c with ⟨-, h⟩ | ⟨-, h⟩
  · rw [h]
  · rw [h, size_link]

@[simp] theorem relation_connect : (g.connect owner c).relation j = g.relation j := by
  rcases g.connect_cases owner c with ⟨-, h⟩ | ⟨-, h⟩
  · rw [h]
  · rw [h, relation_link]

/-! ## Longer connections -/

theorem between?_eq_none : g.between? a b = none ↔
    (∀ c ∈ g.connections a, c.target ≠ b) ∧ ∀ c ∈ g.connections b, c.target ≠ a := by
  have key : ∀ (cs : List Connection) (n : Nat),
      cs.findIdx? (·.target = n) = none ↔ ∀ c ∈ cs, c.target ≠ n := by
    simp [List.findIdx?_eq_none_iff]
  rw [between?, ← key, ← key]
  split
  · next i hi => simp [hi]
  · next hnone => simp [hnone]

theorem between?_eq_none_comm : g.between? a b = none ↔ g.between? b a = none := by
  rw [between?_eq_none, between?_eq_none, and_comm]

/-- A connection of `owner` joins the nodes `a` and `b`, which are different ones. -/
structure Connects (g : JoinGraph) (owner index : Nat) (c : Connection) (a b : Nat) : Prop where
  found : (g.connections owner)[index]? = some c
  ne : a ≠ b
  ends : (owner = a ∧ c.target = b) ∨ (owner = b ∧ c.target = a)

theorem between?_eq_some (h : g.between? a b = some (owner, index)) (hne : a ≠ b) :
    ∃ c, g.Connects owner index c a b := by
  have found : ∀ {cs : List Connection} {n i : Nat}, cs.findIdx? (·.target = n) = some i →
      ∃ c, cs[i]? = some c ∧ c.target = n := by
    intro cs n i hi
    obtain ⟨hlt, htarget, -⟩ := List.findIdx?_eq_some_iff_getElem.1 hi
    exact ⟨cs[i], List.getElem?_eq_getElem hlt, of_decide_eq_true htarget⟩
  unfold between? at h
  split at h
  · next i hi =>
    obtain ⟨rfl, rfl⟩ := Prod.mk.inj (Option.some.inj h)
    obtain ⟨c, hc, htarget⟩ := found hi
    exact ⟨c, hc, hne, Or.inl ⟨rfl, htarget⟩⟩
  · obtain ⟨i, hi, heq⟩ := Option.map_eq_some_iff.1 h
    obtain ⟨rfl, rfl⟩ := Prod.mk.inj heq
    obtain ⟨c, hc, htarget⟩ := found hi
    exact ⟨c, hc, hne, Or.inr ⟨rfl, htarget⟩⟩

/-- An extension puts a connection with one pair more in the place of one that is there. -/
theorem extend?_eq_some {pair : FieldPair} (h : g.extend? owner index pair = some g') :
    ∃ c, (g.connections owner)[index]? = some c ∧
      g' = ((g.setConnections owner ((g.connections owner).set index
        { c with fields := c.fields.insert pair })).use owner [pair.source]).use c.target
          [pair.target] := by
  unfold extend? at h
  cases hc : (g.connections owner)[index]? with
  | none => simp [hc] at h
  | some c =>
    simp only [hc, Option.bind_eq_bind, Option.bind_some] at h
    split at h
    · simp at h
    · exact ⟨c, rfl, (Option.some.inj h).symm⟩

/-- The connection keeps its place and its ends. -/
theorem Connects.extend {pair : FieldPair} (hc : g.Connects owner index c a b)
    (h : g.extend? owner index pair = some g') :
    g'.Connects owner index { c with fields := c.fields.insert pair } a b := by
  obtain ⟨c', hc', rfl⟩ := extend?_eq_some h
  obtain rfl := Option.some.inj (hc.found.symm.trans hc')
  obtain ⟨hindex, -⟩ := List.getElem?_eq_some_iff.1 hc.found
  have howner : owner < g.size := lt_size_of_mem (List.mem_of_getElem? hc.found)
  refine ⟨?_, hc.ne, hc.ends⟩
  rw [connections_use, connections_use, connections_setConnections, if_pos ⟨rfl, howner⟩]
  exact List.getElem?_set_self hindex

/-! ## Connections that are turned round -/

theorem mem_connections_turn {f : Flip} {d : Connection} :
    d ∈ (g.turn f).connections j →
      d ∈ g.connections j ∨ (j = f.connection.target ∧ d = ⟨f.owner, f.connection.fields.reversed⟩) := by
  rw [turn, connections_push]
  have keep : ∀ {i}, d ∈ (g.setConnections f.owner
      ((g.connections f.owner).eraseIdx f.index)).connections i → d ∈ g.connections i := by
    intro i hd
    rw [connections_setConnections] at hd
    split at hd
    · next h => exact h.1 ▸ List.mem_of_mem_eraseIdx hd
    · exact hd
  split
  · next h =>
    intro hd
    rcases List.mem_append.1 hd with hd | hd
    · exact Or.inl (keep hd)
    · exact Or.inr ⟨h.1.symm, List.mem_singleton.1 hd⟩
  · intro hd
    exact Or.inl (keep hd)

/-- A connection to turn round is found at its place. -/
theorem getElem?_of_flip? {f : Flip} (h : g.flip? = some f) :
    (g.connections f.owner)[f.index]? = some f.connection := by
  obtain ⟨owner, -, hf⟩ := List.exists_of_findSome?_eq_some h
  obtain ⟨⟨c, i⟩, hc, rfl⟩ := Option.map_eq_some_iff.1 hf
  exact List.mem_zipIdx_iff_getElem?.1 (List.mem_of_find?_eq_some hc)

/-- A connection to turn round leads from an unreachable node to a reachable one. -/
theorem flip?_eq_some {f : Flip} (h : g.flip? = some f) :
    f.connection ∈ g.connections f.owner ∧ ¬ g.Reaches f.owner ∧
      g.Reaches f.connection.target := by
  refine ⟨List.mem_of_getElem? (getElem?_of_flip? h), ?_⟩
  obtain ⟨owner, howner, hf⟩ := List.exists_of_findSome?_eq_some h
  obtain ⟨⟨c, i⟩, hc, rfl⟩ := Option.map_eq_some_iff.1 hf
  constructor
  · have := (List.mem_filter.1 howner).2
    rw [decide_eq_true_iff, mem_reachable] at this
    exact this
  · have := List.find?_some hc
    exact mem_reachable.1 (of_decide_eq_true this)

/-- If there is nothing to turn round, unreachable nodes lead only to unreachable ones. -/
theorem not_reaches_of_flip?_eq_none (h : g.flip? = none) (ha : ¬ g.Reaches a)
    (hc : c ∈ g.connections a) : ¬ g.Reaches c.target := by
  intro hreach
  have ha' : a ∈ g.ids.filter (· ∉ g.reachable) := by
    rw [List.mem_filter, mem_ids, decide_eq_true_iff, mem_reachable]
    exact ⟨lt_size_of_mem hc, ha⟩
  have hnone := List.findSome?_eq_none_iff.1 h a ha'
  rw [Option.map_eq_none_iff, List.find?_eq_none] at hnone
  obtain ⟨i, hi⟩ := List.getElem?_of_mem hc
  have := hnone (c, i) (List.mem_zipIdx_iff_getElem?.2 hi)
  exact this (decide_eq_true (mem_reachable.2 hreach))

end JoinGraph
end FetchPlan
