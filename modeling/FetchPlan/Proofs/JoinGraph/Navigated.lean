import FetchPlan.Proofs.JoinGraph.Built
import FetchPlan.Proofs.JoinGraph.Tree

/-!
# Graphs of queries that only navigate

Each association leads to a node of its own, over one pair of fields. So the graph of a query that
only navigates is a tree, and there is nothing to turn round in it (`navigated_of_ofPath`).
-/

namespace FetchPlan.JoinGraph

variable {s : Schema} {g g' : JoinGraph} {n : Nat} {c : Connection}

/-- A tree without unreached nodes, each connection of which is on one pair of fields. -/
structure Navigated (g : JoinGraph) : Prop where
  tree : g.Arborescent
  reached : ∀ n < g.size, g.Reaches n
  hops : ∀ a, ∀ c ∈ g.connections a, ∃ column key, c.fields = FieldPairs.zip [column] [key]

theorem Reaches.mono (h : ∀ a, ∀ c ∈ g.connections a, c ∈ g'.connections a) (hn : g.Reaches n) :
    g'.Reaches n := by
  induction hn with
  | refl => exact reaches_root
  | tail _ hleads ih =>
    obtain ⟨c, hc, rfl⟩ := hleads
    exact Reaches.step ih (h _ c hc)

theorem navigated_ofRoot {relation : String} : (ofRoot relation).Navigated := by
  have hnil : ∀ a, ∀ c, c ∉ (ofRoot relation).connections a := fun a c hc => by
    rw [connections_ofRoot] at hc
    exact absurd hc List.not_mem_nil
  refine ⟨⟨wired_ofRoot, ?_, fun a b c hc => absurd hc (hnil a c),
    fun a c hc => absurd hc (hnil a c), fun a c hc => absurd hc (hnil a c)⟩, ?_,
    fun a c hc => absurd hc (hnil a c)⟩
  · intro a
    rw [connections_ofRoot]
    exact List.nodup_nil
  · intro n hn
    obtain rfl : n = root := Nat.lt_one_iff.1 hn
    exact reaches_root

/-- Reading a column leaves the connections as they are. -/
theorem Navigated.use (h : g.Navigated) (id : Nat) (fields : List String) :
    (g.use id fields).Navigated := by
  have hreach : ∀ n, g.Reaches n → (g.use id fields).Reaches n := fun n hn =>
    hn.mono fun a c hc => by rwa [connections_use]
  refine ⟨⟨h.tree.wired.use id fields, ?_, ?_, ?_, ?_⟩,
    fun n hn => hreach n (h.reached n (by simpa using hn)), ?_⟩
  · intro a
    rw [connections_use]
    exact h.tree.nodup a
  · intro a b
    rw [connections_use, connections_use]
    exact h.tree.sole a b
  · intro a
    rw [connections_use]
    exact h.tree.root a
  · intro a c hc
    rw [connections_use] at hc
    exact hreach a (h.tree.reached a c hc)
  · intro a
    rw [connections_use]
    exact h.hops a

section Follow

variable {origin a : Nat} {relation column key : String} {fields : FieldPairs}

/-- Following an association adds one connection, to the new node. -/
theorem Wired.connections_follow (h : g.Wired) (ho : origin < g.size) :
    ((g.addNode relation).connect origin ⟨g.size, fields⟩).connections a =
      if origin = a then g.connections a ++ [⟨g.size, fields⟩] else g.connections a := by
  have hnew : ¬ (g.addNode relation).Joined origin g.size fields := by
    intro hj
    rcases hj with hj | hj
    · rw [connections_addNode] at hj
      exact absurd (h.bounded _ _ hj) (Nat.lt_irrefl _)
    · rw [connections_addNode] at hj
      exact absurd (lt_size_of_mem hj) (Nat.lt_irrefl _)
  rw [connect_of_not_joined hnew, connections_link, connections_addNode, size_addNode]
  by_cases ha : origin = a
  · rw [if_pos ⟨ha, by omega⟩, if_pos ha]
  · rw [if_neg (fun hand => ha hand.1), if_neg ha]

theorem Wired.mem_connections_follow (h : g.Wired) (ho : origin < g.size) :
    c ∈ ((g.addNode relation).connect origin ⟨g.size, fields⟩).connections a ↔
      c ∈ g.connections a ∨ (a = origin ∧ c = ⟨g.size, fields⟩) := by
  rw [h.connections_follow ho]
  split
  · next ha => simp [ha]
  · next ha => simp [Ne.symm ha]

theorem Navigated.follow (h : g.Navigated) (ho : origin < g.size) :
    ((g.addNode relation).connect origin ⟨g.size, FieldPairs.zip [column] [key]⟩).Navigated := by
  have hlt : g.size < (g.addNode relation).size := by simp
  have hwired := (h.tree.wired.addNode relation).connect (c := ⟨g.size, .zip [column] [key]⟩)
    (Nat.lt_trans ho hlt) hlt (Nat.ne_of_gt ho)
  obtain ⟨g', hg'⟩ : ∃ g', (g.addNode relation).connect origin
      ⟨g.size, FieldPairs.zip [column] [key]⟩ = g' := ⟨_, rfl⟩
  have hsize : g'.size = g.size + 1 := by rw [← hg', size_connect, size_addNode]
  have hlist : ∀ a, g'.connections a = if origin = a
      then g.connections a ++ [⟨g.size, .zip [column] [key]⟩] else g.connections a := fun a =>
    hg' ▸ h.tree.wired.connections_follow ho
  have hmem : ∀ a c, c ∈ g'.connections a ↔
      c ∈ g.connections a ∨ (a = origin ∧ c = ⟨g.size, .zip [column] [key]⟩) := fun a c =>
    hg' ▸ h.tree.wired.mem_connections_follow ho
  rw [hg'] at hwired ⊢
  have hreached : ∀ n < g'.size, g'.Reaches n := by
    have hold : ∀ n < g.size, g'.Reaches n := fun n hn =>
      (h.reached n hn).mono fun a c hc => (hmem a c).2 (Or.inl hc)
    intro n hn
    by_cases heq : n = g.size
    · rw [heq]
      exact (hold origin ho).step ((hmem _ _).2 (Or.inr ⟨rfl, rfl⟩))
    · exact hold n (by omega)
  have hnever : ∀ {a c}, c ∈ g.connections a → c.target ≠ g.size := fun hc =>
    Nat.ne_of_lt (h.tree.wired.bounded _ _ hc)
  refine ⟨⟨hwired, ?_, ?_, ?_, fun a c hc => hreached a (lt_size_of_mem hc)⟩, hreached, ?_⟩
  · intro a
    rw [hlist a]
    split
    · exact (h.tree.nodup a).append (List.nodup_singleton _)
        (List.disjoint_singleton.2 fun hc => hnever hc rfl)
    · exact h.tree.nodup a
  · intro a b c hc d hd htarget
    rcases (hmem a c).1 hc with hc | ⟨rfl, rfl⟩
    · rcases (hmem b d).1 hd with hd | ⟨rfl, rfl⟩
      · exact h.tree.sole a b c hc d hd htarget
      · exact absurd htarget (hnever hc)
    · rcases (hmem b d).1 hd with hd | ⟨rfl, rfl⟩
      · exact absurd htarget.symm (hnever hd)
      · exact ⟨rfl, rfl⟩
  · intro a c hc
    rcases (hmem a c).1 hc with hc | ⟨rfl, rfl⟩
    · exact h.tree.root a c hc
    · exact Nat.ne_of_gt (Nat.lt_of_le_of_lt (Nat.zero_le _) ho)
  · intro a c hc
    rcases (hmem a c).1 hc with hc | ⟨rfl, rfl⟩
    · exact h.hops a c hc
    · exact ⟨column, key, rfl⟩

end Follow

theorem Navigation.navigated (hstep : Navigation s g g') (h : g.Navigated) : g'.Navigated := by
  cases hstep with
  | follow lt _ _ => exact h.follow lt
  | read _ _ => exact h.use _ _

/-! ## Orienting -/

/-- If all nodes are reached, there is nothing to turn round. -/
theorem orient_of_reached (h : ∀ n < g.size, g.Reaches n) : g.orient.2 = g := by
  have hflip : g.flip? = none := by
    cases hf : g.flip? with
    | none => rfl
    | some f =>
      obtain ⟨hmem, hnot, -⟩ := flip?_eq_some hf
      exact absurd (h f.owner (lt_size_of_mem hmem)) hnot
  rw [orient_of_flip?_eq_none hflip]

variable {rs : List FetchPlan.Relation} {p : Path}

/-- The graph of a path that only navigates is a tree of single hops before it is oriented. -/
theorem navigated_of_draftOfPath (hs : Schema.ofRelations rs = .ok s) (hp : p.OnlyNavigates)
    (h : (draftOfPath s p).result = .ok g) : g.Navigated := by
  obtain ⟨relation, key, -, -, hsteps⟩ := of_draftOfPath
    (Schema.keysDeclared_of_ofRelations hs) (fun _ _ h => h) (Or.inl hp) h
  clear h
  induction hsteps with
  | refl => exact navigated_ofRoot
  | tail _ hstep ih => exact hstep.navigated ih

/-- The graph of a path that only navigates is a tree of single hops. -/
theorem navigated_of_ofPath (hs : Schema.ofRelations rs = .ok s) (hp : p.OnlyNavigates)
    (h : (ofPath s p).result = .ok g) : g.Navigated := by
  obtain ⟨draft, hdraft, rfl, -⟩ := ofPath_eq_ok.1 h
  have hnav : draft.Navigated := navigated_of_draftOfPath hs hp hdraft
  rw [orient_of_reached hnav.reached]
  exact hnav

end FetchPlan.JoinGraph
