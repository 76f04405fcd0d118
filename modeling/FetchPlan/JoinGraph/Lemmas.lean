import FetchPlan.JoinGraph.Basic

/-!
# What the operations on join graphs change

A graph is seen through its number of nodes and, for each node, its relation, its used fields and
its connections. Each operation is described by what it does to these four; proofs about graphs
go through these lemmas and do not look into the array of nodes.
-/

namespace FetchPlan.JoinGraph

variable {g : JoinGraph} {id j : Nat} {f : Node → Node}

@[simp] theorem mem_ids : id ∈ g.ids ↔ id < g.size := by simp [ids]

theorem node_of_size_le (h : g.size ≤ id) : g.node id = default := by
  have : g.nodes[id]? = none := by simpa [size] using h
  simp [node, this]

theorem connections_of_size_le (h : g.size ≤ id) : g.connections id = [] := by
  simp [connections, node_of_size_le h, default]

/-! ## One node changed -/

@[simp] theorem size_update : (g.update id f).size = g.size := by simp [update, size]

theorem node_update :
    (g.update id f).node j = if id = j ∧ j < g.size then f (g.node j) else g.node j := by
  by_cases hj : j < g.size
  · have hj' : j < g.nodes.size := hj
    by_cases h : id = j <;> simp [update, node, Array.getElem_modify, h, hj, hj']
  · have hj' : g.size ≤ j := by omega
    rw [node_of_size_le hj', node_of_size_le (by simpa using hj')]
    simp [hj]

/-! ## Used fields -/

@[simp] theorem size_use {fields : List String} : (g.use id fields).size = g.size := size_update

@[simp] theorem relation_use {fields : List String} :
    (g.use id fields).relation j = g.relation j := by
  simp only [relation, use, node_update]
  split <;> rfl

@[simp] theorem connections_use {fields : List String} :
    (g.use id fields).connections j = g.connections j := by
  simp only [connections, use, node_update]
  split <;> rfl

theorem used_use {fields : List String} :
    (g.use id fields).used j =
      if id = j ∧ j < g.size then (g.used j).insertAll fields else g.used j := by
  simp only [used, use, node_update]
  split <;> rfl

/-! ## Connections -/

@[simp] theorem size_setConnections {cs : List Connection} :
    (g.setConnections id cs).size = g.size := size_update

@[simp] theorem relation_setConnections {cs : List Connection} :
    (g.setConnections id cs).relation j = g.relation j := by
  simp only [relation, setConnections, node_update]
  split <;> rfl

@[simp] theorem used_setConnections {cs : List Connection} :
    (g.setConnections id cs).used j = g.used j := by
  simp only [used, setConnections, node_update]
  split <;> rfl

theorem connections_setConnections {cs : List Connection} :
    (g.setConnections id cs).connections j =
      if id = j ∧ j < g.size then cs else g.connections j := by
  simp only [connections, setConnections, node_update]
  split <;> rfl

@[simp] theorem size_push {c : Connection} : (g.push id c).size = g.size := size_update

@[simp] theorem relation_push {c : Connection} : (g.push id c).relation j = g.relation j :=
  relation_setConnections

@[simp] theorem used_push {c : Connection} : (g.push id c).used j = g.used j :=
  used_setConnections

theorem connections_push {c : Connection} :
    (g.push id c).connections j =
      if id = j ∧ j < g.size then g.connections j ++ [c] else g.connections j := by
  rw [push, connections_setConnections]
  split
  · next h => rw [h.1]
  · rfl

/-! ## New nodes -/

@[simp] theorem size_ofRoot {relation : String} : (ofRoot relation).size = 1 := rfl

@[simp] theorem size_addNode {relation : String} : (g.addNode relation).size = g.size + 1 := by
  simp [addNode, size]

theorem node_addNode {relation : String} :
    (g.addNode relation).node j = if j = g.size then { relation } else g.node j := by
  by_cases h : j = g.size
  · simp [addNode, node, size, h]
  · have h' : j ≠ g.nodes.size := h
    simp [addNode, node, Array.getElem?_push, h, h']

end FetchPlan.JoinGraph
