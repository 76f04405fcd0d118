import FetchPlan.JoinGraph.Reach
import Mathlib.Data.List.Nodup
import Mathlib.Logic.Relation
import Mathlib.Tactic.ByContra

/-!
# Reachability

`Leads` says that a connection leads from one node to another, and `Reaches` that connections
lead to a node from the root. The walk lists exactly the nodes of which the latter holds
(`mem_reachable`), each of them once (`nodup_reachable`).
-/

namespace FetchPlan.JoinGraph

variable {g : JoinGraph} {a b id : Nat} {c : Connection}

/-- A connection leads from `a` to `b`. -/
def Leads (g : JoinGraph) (a b : Nat) : Prop := ∃ c ∈ g.connections a, c.target = b

/-- Connections lead from the root to `id`. -/
def Reaches (g : JoinGraph) (id : Nat) : Prop := Relation.ReflTransGen g.Leads root id

theorem leads_of_mem (h : c ∈ g.connections a) : g.Leads a c.target := ⟨c, h, rfl⟩

/-- Only nodes of the graph own connections. -/
theorem lt_size_of_mem (h : c ∈ g.connections a) : a < g.size := by
  by_contra hlt
  rw [connections_of_size_le (by omega)] at h
  exact absurd h List.not_mem_nil

theorem reaches_root : g.Reaches root := Relation.ReflTransGen.refl

theorem Reaches.step (h : g.Reaches a) (hc : c ∈ g.connections a) : g.Reaches c.target :=
  Relation.ReflTransGen.tail h (leads_of_mem hc)

/-! ## The walk -/

theorem subset_walk {stack seen : List Nat} : seen ⊆ g.walk stack seen := by
  fun_induction g.walk stack seen with
  | case1 seen => exact fun x hx => List.mem_reverse.2 hx
  | case2 id stack seen hid ih => exact ih
  | case3 id stack seen hid ih => exact fun x hx => ih (List.mem_cons_of_mem id hx)

theorem stack_subset_walk {stack seen : List Nat} : stack ⊆ g.walk stack seen := by
  fun_induction g.walk stack seen with
  | case1 seen => exact List.nil_subset _
  | case2 id stack seen hid ih =>
    exact List.cons_subset.2 ⟨subset_walk hid, ih⟩
  | case3 id stack seen hid ih =>
    refine List.cons_subset.2 ⟨subset_walk List.mem_cons_self, fun x hx => ih ?_⟩
    exact List.mem_append_right _ hx

/-- A walk lists only nodes that are reached, if it starts from such nodes. -/
theorem reaches_of_mem_walk {stack seen : List Nat} (hstack : ∀ x ∈ stack, g.Reaches x)
    (hseen : ∀ x ∈ seen, g.Reaches x) : ∀ x ∈ g.walk stack seen, g.Reaches x := by
  fun_induction g.walk stack seen with
  | case1 seen => exact fun x hx => hseen x (List.mem_reverse.1 hx)
  | case2 id stack seen hid ih =>
    exact ih (fun x hx => hstack x (List.mem_cons_of_mem id hx)) hseen
  | case3 id stack seen hid ih =>
    have hreach : g.Reaches id := hstack id List.mem_cons_self
    refine ih ?_ ?_
    · intro x hx
      rcases List.mem_append.1 hx with hx | hx
      · obtain ⟨c, hc, rfl⟩ := List.mem_map.1 hx
        exact hreach.step hc
      · exact hstack x (List.mem_cons_of_mem id hx)
    · intro x hx
      rcases List.mem_cons.1 hx with rfl | hx
      · exact hreach
      · exact hseen x hx

/-- What a walk lists is closed under connections, if all that the nodes seen lead to is seen or
still to come. -/
theorem mem_walk_of_leads {stack seen : List Nat}
    (h : ∀ x ∈ seen, ∀ y, g.Leads x y → y ∈ seen ∨ y ∈ stack) :
    ∀ x ∈ g.walk stack seen, ∀ y, g.Leads x y → y ∈ g.walk stack seen := by
  fun_induction g.walk stack seen with
  | case1 seen =>
    intro x hx y hxy
    rcases h x (List.mem_reverse.1 hx) y hxy with hy | hy
    · exact List.mem_reverse.2 hy
    · exact absurd hy List.not_mem_nil
  | case2 id stack seen hid ih =>
    apply ih
    intro x hx y hxy
    rcases h x hx y hxy with hy | hy
    · exact Or.inl hy
    · rcases List.mem_cons.1 hy with rfl | hy
      · exact Or.inl hid
      · exact Or.inr hy
  | case3 id stack seen hid ih =>
    apply ih
    intro x hx y hxy
    rcases List.mem_cons.1 hx with rfl | hx
    · obtain ⟨c, hc, rfl⟩ := hxy
      exact Or.inr (List.mem_append_left _ (List.mem_map_of_mem hc))
    · rcases h x hx y hxy with hy | hy
      · exact Or.inl (List.mem_cons_of_mem id hy)
      · rcases List.mem_cons.1 hy with rfl | hy
        · exact Or.inl List.mem_cons_self
        · exact Or.inr (List.mem_append_right _ hy)

theorem nodup_walk {stack seen : List Nat} (h : seen.Nodup) : (g.walk stack seen).Nodup := by
  fun_induction g.walk stack seen with
  | case1 seen => exact List.nodup_reverse.2 h
  | case2 id stack seen hid ih => exact ih h
  | case3 id stack seen hid ih => exact ih (List.nodup_cons.2 ⟨hid, h⟩)

/-- The walk from the root lists exactly the nodes that are reached from there. -/
theorem mem_reachable : id ∈ g.reachable ↔ g.Reaches id := by
  constructor
  · intro h
    refine reaches_of_mem_walk ?_ ?_ id h
    · intro x hx
      rw [List.mem_singleton.1 hx]
      exact reaches_root
    · intro x hx
      exact absurd hx List.not_mem_nil
  · intro h
    have closed : ∀ x ∈ g.walk [root] [], ∀ y, g.Leads x y → y ∈ g.walk [root] [] :=
      mem_walk_of_leads fun x hx => absurd hx List.not_mem_nil
    induction h with
    | refl => exact stack_subset_walk List.mem_cons_self
    | tail _ hleads ih => exact closed _ ih _ hleads

theorem nodup_reachable : g.reachable.Nodup := nodup_walk List.nodup_nil

@[simp] theorem isReachable_iff : g.isReachable id = true ↔ g.Reaches id := by
  rw [isReachable, decide_eq_true_iff, mem_reachable]

end FetchPlan.JoinGraph
