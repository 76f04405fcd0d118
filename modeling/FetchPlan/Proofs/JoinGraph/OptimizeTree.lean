import FetchPlan.Proofs.JoinGraph.Optimizes
import FetchPlan.Proofs.JoinGraph.Tree

/-!
# Optimizing trees

On a tree the optimizer computes the folded tree of reduced label paths: its nodes are the reduced
label paths of the tree it started from, each once, and each uses the fields of all nodes that
reduce to it (`optimize_tree`). The order of the contractions makes no difference.
-/

namespace FetchPlan.JoinGraph

open LabelPath

variable {g : JoinGraph} {n : Nat}

/-- The connections of reached nodes that lead to `n`, each with its owner. -/
def incoming (g : JoinGraph) (n : Nat) : List (Nat × Connection) :=
  (g.reachable.flatMap fun a => (g.connections a).map (a, ·)).filter (·.2.target = n)

/-- The reached nodes form a tree: no connection leads to the root, and one to each other node. -/
def IsTree (g : JoinGraph) : Prop :=
  ∀ n, g.Reaches n → (g.incoming n).length = if n = root then 0 else 1

/-- The fields of every connection are among the used fields at both of its ends. -/
def Registered (g : JoinGraph) : Prop := ∀ a, ∀ c ∈ g.connections a,
  (∀ x ∈ c.fields.sources, x ∈ g.used a) ∧ ∀ x ∈ c.fields.targets, x ∈ g.used c.target

theorem mem_incoming {a : Nat} {c : Connection} :
    (a, c) ∈ g.incoming n ↔ g.Reaches a ∧ c ∈ g.connections a ∧ c.target = n := by
  rw [incoming, List.mem_filter, List.mem_flatMap, decide_eq_true_iff]
  constructor
  · intro h
    obtain ⟨⟨b, hb, hc⟩, htarget⟩ := h
    obtain ⟨d, hd, heq⟩ := List.mem_map.1 hc
    obtain ⟨rfl, rfl⟩ := Prod.mk.inj heq
    exact ⟨mem_reachable.1 hb, hd, htarget⟩
  · intro h
    obtain ⟨ha, hc, htarget⟩ := h
    exact ⟨⟨a, mem_reachable.2 ha, List.mem_map_of_mem hc⟩, htarget⟩

theorem Arborescent.nodup_incoming (h : g.Arborescent) : (g.incoming n).Nodup := by
  refine List.Nodup.filter _ (List.nodup_flatMap.2 ⟨?_, ?_⟩)
  · intro a _
    exact (h.nodup a).map fun c d heq => (Prod.mk.inj heq).2
  · refine nodup_reachable.imp fun {a b} hab => ?_
    intro p hp hq
    obtain ⟨c, -, rfl⟩ := List.mem_map.1 hp
    obtain ⟨d, -, heq⟩ := List.mem_map.1 hq
    exact hab (Prod.mk.inj heq).1.symm

theorem Arborescent.isTree (h : g.Arborescent) : g.IsTree := by
  intro n hn
  split
  · next hroot =>
    rw [List.length_eq_zero_iff, List.eq_nil_iff_forall_not_mem]
    intro p hp
    obtain ⟨-, hc, htarget⟩ := mem_incoming.1 hp
    exact h.root _ _ hc (htarget.trans hroot)
  · next hroot =>
    obtain ⟨p, hp⟩ := exists_trail hn
    cases hp with
    | root => exact absurd rfl hroot
    | @step p a c init mem =>
      have hmem : (a, c) ∈ g.incoming c.target := mem_incoming.2 ⟨init.reaches, mem, rfl⟩
      have hall : ∀ e ∈ g.incoming c.target, e = (a, c) := by
        intro e he
        obtain ⟨b, d⟩ := e
        obtain ⟨-, hd, htarget⟩ := mem_incoming.1 he
        obtain ⟨rfl, rfl⟩ := h.sole b a d hd c mem htarget
        rfl
      have hnodup := h.nodup_incoming (n := c.target)
      rw [List.eq_replicate_of_mem hall, List.nodup_replicate] at hnodup
      have hpos := List.length_pos_of_mem hmem
      omega

/-- Two connections to one node of a tree are the same. -/
theorem IsTree.sole {a b : Nat} {c d : Connection} (ht : g.IsTree) (ha : g.Reaches a)
    (hc : c ∈ g.connections a) (hb : g.Reaches b) (hd : d ∈ g.connections b)
    (htarget : c.target = d.target) : a = b ∧ c = d := by
  have hcin : (a, c) ∈ g.incoming d.target := mem_incoming.2 ⟨ha, hc, htarget⟩
  have hdin : (b, d) ∈ g.incoming d.target := mem_incoming.2 ⟨hb, hd, rfl⟩
  have hlength := ht d.target (hb.step hd)
  split at hlength
  · rw [List.length_eq_zero_iff.1 hlength] at hdin
    exact absurd hdin List.not_mem_nil
  · obtain ⟨e, he⟩ := List.length_eq_one_iff.1 hlength
    rw [he, List.mem_singleton] at hcin hdin
    exact Prod.mk.inj (hcin.trans hdin.symm)

/-- A graph without unreached nodes whose nodes form a tree. -/
theorem arborescent_of_isTree (hall : ∀ n, g.Reaches n ↔ n < g.size) (ht : g.IsTree)
    (hr : g.Registered) : g.Arborescent := by
  have hreached : ∀ a, ∀ c ∈ g.connections a, g.Reaches a := fun a c hc =>
    (hall a).2 (lt_size_of_mem hc)
  have hroot : ∀ a, ∀ c ∈ g.connections a, c.target ≠ root := by
    intro a c hc htarget
    have hin : (a, c) ∈ g.incoming root := mem_incoming.2 ⟨hreached a c hc, hc, htarget⟩
    rw [List.length_eq_zero_iff.1 (ht root reaches_root)] at hin
    exact absurd hin List.not_mem_nil
  have hsole : ∀ a b, ∀ c ∈ g.connections a, ∀ d ∈ g.connections b,
      c.target = d.target → a = b ∧ c = d := fun a b c hc d hd htarget =>
    ht.sole (hreached a c hc) hc (hreached b d hd) hd htarget
  have hloopless : ∀ a, ∀ c ∈ g.connections a, c.target ≠ a := by
    intro a c hc hloop
    -- The loop would be the only connection to its node, which then is never reached.
    have hnever : ∀ n, g.Reaches n → n ≠ a := by
      intro n hn
      induction hn with
      | refl => exact fun h => hroot a c hc (hloop.trans h.symm)
      | tail _ hleads ih =>
        obtain ⟨d, hd, rfl⟩ := hleads
        intro h
        exact ih (hsole _ a d hd c hc (h.trans hloop.symm)).1
    exact hnever a (hreached a c hc) rfl
  refine ⟨⟨?_, hloopless, fun a c hc => (hr a c hc).1, fun a c hc => (hr a c hc).2⟩,
    ?_, hsole, hroot, hreached⟩
  · intro a c hc
    exact (hall c.target).1 ((hreached a c hc).step hc)
  · intro a
    refine List.nodup_iff_count_le_one.2 ?_
    intro c
    by_cases hc : c ∈ g.connections a
    · have hle : (g.connections a).countP (·.target = c.target) ≤ (g.incoming c.target).length := by
        have hsub : ((g.connections a).map (a, ·)).Sublist
            (g.reachable.flatMap fun a => (g.connections a).map (a, ·)) :=
          List.sublist_flatten_of_mem (List.mem_map_of_mem (mem_reachable.2 (hreached a c hc)))
        have hcount := hsub.countP_le (p := fun e => decide (e.2.target = c.target))
        rw [List.countP_map] at hcount
        rw [incoming, ← List.countP_eq_length_filter]
        exact hcount
      have hlength := ht c.target ((hreached a c hc).step hc)
      rw [if_neg (hroot a c hc)] at hlength
      have hcount : (g.connections a).count c ≤ (g.connections a).countP (·.target = c.target) :=
        List.countP_mono_left fun d _ hd => by
          rw [beq_iff_eq] at hd
          rw [hd, decide_eq_true_iff]
      omega
    · rw [List.count_eq_zero_of_not_mem hc]
      exact Nat.zero_le 1

/-- The label paths of an optimized tree are reduced. -/
theorem Arborescent.reduce_of_trail_optimize {q : List Label} (h : g.Arborescent)
    (hq : g.optimize.graph.Trail q n) :
    reduce (g.optimize.graph.relation JoinGraph.root) q = q :=
  reduce_eq_self ((settled_optimize h.wired).irreducible hq)

/-- They are the label paths of the tree before, reduced. -/
theorem Arborescent.exists_trail_optimize {q : List Label} (h : g.Arborescent) :
    (∃ n, g.optimize.graph.Trail q n) ↔ g.HasPath q := by
  obtain ⟨-, hsame⟩ := h.optimize
  rw [← hsame.paths q]
  constructor
  · intro hq
    obtain ⟨n, hq⟩ := hq
    exact ⟨q, n, hq, h.reduce_of_trail_optimize hq⟩
  · intro hq
    obtain ⟨p, n, hp, rfl⟩ := hq
    exact ⟨n, (h.reduce_of_trail_optimize hp).symm ▸ hp⟩

/-- Optimizing a tree, all of whose nodes are reached, gives the tree of the reduced label paths.
Each of its nodes has one label path and no two have the same; these are the label paths of the
nodes before, reduced by cancelling; and a node uses exactly the fields that the nodes used whose
label paths reduce to its own. -/
theorem optimize_tree (hall : ∀ n, g.Reaches n ↔ n < g.size) (ht : g.IsTree)
    (hr : g.Registered) :
    g.optimize.graph.IsTree ∧
      (∀ n, g.optimize.graph.Reaches n → ∃! q, g.optimize.graph.Trail q n) ∧
      (∀ q m n, g.optimize.graph.Trail q m → g.optimize.graph.Trail q n → m = n) ∧
      (∀ q, (∃ n, g.optimize.graph.Trail q n) ↔
        ∃ p n, g.Trail p n ∧ ReducesTo (g.relation root) p q) ∧
      ∀ q n, g.optimize.graph.Trail q n → ∀ x, x ∈ g.optimize.graph.used n ↔
        ∃ p m, g.Trail p m ∧ ReducesTo (g.relation root) p q ∧ x ∈ g.used m := by
  have h := arborescent_of_isTree hall ht hr
  obtain ⟨htree, hsame⟩ := h.optimize
  have hsettled := settled_optimize h.wired
  simp only [reducesTo_iff]
  refine ⟨htree.isTree, ?_, fun q m n hm hn => hsettled.trail_inj hm hn,
    fun q => h.exists_trail_optimize, fun q n hn x => ⟨?_, ?_⟩⟩
  · intro n hn
    obtain ⟨q, hq⟩ := exists_trail hn
    exact ⟨q, hq, fun r hr => htree.trail_unique hr hq⟩
  · intro hx
    exact (hsame.used q x).1 ⟨q, n, hn, h.reduce_of_trail_optimize hn, hx⟩
  · intro hx
    obtain ⟨r, k, hk, hr, hused⟩ := (hsame.used q x).2 hx
    obtain rfl := (h.reduce_of_trail_optimize hk).symm.trans hr
    exact hsettled.trail_inj hk hn ▸ hused

/-- Orders, their customers, and the orders of these. -/
def customerTrip : JoinGraph :=
  let back : FieldPairs := .zip ["Id"] ["CustomerId"]
  ⟨#[{ relation := "Order", used := .ofList ["CustomerId"], connections := [⟨1, back.reversed⟩] },
    { relation := "Customer", used := .ofList ["Id", "Name"], connections := [⟨2, back⟩] },
    { relation := "Order", used := .ofList ["CustomerId", "Total"] }]⟩

theorem optimize_customerTrip :
    (∀ n, customerTrip.Reaches n ↔ n < customerTrip.size) ∧ customerTrip.IsTree ∧
      customerTrip.Registered ∧ customerTrip.optimize.graph.IsTree ∧
      ∀ x, x ∈ customerTrip.optimize.graph.used root ↔
        ∃ p m, customerTrip.Trail p m ∧ ReducesTo "Order" p [] ∧ x ∈ customerTrip.used m := by
  have hreachable : customerTrip.reachable = [0, 1, 2] := by decide +kernel
  have hall : ∀ n, customerTrip.Reaches n ↔ n < customerTrip.size := by
    intro n
    have hsize : customerTrip.size = 3 := rfl
    rw [← mem_reachable, hreachable, hsize]
    simp only [List.mem_cons, List.not_mem_nil, or_false]
    omega
  have htree : customerTrip.IsTree := by
    have hcheck : ∀ n ∈ [0, 1, 2], (customerTrip.incoming n).length = if n = root then 0 else 1 := by
      decide +kernel
    intro n hn
    exact hcheck n (hreachable ▸ mem_reachable.2 hn)
  have hregistered : customerTrip.Registered := by
    have hcheck : ∀ a < 3, ∀ c ∈ customerTrip.connections a,
        (∀ x ∈ c.fields.sources.toList, x ∈ customerTrip.used a) ∧
          ∀ x ∈ c.fields.targets.toList, x ∈ customerTrip.used c.target := by
      decide +kernel
    intro a c hc
    exact hcheck a (lt_size_of_mem hc) c hc
  have h := optimize_tree hall htree hregistered
  exact ⟨hall, htree, hregistered, h.1, h.2.2.2.2 [] root .root⟩

end FetchPlan.JoinGraph
