import FetchPlan.Proofs.JoinGraph.Undirected

/-!
# Nodes that are folded away

A node that a contraction folds into another is isolated from then on: it has no fields, and no
connection leads to it or from it. Contractions only touch nodes with connections, so it stays as
it is, nothing is ever folded into it, and its heir is another node (`Run.of_mem_folded`). Nor do
contractions repeat a connection (`Unrepeated.apply`).
-/

namespace FetchPlan.JoinGraph

open Contraction

variable {g g' : JoinGraph} {id kept dropped m n : Nat} {x : Contraction} {xs : List Contraction}

/-! ## Isolated nodes -/

/-- A node without fields that no connection leads to or from. -/
structure Isolated (g : JoinGraph) (n : Nat) : Prop where
  unused : g.used n = ∅
  noSource : g.connections n = []
  noTarget : ∀ a, ∀ c ∈ g.connections a, c.target ≠ n

theorem Isolated.ne_of_mem {a : Nat} {c : Connection} (h : g.Isolated n)
    (hc : c ∈ g.connections a) : a ≠ n := by
  rintro rfl
  rw [h.noSource] at hc
  exact absurd hc List.not_mem_nil

/-- The node that is folded away is isolated. -/
theorem isolated_fold (h : g.Wired) (hne : kept ≠ dropped) (hk : kept < g.size)
    (hd : dropped < g.size) : (g.fold kept dropped).Isolated dropped where
  unused := by
    refine OrderedSet.ext_mem fun y => iff_of_false ?_ (OrderedSet.not_mem_empty y)
    rw [mem_used_fold h hk hd]
    rintro (⟨hnot, -⟩ | ⟨heq, -⟩)
    · exact hnot rfl
    · exact hne heq.symm
  noSource := List.eq_nil_iff_forall_not_mem.2 fun _ hc => (target_ne_of_mem_fold hne hc).1 rfl
  noTarget _ _ hc := (target_ne_of_mem_fold hne hc).2

/-- Both nodes of a contraction have connections. -/
theorem Isolated.ne_of_folded (hn : g.Isolated n) (hx : g.contractionAt? id = some x)
    (hfolded : x.folded? = some (kept, dropped)) : kept ≠ n ∧ dropped ≠ n := by
  rcases Option.or_eq_some_iff.1 hx with hdup | ⟨-, hround⟩
  · obtain ⟨i, j, first, second, -, hi, hj, -, -, rfl⟩ := duplicate?_eq_some hdup
    have hfirst : first.target ≠ n := hn.noTarget id first (List.mem_of_getElem? hi)
    have hsecond : second.target ≠ n := hn.noTarget id second (List.mem_of_getElem? hj)
    split at hfolded
    · obtain ⟨-, rfl, rfl⟩ := folded?_duplicate hfolded
      exact ⟨hsecond, hfirst⟩
    · obtain ⟨-, rfl, rfl⟩ := folded?_duplicate hfolded
      exact ⟨hfirst, hsecond⟩
  · obtain ⟨forth, hforth, index, back, hmem, -, -, rfl⟩ := roundTrip?_eq_some hround
    have hid : id ≠ n := hn.ne_of_mem hforth
    have hback : back.target ≠ n := hn.noTarget _ back (List.mem_of_getElem? hmem)
    obtain ⟨-, ⟨-, rfl, rfl⟩ | ⟨-, rfl, rfl⟩⟩ := folded?_roundTrip hfolded
    · exact ⟨hback, hid⟩
    · exact ⟨hid, hback⟩

/-- An isolated node stands for no other after a contraction. -/
theorem Isolated.of_representative (hn : g.Isolated n) (hx : g.contractionAt? id = some x)
    (hm : x.representative m = n) : m = n := by
  rw [representative] at hm
  split at hm
  · exact hm
  · next kept dropped hfolded =>
    rw [fused] at hm
    split at hm
    · exact absurd hm (hn.ne_of_folded hx hfolded).1
    · exact hm

/-- Contractions leave isolated nodes alone. -/
theorem Isolated.apply (hn : g.Isolated n) (h : g.Wired) (hx : g.contractionAt? id = some x) :
    (x.apply g).Isolated n := by
  have habsorbs := absorbs_apply h hx
  refine ⟨?_, ?_, ?_⟩
  · refine OrderedSet.ext_mem fun y => iff_of_false ?_ (OrderedSet.not_mem_empty y)
    intro hy
    obtain ⟨k, hk, hy⟩ := habsorbs.of_used n y hy
    rw [hn.of_representative hx hk, hn.unused] at hy
    exact OrderedSet.not_mem_empty y hy
  · refine List.eq_nil_iff_forall_not_mem.2 fun c hc => ?_
    obtain ⟨-, a, d, hd, ha, -, -⟩ := habsorbs.of_mem n c hc
    exact hn.ne_of_mem hd (hn.of_representative hx ha)
  · intro b c hc htarget
    obtain ⟨-, a, d, hd, -, hdc, -⟩ := habsorbs.of_mem b c hc
    exact hn.noTarget a d hd (hn.of_representative hx (hdc.trans htarget))

theorem isolated_apply (h : g.Wired) (hx : g.contractionAt? id = some x)
    (hfolded : x.folded? = some (kept, dropped)) : (x.apply g).Isolated dropped := by
  obtain ⟨-, hsound⟩ := of_contractionAt? h.bounded hx
  obtain ⟨hne, hlt, hlt', -, -⟩ := hsound kept dropped hfolded
  have htrim : (x.trim g).Wired := h.disconnect
  rw [Contraction.apply, hfolded]
  exact isolated_fold htrim hne (size_trim.symm ▸ hlt) (size_trim.symm ▸ hlt')

/-! ## Nodes that a run folds away -/

/-- The nodes that contractions fold into others. -/
def folded (xs : List Contraction) : List Nat := xs.filterMap fun x => x.folded?.map Prod.snd

theorem mem_folded_cons : n ∈ folded (x :: xs) ↔
    (∃ kept, x.folded? = some (kept, n)) ∨ n ∈ folded xs := by
  have hx : (∃ kept, x.folded? = some (kept, n)) ↔ x.folded?.map Prod.snd = some n := by
    rw [Option.map_eq_some_iff]
    refine ⟨fun ⟨kept, h⟩ => ⟨(kept, n), h, rfl⟩, ?_⟩
    rintro ⟨⟨kept, _⟩, h, rfl⟩
    exact ⟨kept, h⟩
  rw [hx, folded, List.mem_filterMap, List.exists_mem_cons_iff, folded, List.mem_filterMap]

/-- An isolated node stays isolated and is the heir of no other. -/
theorem Run.isolated (hrun : Run g xs g') (h : g.Wired) (hn : g.Isolated n) :
    g'.Isolated n ∧ ∀ m, heir xs m = n → m = n := by
  induction hrun with
  | nil => exact ⟨hn, fun m hm => hm⟩
  | cons found _ ih =>
    obtain ⟨hend, hheir⟩ := ih ((absorbs_apply h found).wired h) (hn.apply h found)
    exact ⟨hend, fun m hm => hn.of_representative found (hheir _ hm)⟩

/-- A node that is not folded away stands for itself. -/
theorem heir_of_not_mem_folded (hn : n ∉ folded xs) : heir xs n = n := by
  induction xs with
  | nil => rfl
  | cons x xs ih =>
    rw [mem_folded_cons, not_or] at hn
    have hself : x.representative n = n := by
      rw [representative]
      split
      · rfl
      · next kept dropped hfolded =>
        exact fused_of_ne fun heq => hn.1 ⟨kept, heq ▸ hfolded⟩
    show heir xs (x.representative n) = n
    rw [hself]
    exact ih hn.2

/-- A node that is folded away is isolated in the end and stands for no node, not even for
itself. -/
theorem Run.of_mem_folded (hrun : Run g xs g') (h : g.Wired) (hn : n ∈ folded xs) :
    g'.Isolated n ∧ ∀ m, heir xs m ≠ n := by
  induction hrun with
  | nil => exact absurd hn List.not_mem_nil
  | @cons g g' id x xs found rest ih =>
    have hwired : (x.apply g).Wired := (absorbs_apply h found).wired h
    rcases mem_folded_cons.1 hn with ⟨kept, hfolded⟩ | hn
    · obtain ⟨hend, hheir⟩ := rest.isolated hwired (isolated_apply h found hfolded)
      obtain ⟨-, hsound⟩ := of_contractionAt? h.bounded found
      refine ⟨hend, fun m hm => ?_⟩
      have hrep : x.representative m = n := hheir _ hm
      rw [representative, hfolded] at hrep
      exact fused_ne (hsound kept n hfolded).ne hrep
    · obtain ⟨hend, hheir⟩ := ih hwired hn
      exact ⟨hend, fun m => hheir (x.representative m)⟩

/-! ## Connections are not repeated -/

theorem Unrepeated.apply (hg : g.Unrepeated) (h : g.Wired) (hx : g.contractionAt? id = some x) :
    (x.apply g).Unrepeated := by
  have hwired : (x.apply g).Wired := (absorbs_apply h hx).wired h
  obtain ⟨hnodup, honeWay⟩ := (unrepeated_iff h.loopless).1 hg
  rw [unrepeated_iff hwired.loopless]
  have htrim : ∀ a, ((x.trim g).connections a).Nodup := by
    intro a
    rw [trim, connections_disconnect]
    split
    · exact (hnodup a).sublist (List.eraseIdx_sublist _ _)
    · exact hnodup a
  have htrim' : (x.trim g).OneWay :=
    honeWay.of_subset fun _ _ hc => of_mem_connections_disconnect hc
  rw [Contraction.apply]
  split
  · exact ⟨htrim, htrim'⟩
  · exact ⟨fun _ => nodup_fold htrim, htrim'.fold⟩

/-- Optimizing a graph without loops and repetitions, in which the joined fields are used, gives
such a graph again, with the same nodes of the same relations. The root is not folded away. Any
other node that is not keeps its fields; one that is leaves them to a node of its relation, and is
isolated itself. -/
theorem unrepeated_optimize (h : g.Wired) (hg : g.Unrepeated) :
    g.optimize.graph.Wired ∧ g.optimize.graph.Unrepeated ∧ g.optimize.graph.size = g.size ∧
      (∀ n, g.optimize.graph.relation n = g.relation n) ∧
      root ∉ folded g.optimize.contractions ∧
      (∀ n ∉ folded g.optimize.contractions, ∀ y ∈ g.used n, y ∈ g.optimize.graph.used n) ∧
      ∀ n ∈ folded g.optimize.contractions,
        heir g.optimize.contractions n ∉ folded g.optimize.contractions ∧
          g.relation (heir g.optimize.contractions n) = g.relation n ∧
          (∀ y ∈ g.used n, y ∈ g.optimize.graph.used (heir g.optimize.contractions n)) ∧
          g.optimize.graph.Isolated n := by
  have hrun : Run g g.optimize.contractions g.optimize.graph := run_optimize
  have habsorbs := hrun.absorbs h
  have hunrepeated : g.optimize.graph.Wired ∧ g.optimize.graph.Unrepeated := by
    refine hrun.induction (P := fun g => g.Wired ∧ g.Unrepeated) ⟨h, hg⟩ ?_
    intro g id x hg hx
    exact ⟨(absorbs_apply hg.1 hx).wired hg.1, hg.2.apply hg.1 hx⟩
  refine ⟨hunrepeated.1, hunrepeated.2, habsorbs.size, habsorbs.relation, ?_, ?_, ?_⟩
  · exact fun hroot => (hrun.of_mem_folded h hroot).2 root habsorbs.root
  · intro n hn y hy
    have hused := habsorbs.used n y hy
    rwa [heir_of_not_mem_folded hn] at hused
  · intro n hn
    refine ⟨?_, habsorbs.same n, habsorbs.used n, (hrun.of_mem_folded h hn).1⟩
    exact fun hfolded => (hrun.of_mem_folded h hfolded).2 n rfl

/-- Customers with their orders, twice. The customers of the first ones lead to the second ones
again. -/
def ordersTwice : JoinGraph :=
  let orders : FieldPairs := .zip ["Id"] ["CustomerId"]
  ⟨#[{ relation := "Customer", used := .ofList ["Id", "Name"],
        connections := [⟨1, orders⟩, ⟨2, orders⟩] },
    { relation := "Order", used := .ofList ["CustomerId", "Total"],
        connections := [⟨3, orders.reversed⟩] },
    { relation := "Order", used := .ofList ["CustomerId", "Status"] },
    { relation := "Customer", used := .ofList ["Id", "Email"], connections := [⟨2, orders⟩] }]⟩

theorem unrepeated_ordersTwice :
    ordersTwice.Wired ∧ ordersTwice.Unrepeated ∧ ordersTwice.optimize.graph.Wired ∧
      ordersTwice.optimize.graph.Unrepeated ∧ folded ordersTwice.optimize.contractions = [2, 3] ∧
      ordersTwice.optimize.graph.Isolated 2 ∧ ordersTwice.optimize.graph.Isolated 3 := by
  have hwired : ordersTwice.Wired := by decide +kernel
  have hunrepeated : ordersTwice.Unrepeated := by decide +kernel
  have hfolded : folded ordersTwice.optimize.contractions = [2, 3] := by decide +kernel
  have h := unrepeated_optimize hwired hunrepeated
  obtain ⟨hwired', hunrepeated', -, -, -, -, hisolated⟩ := h
  rw [hfolded] at hisolated
  exact ⟨hwired, hunrepeated, hwired', hunrepeated', hfolded, (hisolated 2 (by simp)).2.2.2,
    (hisolated 3 (by simp)).2.2.2⟩

end FetchPlan.JoinGraph
