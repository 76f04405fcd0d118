import FetchPlan.JoinGraph.Optimize
import FetchPlan.Proofs.JoinGraph.Absorbs
import Mathlib.Algebra.BigOperators.Group.Finset.Basic
import Mathlib.Algebra.Order.BigOperators.Group.Finset

/-!
# Contractions, one and many

A contraction that is found takes a connection away. In a graph without loops the ends of that
connection are joined by another one once the two nodes are the same, so the contracted graph
absorbs the graph before (`absorbs_apply`); in every graph there are fewer connections than before
(`totalConnections_apply_lt`). Optimizing is a run of contractions (`run_optimize`).
-/

namespace FetchPlan.JoinGraph

variable {g g' : JoinGraph} {id owner index n : Nat} {x : Contraction} {c : Connection}
  {ρ : Nat → Nat}

/-! ## What is found -/

theorem duplicate?_eq_some (h : g.duplicate? id = some x) :
    ∃ i j first second, i < j ∧ (g.connections id)[i]? = some first ∧
      (g.connections id)[j]? = some second ∧
      g.relation first.target = g.relation second.target ∧ first.fields = second.fields ∧
      x = if second.target = root then .duplicate id i second.target first.target
        else .duplicate id j first.target second.target := by
  obtain ⟨⟨first, i⟩, hfirst, h⟩ := List.exists_of_findSome?_eq_some h
  obtain ⟨⟨second, j⟩, hsecond, h⟩ := List.exists_of_findSome?_eq_some h
  have hj : (g.connections id)[j]? = some second :=
    List.mem_zipIdx_iff_getElem?.1 (List.mem_of_mem_drop hsecond)
  obtain ⟨k, hk⟩ := List.getElem?_of_mem hsecond
  rw [List.getElem?_drop, List.getElem?_zipIdx, Option.map_eq_some_iff] at hk
  obtain ⟨_, -, heq⟩ := hk
  have hij : i < j := by
    rw [← (Prod.mk.inj heq).2]
    omega
  dsimp only at h
  split at h
  · next hsame =>
    refine ⟨i, j, first, second, hij, List.mem_zipIdx_iff_getElem?.1 hfirst, hj, hsame.1,
      hsame.2, ?_⟩
    split at h
    · next hroot => rw [if_pos hroot, Option.some.inj h]
    · next hroot => rw [if_neg hroot, Option.some.inj h]
  · exact absurd h (by simp)

/-- If no duplicate is found, no two connections fetch the same rows. -/
theorem duplicate?_eq_none (h : g.duplicate? id = none) {i j : Nat} {first second : Connection}
    (hij : i < j) (hi : (g.connections id)[i]? = some first)
    (hj : (g.connections id)[j]? = some second)
    (hrelation : g.relation first.target = g.relation second.target) :
    first.fields ≠ second.fields := by
  intro hfields
  have hfirst : (first, i) ∈ (g.connections id).zipIdx := List.mem_zipIdx_iff_getElem?.2 hi
  have hsecond : (second, j) ∈ ((g.connections id).zipIdx).drop (i + 1) := by
    refine List.mem_of_getElem? (i := j - (i + 1)) ?_
    rw [List.getElem?_drop, List.getElem?_zipIdx, Nat.add_sub_cancel' hij, hj]
    simp
  have hnone := List.findSome?_eq_none_iff.1 (List.findSome?_eq_none_iff.1 h _ hfirst) _ hsecond
  dsimp only at hnone
  rw [if_pos ⟨hrelation, hfields⟩] at hnone
  exact absurd hnone (by simp)

theorem roundTrip?_eq_some (h : g.roundTrip? id = some x) :
    ∃ forth ∈ g.connections id, ∃ index back,
      (g.connections forth.target)[index]? = some back ∧
      g.relation back.target = g.relation id ∧ back.fields = forth.fields.reversed ∧
      x = .roundTrip id forth.target index back.target := by
  obtain ⟨forth, hforth, h⟩ := List.exists_of_findSome?_eq_some h
  obtain ⟨⟨back, index⟩, hback, h⟩ := List.exists_of_findSome?_eq_some h
  dsimp only at h
  split at h
  · next hsame =>
    refine ⟨forth, hforth, index, back, List.mem_zipIdx_iff_getElem?.1 hback, hsame.1, ?_, ?_⟩
    · exact FieldPairs.isReverseOf_iff.1 hsame.2
    · exact (Option.some.inj h).symm
  · exact absurd h (by simp)

/-- If no round trip is found, no connection is walked back to the relation it came from. -/
theorem roundTrip?_eq_none (h : g.roundTrip? id = none) {forth back : Connection}
    (hforth : forth ∈ g.connections id) (hback : back ∈ g.connections forth.target)
    (hrelation : g.relation back.target = g.relation id) :
    back.fields ≠ forth.fields.reversed := by
  intro hfields
  obtain ⟨i, hi⟩ := List.getElem?_of_mem hback
  have hmem : (back, i) ∈ (g.connections forth.target).zipIdx := List.mem_zipIdx_iff_getElem?.2 hi
  have hnone := List.findSome?_eq_none_iff.1 (List.findSome?_eq_none_iff.1 h _ hforth) _ hmem
  dsimp only at hnone
  rw [if_pos ⟨hrelation, FieldPairs.isReverseOf_iff.2 hfields⟩] at hnone
  exact absurd hnone (by simp)

/-! ## One contraction -/

theorem connections_disconnect {a : Nat} : (g.disconnect owner index).connections a =
    if owner = a then (g.connections a).eraseIdx index else g.connections a := by
  rw [disconnect, connections_setConnections]
  by_cases ha : owner = a
  · subst ha
    by_cases hlt : owner < g.size
    · rw [if_pos ⟨rfl, hlt⟩, if_pos rfl]
    · rw [if_neg fun h => hlt h.2, if_pos rfl, connections_of_size_le (by omega)]
      rfl
  · rw [if_neg fun h => ha h.1, if_neg ha]

theorem of_mem_connections_disconnect {a : Nat}
    (h : c ∈ (g.disconnect owner index).connections a) : c ∈ g.connections a := by
  rw [connections_disconnect] at h
  split at h
  · exact List.mem_of_mem_eraseIdx h
  · exact h

/-- All connections stay but the one that is removed. -/
theorem mem_connections_disconnect {a i : Nat} (h : (g.connections a)[i]? = some c)
    (hne : a ≠ owner ∨ i ≠ index) : c ∈ (g.disconnect owner index).connections a := by
  rw [connections_disconnect]
  split
  · next ha =>
    exact List.mem_eraseIdx_iff_getElem?.2 ⟨i, hne.resolve_left fun hn => hn ha.symm, h⟩
  · exact List.mem_of_getElem? h

theorem Bounded.disconnect (h : g.Bounded) : (g.disconnect owner index).Bounded :=
  h.of_subset size_setConnections fun _ _ hc => of_mem_connections_disconnect hc

theorem Wired.disconnect (h : g.Wired) : (g.disconnect owner index).Wired :=
  h.of_subset (Nat.le_of_eq size_setConnections.symm)
    (fun _ _ hx => by rwa [JoinGraph.disconnect, used_setConnections])
    fun _ _ hc => of_mem_connections_disconnect hc

/-- The connection that is taken away may be absorbed too: it is enough that the nodes that stand
for its ends are those of another connection on the same fields, in either direction. -/
theorem Absorbs.of_disconnect (h : Absorbs ρ (g.disconnect owner index) g')
    (hc : (g.connections owner)[index]? = some c) {a : Nat} {d : Connection}
    (hd : d ∈ (g.disconnect owner index).connections a)
    (htwin : (ρ a = ρ owner ∧ ρ d.target = ρ c.target ∧ d.fields = c.fields) ∨
      (ρ a = ρ c.target ∧ ρ d.target = ρ owner ∧ d.fields = c.fields.reversed)) :
    Absorbs ρ g g' where
  size := h.size.trans size_setConnections
  relation n := (h.relation n).trans relation_setConnections
  same n := by
    have hsame := h.same n
    rwa [JoinGraph.disconnect, relation_setConnections, relation_setConnections] at hsame
  root := h.root
  lt n hn := by
    have hlt := h.lt n
    rw [JoinGraph.disconnect, size_setConnections] at hlt
    exact hlt hn
  used n x hx := h.used n x (by rwa [JoinGraph.disconnect, used_setConnections])
  of_used m x hx := by
    obtain ⟨n, hn, hx'⟩ := h.of_used m x hx
    exact ⟨n, hn, by rwa [JoinGraph.disconnect, used_setConnections] at hx'⟩
  joined b e he := by
    obtain ⟨i, hi⟩ := List.getElem?_of_mem he
    by_cases hne : b ≠ owner ∨ i ≠ index
    · exact h.joined b e (mem_connections_disconnect hi hne)
    · -- It is the removed connection itself.
      rw [not_or, not_not, not_not] at hne
      obtain ⟨rfl, rfl⟩ := hne
      obtain rfl : e = c := Option.some.inj (hi.symm.trans hc)
      rcases htwin with ⟨hfrom, hto, hfields⟩ | ⟨hfrom, hto, hfields⟩
      · rw [← hfrom, ← hto, ← hfields]
        exact h.joined a d hd
      · rw [← hfrom, ← hto]
        refine (h.joined a d hd).imp Eq.symm ?_
        intro hj
        have hsymm := hj.symm
        rwa [hfields, FieldPairs.reversed_reversed] at hsymm
  of_mem b e he := by
    obtain ⟨hne, a, c, hc, hfrom⟩ := h.of_mem b e he
    exact ⟨hne, a, c, of_mem_connections_disconnect hc, hfrom⟩

namespace Contraction

/-- The node that stands for `n` after a contraction. -/
def representative (x : Contraction) (n : Nat) : Nat :=
  match x.folded? with
  | none => n
  | some (kept, dropped) => fused dropped kept n

@[simp] theorem size_trim : (x.trim g).size = g.size := size_setConnections

@[simp] theorem relation_trim : (x.trim g).relation n = g.relation n := relation_setConnections

/-- What is folded are two nodes of one relation, and the root is kept. -/
structure Sound (g : JoinGraph) (kept dropped : Nat) : Prop where
  ne : kept ≠ dropped
  lt : kept < g.size
  lt' : dropped < g.size
  root : dropped ≠ root
  relation : g.relation kept = g.relation dropped

theorem representative_eq_kept {id index kept dropped : Nat} (hn : n = kept ∨ n = dropped) :
    (duplicate id index kept dropped).representative n = kept := by
  rw [representative, folded?]
  by_cases hkd : kept = dropped
  · rw [if_pos hkd]
    rcases hn with hn | hn
    · exact hn
    · exact hn.trans hkd.symm
  · rw [if_neg hkd]
    rcases hn with rfl | rfl
    · exact fused_of_ne hkd
    · exact fused_dropped

theorem representative_back {id via index back : Nat} :
    (roundTrip id via index back).representative back =
      (roundTrip id via index back).representative id := by
  rw [representative, representative, folded?]
  by_cases hid : back = id
  · rw [if_pos hid]
    exact hid
  · rw [if_neg hid]
    by_cases hroot : back = root
    · rw [if_pos hroot]
      exact (fused_of_ne hid).trans fused_dropped.symm
    · rw [if_neg hroot]
      exact fused_dropped.trans (fused_of_ne (Ne.symm hid)).symm

theorem folded?_duplicate {id index k d kept dropped : Nat}
    (h : (duplicate id index k d).folded? = some (kept, dropped)) :
    k ≠ d ∧ kept = k ∧ dropped = d := by
  rw [folded?] at h
  split at h
  · exact absurd h (by simp)
  · next hne =>
    obtain ⟨rfl, rfl⟩ := Prod.mk.inj (Option.some.inj h)
    exact ⟨hne, rfl, rfl⟩

theorem folded?_roundTrip {id via index back kept dropped : Nat}
    (h : (roundTrip id via index back).folded? = some (kept, dropped)) :
    back ≠ id ∧ ((back = root ∧ kept = back ∧ dropped = id) ∨
      (back ≠ root ∧ kept = id ∧ dropped = back)) := by
  rw [folded?] at h
  split at h
  · exact absurd h (by simp)
  · next hne =>
    refine ⟨hne, ?_⟩
    split at h
    · next hroot =>
      obtain ⟨rfl, rfl⟩ := Prod.mk.inj (Option.some.inj h)
      exact Or.inl ⟨hroot, rfl, rfl⟩
    · next hroot =>
      obtain ⟨rfl, rfl⟩ := Prod.mk.inj (Option.some.inj h)
      exact Or.inr ⟨hroot, rfl, rfl⟩

theorem sound_duplicate {id index kept dropped : Nat} (hk : kept < g.size) (hd : dropped < g.size)
    (hroot : kept ≠ dropped → dropped ≠ root) (hrelation : g.relation kept = g.relation dropped) :
    ∀ k d, (duplicate id index kept dropped).folded? = some (k, d) → Sound g k d := by
  intro k d h
  obtain ⟨hne, rfl, rfl⟩ := folded?_duplicate h
  exact ⟨hne, hk, hd, hroot hne, hrelation⟩

theorem sound_roundTrip {id via index back : Nat} (hid : id < g.size) (hback : back < g.size)
    (hrelation : g.relation back = g.relation id) :
    ∀ k d, (roundTrip id via index back).folded? = some (k, d) → Sound g k d := by
  intro k d h
  obtain ⟨hne, ⟨hroot, rfl, rfl⟩ | ⟨hroot, rfl, rfl⟩⟩ := folded?_roundTrip h
  · exact ⟨hne, hback, hid, fun hid' => hne (hroot.trans hid'.symm), hrelation⟩
  · exact ⟨Ne.symm hne, hid, hback, hroot, hrelation.symm⟩

/-- The connection that a contraction removes, and another one on the same fields, in either
direction, that is left and that joins the same nodes afterwards. -/
structure Twins (x : Contraction) (g : JoinGraph) (c : Connection) (a : Nat) (d : Connection) :
    Prop where
  removed : (g.connections x.removed.1)[x.removed.2]? = some c
  left : d ∈ (x.trim g).connections a
  same : (x.representative a = x.representative x.removed.1 ∧
      x.representative d.target = x.representative c.target ∧ d.fields = c.fields) ∨
    (x.representative a = x.representative c.target ∧
      x.representative d.target = x.representative x.removed.1 ∧ d.fields = c.fields.reversed)

/-- Two connections of a node to one relation on the same fields are twins. -/
theorem twins_duplicate {id i j kept dropped : Nat} {c d : Connection}
    (hc : (g.connections id)[i]? = some c) (hd : (g.connections id)[j]? = some d) (hij : j ≠ i)
    (hcd : c.target = dropped) (hdk : d.target = kept) (hfields : d.fields = c.fields) :
    (duplicate id i kept dropped).Twins g c id d where
  removed := hc
  left := mem_connections_disconnect hd (Or.inr hij)
  same := by
    refine Or.inl ⟨rfl, ?_, hfields⟩
    rw [representative_eq_kept (Or.inl hdk), representative_eq_kept (Or.inr hcd)]

/-- A connection and the one that leads back are twins. -/
theorem twins_roundTrip {id index : Nat} {forth back : Connection} (hne : forth.target ≠ id)
    (hforth : forth ∈ g.connections id)
    (hback : (g.connections forth.target)[index]? = some back)
    (hfields : back.fields = forth.fields.reversed) :
    (roundTrip id forth.target index back.target).Twins g back id forth where
  removed := hback
  left := by
    obtain ⟨i, hi⟩ := List.getElem?_of_mem hforth
    exact mem_connections_disconnect hi (Or.inl hne.symm)
  same := by
    refine Or.inr ⟨representative_back.symm, rfl, ?_⟩
    rw [hfields, FieldPairs.reversed_reversed]

end Contraction

open Contraction

/-- A contraction that is found removes a connection, and folds soundly. -/
theorem of_contractionAt? (h : g.Bounded) (hx : g.contractionAt? id = some x) :
    (∃ c, (g.connections x.removed.1)[x.removed.2]? = some c) ∧
      ∀ kept dropped, x.folded? = some (kept, dropped) → Sound g kept dropped := by
  rcases Option.or_eq_some_iff.1 hx with hdup | ⟨-, hround⟩
  · obtain ⟨i, j, first, second, -, hi, hj, hrelation, -, rfl⟩ := duplicate?_eq_some hdup
    have hfirst := h id first (List.mem_of_getElem? hi)
    have hsecond := h id second (List.mem_of_getElem? hj)
    split
    · next hroot =>
      refine ⟨⟨first, hi⟩, sound_duplicate hsecond hfirst ?_ hrelation.symm⟩
      intro hne hfirst
      exact hne (hroot.trans hfirst.symm)
    · next hroot => exact ⟨⟨second, hj⟩, sound_duplicate hfirst hsecond (fun _ => hroot) hrelation⟩
  · obtain ⟨forth, hforth, index, back, hback, hrelation, -, rfl⟩ := roundTrip?_eq_some hround
    exact ⟨⟨back, hback⟩, sound_roundTrip (lt_size_of_mem hforth)
      (h _ back (List.mem_of_getElem? hback)) hrelation⟩

/-- In a graph without loops, the connection that is removed has a twin. -/
theorem exists_twins (h : ∀ a, ∀ c ∈ g.connections a, c.target ≠ a)
    (hx : g.contractionAt? id = some x) : ∃ c a d, x.Twins g c a d := by
  rcases Option.or_eq_some_iff.1 hx with hdup | ⟨-, hround⟩
  · obtain ⟨i, j, first, second, hij, hi, hj, -, hfields, rfl⟩ := duplicate?_eq_some hdup
    split
    · exact ⟨first, id, second, twins_duplicate hi hj (Nat.ne_of_gt hij) rfl rfl hfields.symm⟩
    · exact ⟨second, id, first, twins_duplicate hj hi (Nat.ne_of_lt hij) rfl rfl hfields⟩
  · obtain ⟨forth, hforth, index, back, hback, -, hfields, rfl⟩ := roundTrip?_eq_some hround
    exact ⟨back, id, forth, twins_roundTrip (h id forth hforth) hforth hback hfields⟩

/-- A contracted graph absorbs the graph before. -/
theorem absorbs_apply (h : g.Wired) (hx : g.contractionAt? id = some x) :
    Absorbs x.representative g (x.apply g) := by
  obtain ⟨-, hsound⟩ := of_contractionAt? h.bounded hx
  obtain ⟨c, a, d, htwins⟩ := exists_twins h.loopless hx
  have htrim : (x.trim g).Wired := h.disconnect
  refine Absorbs.of_disconnect ?_ htwins.removed htwins.left htwins.same
  show Absorbs x.representative (x.trim g) (x.apply g)
  cases hfolded : x.folded? with
  | none =>
    have hrep : x.representative = fun n => n := by
      funext n
      rw [representative, hfolded]
    rw [Contraction.apply, hfolded, hrep]
    exact Absorbs.refl htrim
  | some p =>
    obtain ⟨kept, dropped⟩ := p
    have hrep : x.representative = fused dropped kept := by
      funext n
      rw [representative, hfolded]
    rw [Contraction.apply, hfolded, hrep]
    obtain ⟨hne, hlt, hlt', hroot, hrelation⟩ := hsound kept dropped hfolded
    refine absorbs_fold htrim hne ?_ ?_ hroot ?_
    · rwa [size_trim]
    · rwa [size_trim]
    · rwa [relation_trim, relation_trim]

/-- A contracted graph is bounded. -/
theorem Bounded.apply (h : g.Bounded) (hx : g.contractionAt? id = some x) :
    (x.apply g).Bounded := by
  obtain ⟨-, hsound⟩ := of_contractionAt? h hx
  have htrim : (x.trim g).Bounded := h.disconnect
  rw [Contraction.apply]
  cases hfolded : x.folded? with
  | none => exact htrim
  | some p =>
    obtain ⟨kept, dropped⟩ := p
    obtain ⟨hne, hlt, -, -, -⟩ := hsound kept dropped hfolded
    refine htrim.fold hne ?_
    rwa [size_trim]

/-! ## The number of connections -/

theorem totalConnections_eq :
    g.totalConnections = ∑ i ∈ Finset.range g.size, (g.connections i).length := by
  rw [totalConnections, List.length_flatMap, ids, Finset.sum_eq_multiset_sum, Finset.range_val,
    ← Multiset.coe_range, Multiset.map_coe, Multiset.sum_coe]

theorem totalConnections_le (hsize : g'.size = g.size)
    (hle : ∀ i, (g'.connections i).length ≤ (g.connections i).length) :
    g'.totalConnections ≤ g.totalConnections := by
  rw [totalConnections_eq, totalConnections_eq, hsize]
  exact Finset.sum_le_sum fun i _ => hle i

/-- What is added up over all nodes changes by what their new connections make of one of them. -/
theorem sum_setConnections {M : Type} [AddCommMonoid M] (F : Nat → List Connection → M)
    (h : owner < g.size) (cs : List Connection) :
    ∑ i ∈ Finset.range g.size, F i ((g.setConnections owner cs).connections i) +
        F owner (g.connections owner) =
      ∑ i ∈ Finset.range g.size, F i (g.connections i) + F owner cs := by
  have hmem : owner ∈ Finset.range g.size := Finset.mem_range.2 h
  have hrest : ∑ i ∈ (Finset.range g.size).erase owner,
        F i ((g.setConnections owner cs).connections i) =
      ∑ i ∈ (Finset.range g.size).erase owner, F i (g.connections i) := by
    refine Finset.sum_congr rfl ?_
    intro i hi
    rw [connections_setConnections, if_neg fun h => Finset.ne_of_mem_erase hi h.1.symm]
  rw [← Finset.add_sum_erase _ _ hmem, ← Finset.add_sum_erase _ _ hmem, hrest,
    connections_setConnections, if_pos ⟨rfl, h⟩]
  ac_rfl

/-- A node with other connections changes the number by the difference. -/
theorem totalConnections_setConnections (h : owner < g.size) (cs : List Connection) :
    (g.setConnections owner cs).totalConnections + (g.connections owner).length =
      g.totalConnections + cs.length := by
  rw [totalConnections_eq, totalConnections_eq, size_setConnections]
  exact sum_setConnections (fun _ => List.length) h cs

theorem totalConnections_push (h : owner < g.size) :
    (g.push owner c).totalConnections = g.totalConnections + 1 := by
  have hcount := totalConnections_setConnections h (g.connections owner ++ [c])
  rw [List.length_append, List.length_singleton] at hcount
  rw [push]
  omega

theorem totalConnections_connect_le (h : owner < g.size) :
    (g.connect owner c).totalConnections ≤ g.totalConnections + 1 := by
  rcases g.connect_cases owner c with ⟨-, hg⟩ | ⟨-, hg⟩
  · rw [hg]
    exact Nat.le_succ _
  · rw [hg, link, totalConnections_push (by simpa using h)]
    exact Nat.succ_le_succ (totalConnections_le (by simp) fun i => by simp)

theorem totalConnections_connectAll_le (h : owner < g.size) (cs : List Connection) :
    (g.connectAll owner cs).totalConnections ≤ g.totalConnections + cs.length := by
  induction cs generalizing g with
  | nil => exact Nat.le_refl _
  | cons c cs ih =>
    have hone := totalConnections_connect_le (c := c) h
    have hrest := ih (g := g.connect owner c) (by simpa using h)
    rw [List.length_cons]
    exact Nat.le_trans hrest (by omega)

theorem totalConnections_strip {kept dropped : Nat} (h : dropped < g.size) :
    (g.strip kept dropped).totalConnections + (g.connections dropped).length =
      g.totalConnections := by
  have hcount := totalConnections_setConnections h []
  have hsame : (g.strip kept dropped).totalConnections =
      (g.setConnections dropped []).totalConnections := by
    rw [totalConnections_eq, totalConnections_eq, size_strip, size_setConnections]
    refine Finset.sum_congr rfl ?_
    intro i _
    rw [connections_setConnections, strip, connections_use, connections, node_update]
    split
    · rfl
    · rfl
  rw [hsame]
  exact hcount

/-- Folding takes no connection over more than once. -/
theorem totalConnections_fold_le {kept dropped : Nat} (hk : kept < g.size) (hd : dropped < g.size) :
    (g.fold kept dropped).totalConnections ≤ g.totalConnections := by
  have hredirect : (g.fold kept dropped).totalConnections ≤
      ((g.strip kept dropped).connectAll kept (g.inherited kept dropped)).totalConnections :=
    totalConnections_le size_redirectAll fun _ => length_connections_redirectAll_le
  have hconnect := totalConnections_connectAll_le (g := g.strip kept dropped) (by simpa using hk)
    (g.inherited kept dropped)
  have hinherited : (g.inherited kept dropped).length ≤ (g.connections dropped).length :=
    List.length_filter_le _ _
  have hstrip : (g.strip kept dropped).totalConnections + (g.connections dropped).length =
      g.totalConnections := totalConnections_strip hd
  omega

theorem totalConnections_disconnect_lt (hc : (g.connections owner)[index]? = some c) :
    (g.disconnect owner index).totalConnections < g.totalConnections := by
  have hlt : owner < g.size := lt_size_of_mem (List.mem_of_getElem? hc)
  have hindex : index < (g.connections owner).length := (List.getElem?_eq_some_iff.1 hc).1
  have hcount := totalConnections_setConnections hlt ((g.connections owner).eraseIdx index)
  rw [List.length_eraseIdx_of_lt hindex] at hcount
  rw [disconnect]
  omega

/-- Every contraction takes a connection away. -/
theorem totalConnections_apply_lt (h : g.Bounded) (hx : g.contractionAt? id = some x) :
    (x.apply g).totalConnections < g.totalConnections := by
  obtain ⟨⟨c, hc⟩, hsound⟩ := of_contractionAt? h hx
  have htrim : (x.trim g).totalConnections < g.totalConnections := totalConnections_disconnect_lt hc
  rw [Contraction.apply]
  cases hfolded : x.folded? with
  | none => exact htrim
  | some p =>
    obtain ⟨kept, dropped⟩ := p
    obtain ⟨-, hlt, hlt', -, -⟩ := hsound kept dropped hfolded
    refine Nat.lt_of_le_of_lt (totalConnections_fold_le ?_ ?_) htrim
    · rwa [size_trim]
    · rwa [size_trim]

/-! ## The run of contractions -/

/-- A series of contractions, each of them found in the graph before it. -/
inductive Run : JoinGraph → List Contraction → JoinGraph → Prop
  | nil {g : JoinGraph} : Run g [] g
  | cons {g g' : JoinGraph} {id : Nat} {x : Contraction} {xs : List Contraction}
      (found : g.contractionAt? id = some x) (rest : Run (x.apply g) xs g') : Run g (x :: xs) g'

/-- The node that stands for `n` after a series of contractions. -/
def heir (xs : List Contraction) (n : Nat) : Nat := xs.foldl (fun n x => x.representative n) n

/-- Nothing is left to contract at the nodes that are reached. -/
def Settled (g : JoinGraph) : Prop := ∀ id, g.Reaches id → g.contractionAt? id = none

variable {budget : Nat} {ids : List Nat} {xs ys : List Contraction} {g'' : JoinGraph}

theorem Run.append (h : Run g xs g') (h' : Run g' ys g'') : Run g (xs ++ ys) g'' := by
  induction h with
  | nil => exact h'
  | cons found _ ih => exact .cons found (ih h')

/-- What one contraction preserves, a run preserves. -/
theorem Run.induction {P : JoinGraph → Prop} (hrun : Run g xs g') (h : P g)
    (step : ∀ g id x, P g → g.contractionAt? id = some x → P (x.apply g)) : P g' := by
  induction hrun with
  | nil => exact h
  | cons found _ ih => exact ih (step _ _ _ h found)

/-- The graph after a run absorbs the graph before. -/
theorem Run.absorbs (hrun : Run g xs g') (h : g.Wired) : Absorbs (heir xs) g g' := by
  induction hrun with
  | nil => exact .refl h
  | cons found _ ih =>
    have happly := absorbs_apply h found
    exact happly.trans (ih (happly.wired h))

/-- With every contraction a connection is gone. -/
theorem Run.length_le (hrun : Run g xs g') (h : g.Bounded) :
    xs.length + g'.totalConnections ≤ g.totalConnections := by
  induction hrun with
  | nil => simp
  | cons found _ ih =>
    have hlt := totalConnections_apply_lt h found
    have hrest := ih (h.apply found)
    rw [List.length_cons]
    omega

/-- Contractions lead nowhere out of the graph. -/
theorem Run.bounded (hrun : Run g xs g') (h : g.Bounded) : g'.Bounded :=
  hrun.induction h fun _ _ _ hg found => hg.apply found

theorem run_settle : Run g (settle budget g id).1 (settle budget g id).2 := by
  induction budget generalizing g with
  | zero => exact .nil
  | succ budget ih =>
    rw [settle]
    split
    · exact .nil
    · next x hx => exact .cons hx ih

theorem run_sweepOver : Run g (sweepOver ids g).1 (sweepOver ids g).2 := by
  induction ids generalizing g with
  | nil => exact .nil
  | cons id ids ih =>
    rw [sweepOver]
    split
    · exact run_settle.append ih
    · exact ih

theorem run_optimizeFor :
    Run g (optimizeFor budget g).contractions (optimizeFor budget g).graph := by
  induction budget generalizing g with
  | zero => exact .nil
  | succ budget ih =>
    have hsweep : Run g g.sweep.1 g.sweep.2 := run_sweepOver
    unfold optimizeFor
    split
    · next g' hg' => rwa [hg'] at hsweep
    · next done g' _ hg' =>
      rw [hg'] at hsweep
      exact hsweep.append ih

/-- An optimized graph comes about by the contractions that are told of. -/
theorem run_optimize : Run g g.optimize.contractions g.optimize.graph := run_optimizeFor

end FetchPlan.JoinGraph
