import FetchPlan.Proofs.JoinGraph.Fold
import FetchPlan.Proofs.JoinGraph.Wired

/-!
# Graphs that absorb others

One graph absorbs another if every node has a representative that stands for it: on the same
relation, with all its fields, and joined to the representatives of the nodes it was connected
to. Nothing else is new, so the fields and the connections of the absorbing graph can be traced
back. Folding a node into another absorbs (`absorbs_fold`), and absorptions compose.
-/

namespace FetchPlan.JoinGraph

variable {g g' g'' : JoinGraph} {ρ σ : Nat → Nat} {a b n dropped kept : Nat} {c : Connection}
  {x : String}

/-! ## Absorption -/

/-- Every node of `g` is represented in `g'` by its image under `ρ`. -/
structure Absorbs (ρ : Nat → Nat) (g g' : JoinGraph) : Prop where
  size : g'.size = g.size
  relation : ∀ n, g'.relation n = g.relation n
  same : ∀ n, g.relation (ρ n) = g.relation n
  root : ρ root = root
  lt : ∀ n < g.size, ρ n < g.size
  used : ∀ n, ∀ x ∈ g.used n, x ∈ g'.used (ρ n)
  of_used : ∀ m, ∀ x ∈ g'.used m, ∃ n, ρ n = m ∧ x ∈ g.used n
  joined : ∀ a, ∀ c ∈ g.connections a, ρ a = ρ c.target ∨ g'.Joined (ρ a) (ρ c.target) c.fields
  of_mem : ∀ b, ∀ d ∈ g'.connections b, b ≠ d.target ∧
    ∃ a, ∃ c ∈ g.connections a, ρ a = b ∧ ρ c.target = d.target ∧ d.fields = c.fields

theorem Absorbs.refl (h : g.Wired) : Absorbs (fun n => n) g g where
  size := rfl
  relation _ := rfl
  same _ := rfl
  root := rfl
  lt _ hn := hn
  used _ _ := id
  of_used m _ hx := ⟨m, rfl, hx⟩
  joined _ _ hc := Or.inr (Or.inl hc)
  of_mem b d hd := ⟨(h.loopless b d hd).symm, b, d, hd, rfl, rfl, rfl⟩

theorem Absorbs.wired (h : Absorbs ρ g g') (hg : g.Wired) : g'.Wired where
  bounded b d hd := by
    obtain ⟨-, a, c, hc, -, htarget, -⟩ := h.of_mem b d hd
    rw [← htarget, h.size]
    exact h.lt _ (hg.bounded a c hc)
  loopless b d hd := (h.of_mem b d hd).1.symm
  sources b d hd x hx := by
    obtain ⟨-, a, c, hc, rfl, -, hfields⟩ := h.of_mem b d hd
    exact h.used a x (hg.sources a c hc x (hfields ▸ hx))
  targets b d hd x hx := by
    obtain ⟨-, a, c, hc, -, htarget, hfields⟩ := h.of_mem b d hd
    rw [← htarget]
    exact h.used c.target x (hg.targets a c hc x (hfields ▸ hx))

theorem Absorbs.joining (h : Absorbs ρ g g') (hg : g.Joining) : g'.Joining := by
  intro b d hd
  obtain ⟨-, a, c, hc, -, -, hfields⟩ := h.of_mem b d hd
  exact hfields ▸ hg a c hc

theorem Absorbs.trans (h : Absorbs ρ g g') (h' : Absorbs σ g' g'') :
    Absorbs (fun n => σ (ρ n)) g g'' where
  size := h'.size.trans h.size
  relation n := (h'.relation n).trans (h.relation n)
  same n := by
    have hsame := h'.same (ρ n)
    rw [h.relation, h.relation] at hsame
    exact hsame.trans (h.same n)
  root := (congrArg σ h.root).trans h'.root
  lt n hn := h.size ▸ h'.lt (ρ n) (h.size.symm ▸ h.lt n hn)
  used n x hx := h'.used (ρ n) x (h.used n x hx)
  of_used m x hx := by
    obtain ⟨n, hn, hx'⟩ := h'.of_used m x hx
    obtain ⟨k, hk, hx''⟩ := h.of_used n x hx'
    exact ⟨k, (congrArg σ hk).trans hn, hx''⟩
  joined a c hc := by
    rcases h.joined a c hc with heq | hj | hj
    · exact Or.inl (congrArg σ heq)
    · exact h'.joined _ _ hj
    · refine (h'.joined _ _ hj).imp Eq.symm ?_
      intro hj
      have hsymm := hj.symm
      rwa [FieldPairs.reversed_reversed] at hsymm
  of_mem b d hd := by
    obtain ⟨hne, b', d', hd', rfl, htarget', hfields'⟩ := h'.of_mem b d hd
    obtain ⟨-, a, c, hc, rfl, htarget, hfields⟩ := h.of_mem b' d' hd'
    refine ⟨hne, a, c, hc, rfl, ?_, hfields'.trans hfields⟩
    rw [htarget, htarget']

/-! ## Folding -/

/-- The node that stands for `n` once `dropped` is folded into `kept`. -/
def fused (dropped kept n : Nat) : Nat := if n = dropped then kept else n

theorem fused_dropped : fused dropped kept dropped = kept := if_pos rfl

theorem fused_of_ne (h : n ≠ dropped) : fused dropped kept n = n := if_neg h

theorem fused_ne (h : kept ≠ dropped) : fused dropped kept n ≠ dropped := by
  unfold fused
  split
  · exact h
  · next hn => exact hn

@[simp] theorem size_strip : (g.strip kept dropped).size = g.size := by
  rw [strip, size_use, size_update]

@[simp] theorem relation_strip : (g.strip kept dropped).relation n = g.relation n := by
  rw [strip, relation_use, JoinGraph.relation, node_update]
  split
  · rfl
  · rfl

theorem mem_connections_strip :
    c ∈ (g.strip kept dropped).connections a ↔ a ≠ dropped ∧ c ∈ g.connections a := by
  rw [strip, connections_use, connections, node_update]
  split
  · next h => simp [h.1]
  · next h =>
    refine ⟨fun hc => ⟨fun ha => h ⟨ha.symm, lt_size_of_mem hc⟩, hc⟩, fun hc => hc.2⟩

theorem mem_used_strip (hk : kept < g.size) (hd : dropped < g.size) :
    x ∈ (g.strip kept dropped).used n ↔
      (n ≠ dropped ∧ x ∈ g.used n) ∨ (n = kept ∧ x ∈ g.used dropped) := by
  have hupdate : x ∈ (g.update dropped fun n => { n with used := ∅, connections := [] }).used n ↔
      n ≠ dropped ∧ x ∈ g.used n := by
    rw [used, node_update]
    split
    · next h => simp [h.1]
    · next h =>
      refine ⟨fun hx => ⟨fun hn => h ⟨hn.symm, hn ▸ hd⟩, hx⟩, And.right⟩
  rw [strip, mem_used_use, hupdate, size_update]
  refine or_congr_right ⟨fun hx => ⟨hx.1.symm, hx.2.2⟩, ?_⟩
  intro hx
  exact ⟨hx.1.symm, hx.1 ▸ hk, hx.2⟩

/-- Every connection of a folded graph has been there before, if `dropped` is seen as `kept`. -/
theorem of_mem_connections_fold (hne : kept ≠ dropped)
    (hc : c ∈ (g.fold kept dropped).connections b) :
    ∃ a, ∃ d ∈ g.connections a, fused dropped kept a = b ∧
      fused dropped kept d.target = c.target ∧ c.fields = d.fields ∧
        (a = d.target ∨ b ≠ c.target) := by
  have before : ∀ e ∈ ((g.strip kept dropped).connectAll kept
      (g.inherited kept dropped)).connections b,
      (b ≠ dropped ∧ e ∈ g.connections b) ∨
        (b = kept ∧ e ∈ g.connections dropped ∧ e.target ≠ kept ∧ e.target ≠ dropped) := by
    intro e he
    rcases of_mem_connections_connectAll he with he | ⟨hb, he⟩
    · exact Or.inl (mem_connections_strip.1 he)
    · obtain ⟨he, htarget⟩ := List.mem_filter.1 he
      exact Or.inr ⟨hb, he, of_decide_eq_true htarget⟩
  rcases of_mem_connections_redirectAll hne hc with ⟨hc, htarget⟩ | ⟨hb, htarget, hc⟩
  · rcases before c hc with ⟨hb, hc⟩ | ⟨rfl, hc, hck, -⟩
    · refine ⟨b, c, hc, fused_of_ne hb, fused_of_ne htarget, rfl, ?_⟩
      exact (em (b = c.target))
    · exact ⟨dropped, c, hc, fused_dropped, fused_of_ne htarget, rfl, Or.inr hck.symm⟩
  · rcases before _ hc with ⟨hb', hc⟩ | ⟨hb', -⟩
    · refine ⟨b, _, hc, fused_of_ne hb', ?_, rfl, Or.inr (htarget ▸ hb)⟩
      exact fused_dropped.trans htarget.symm
    · exact absurd hb' hb

theorem Bounded.fold (h : g.Bounded) (hne : kept ≠ dropped) (hk : kept < g.size) :
    (g.fold kept dropped).Bounded := by
  intro b c hc
  obtain ⟨a, d, hd, -, htarget, -⟩ := of_mem_connections_fold hne hc
  rw [← htarget, JoinGraph.fold, size_redirectAll, size_connectAll, size_strip, fused]
  split
  · exact hk
  · exact h a d hd

/-- A connection joins the nodes that stand for its ends, unless it is a loop by then. -/
theorem joined_fold (h : g.Wired) (hne : kept ≠ dropped) (hk : kept < g.size)
    (hc : c ∈ g.connections a) :
    fused dropped kept a = fused dropped kept c.target ∨
      (g.fold kept dropped).Joined (fused dropped kept a) (fused dropped kept c.target)
        c.fields := by
  by_cases ha : a = dropped
  · subst ha
    have hcd : c.target ≠ a := h.loopless a c hc
    rw [fused_dropped, fused_of_ne hcd]
    by_cases hck : c.target = kept
    · exact Or.inl hck.symm
    · have hin : c ∈ g.inherited kept a :=
        List.mem_filter.2 ⟨hc, decide_eq_true ⟨hck, hcd⟩⟩
      rcases joined_connectAll (g := g.strip kept a) (by simpa using hk) hin with hj | hj
      · exact Or.inr (Or.inl (mem_connections_redirectAll hj hcd))
      · exact Or.inr (Or.inr (mem_connections_redirectAll hj hne))
  · have hc' : c ∈ ((g.strip kept dropped).connectAll kept
        (g.inherited kept dropped)).connections a :=
      mem_connections_connectAll (mem_connections_strip.2 ⟨ha, hc⟩)
    rw [fused_of_ne ha]
    by_cases hcd : c.target = dropped
    · rw [hcd, fused_dropped]
      by_cases hak : a = kept
      · exact Or.inl hak
      · exact Or.inr (joined_redirectAll hne ha hak hc' hcd)
    · rw [fused_of_ne hcd]
      exact Or.inr (Or.inl (mem_connections_redirectAll hc' hcd))

/-- The kept node has the fields of both, the dropped one has none. -/
theorem mem_used_fold (h : g.Wired) (hk : kept < g.size) (hd : dropped < g.size) :
    x ∈ (g.fold kept dropped).used n ↔
      (n ≠ dropped ∧ x ∈ g.used n) ∨ (n = kept ∧ x ∈ g.used dropped) := by
  rw [fold, used_redirectAll, ← mem_used_strip hk hd]
  refine ⟨fun hx => of_mem_used_connectAll ?_ ?_ hx, mem_used_connectAll⟩
  · intro c hc y hy
    obtain ⟨hc, -⟩ := List.mem_filter.1 hc
    exact (mem_used_strip hk hd).2 (Or.inr ⟨rfl, h.sources dropped c hc y hy⟩)
  · intro c hc y hy
    obtain ⟨hc, htarget⟩ := List.mem_filter.1 hc
    have htarget := (of_decide_eq_true htarget).2
    exact (mem_used_strip hk hd).2 (Or.inl ⟨htarget, h.targets dropped c hc y hy⟩)

/-- Folding repeats no connection. -/
theorem nodup_fold (h : ∀ a, (g.connections a).Nodup) :
    ((g.fold kept dropped).connections a).Nodup := by
  refine nodup_redirectAll fun b => nodup_connectAll ?_
  intro b
  rw [strip, connections_use, connections, node_update]
  split
  · exact List.nodup_nil
  · exact h b

/-- Folding repeats no connection in the other direction. -/
theorem OneWay.fold (h : g.OneWay) : (g.fold kept dropped).OneWay := by
  have hstrip : (g.strip kept dropped).OneWay :=
    h.of_subset fun _ _ hc => (mem_connections_strip.1 hc).2
  refine (hstrip.connectAll ?_).redirectAll
  intro c hc
  exact (of_decide_eq_true (List.mem_filter.1 hc).2).1

/-- The dropped node is cut off. -/
theorem target_ne_of_mem_fold (hne : kept ≠ dropped)
    (hc : c ∈ (g.fold kept dropped).connections b) : b ≠ dropped ∧ c.target ≠ dropped := by
  obtain ⟨a, d, -, hb, htarget, -⟩ := of_mem_connections_fold hne hc
  exact ⟨hb ▸ fused_ne hne, htarget ▸ fused_ne hne⟩

/-- A folded graph absorbs the graph before. -/
theorem absorbs_fold (h : g.Wired) (hne : kept ≠ dropped) (hk : kept < g.size)
    (hd : dropped < g.size) (hroot : dropped ≠ root)
    (hrelation : g.relation kept = g.relation dropped) :
    Absorbs (fused dropped kept) g (g.fold kept dropped) where
  size := by rw [fold, size_redirectAll, size_connectAll, size_strip]
  relation n := by rw [fold, relation_redirectAll, relation_connectAll, relation_strip]
  same n := by
    unfold fused
    split
    · next hn => rw [hn, hrelation]
    · rfl
  root := fused_of_ne (Ne.symm hroot)
  lt n hn := by
    unfold fused
    split
    · exact hk
    · exact hn
  used n x hx := by
    rw [mem_used_fold h hk hd, fused]
    split
    · next hn => exact Or.inr ⟨rfl, hn ▸ hx⟩
    · next hn => exact Or.inl ⟨hn, hx⟩
  of_used m x hx := by
    rcases (mem_used_fold h hk hd).1 hx with ⟨hm, hx⟩ | ⟨hm, hx⟩
    · exact ⟨m, fused_of_ne hm, hx⟩
    · exact ⟨dropped, fused_dropped.trans hm.symm, hx⟩
  joined a c hc := joined_fold h hne hk hc
  of_mem b d hd := by
    obtain ⟨a, c, hc, ha, htarget, hfields, hloop⟩ := of_mem_connections_fold hne hd
    exact ⟨hloop.resolve_left fun heq => h.loopless a c hc heq.symm, a, c, hc, ha, htarget,
      hfields⟩

end FetchPlan.JoinGraph
