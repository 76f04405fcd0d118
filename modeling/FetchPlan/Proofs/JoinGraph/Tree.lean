import FetchPlan.Proofs.JoinGraph.Contracts
import FetchPlan.Proofs.JoinGraph.LabelPath

/-!
# Trees

Graphs whose reached nodes form a tree below the root. There every node has one label path
(`trail_unique`). A contraction of a tree folds a node into one whose label path reduces to the
same path, and the graph stays a tree.
-/

namespace FetchPlan.JoinGraph

open LabelPath

variable {g : JoinGraph} {a b m n owner index kept dropped : Nat} {c d : Connection} {x : String}
  {l : Label} {p q : List Label}

/-! ## Trails -/

/-- The label of a connection. -/
def label (g : JoinGraph) (c : Connection) : Label := ⟨c.fields, g.relation c.target⟩

/-- The label path `p` leads from the root to a node. -/
inductive Trail (g : JoinGraph) : List Label → Nat → Prop
  | root : Trail g [] root
  | step {p : List Label} {a : Nat} {c : Connection} (init : Trail g p a)
      (mem : c ∈ g.connections a) : Trail g (g.label c :: p) c.target

theorem Trail.reaches (h : g.Trail p n) : g.Reaches n := by
  induction h with
  | root => exact reaches_root
  | step _ mem ih => exact ih.step mem

theorem exists_trail (h : g.Reaches n) : ∃ p, g.Trail p n := by
  induction h with
  | refl => exact ⟨[], .root⟩
  | tail _ hleads ih =>
    obtain ⟨p, hp⟩ := ih
    obtain ⟨c, hc, rfl⟩ := hleads
    exact ⟨_, hp.step hc⟩

/-- A trail ends at the relation of its node. -/
theorem Trail.endsAt (h : g.Trail p n) : endsAt (g.relation JoinGraph.root) p = g.relation n := by
  cases h with
  | root => rfl
  | step _ _ => rfl

/-! ## Trees -/

/-- The nodes that are reached form a tree below the root, and no other node has connections. -/
structure Arborescent (g : JoinGraph) : Prop where
  wired : g.Wired
  nodup : ∀ a, (g.connections a).Nodup
  sole : ∀ a b, ∀ c ∈ g.connections a, ∀ d ∈ g.connections b, c.target = d.target → a = b ∧ c = d
  root : ∀ a, ∀ c ∈ g.connections a, c.target ≠ root
  reached : ∀ a, ∀ c ∈ g.connections a, g.Reaches a

/-- A node of a tree has one label path. -/
theorem Arborescent.trail_unique (h : g.Arborescent) (hp : g.Trail p n) (hq : g.Trail q n) :
    p = q := by
  induction hp generalizing q with
  | root =>
    generalize hn : JoinGraph.root = n at hq
    cases hq with
    | root => rfl
    | step _ mem => exact absurd hn.symm (h.root _ _ mem)
  | @step p a c _ mem ih =>
    generalize hn : c.target = n at hq
    cases hq with
    | root => exact absurd hn (h.root _ _ mem)
    | step init mem' =>
      obtain ⟨rfl, rfl⟩ := h.sole _ _ _ mem _ mem' hn
      rw [ih init]

/-- A trail to the target of a connection leads over the connection. -/
theorem Arborescent.of_trail (h : g.Arborescent) (hc : c ∈ g.connections a)
    (hp : g.Trail p c.target) : ∃ q, p = g.label c :: q ∧ g.Trail q a := by
  obtain ⟨q, hq⟩ := exists_trail (h.reached a c hc)
  exact ⟨q, h.trail_unique hp (hq.step hc), hq⟩

/-! ## Contractions of trees -/

/-- A contraction of a tree at a node: the only connection to `dropped` is removed, and `dropped`
is folded into a node that is no further from the root and whose label path reduces to the same. -/
structure Prunes (g : JoinGraph) (owner index kept dropped : Nat) : Prop where
  sound : Contraction.Sound g kept dropped
  removed : ∃ c, (g.connections owner)[index]? = some c ∧ c.target = dropped
  trail : ∀ p, g.Trail p dropped → ∃ q, g.Trail q kept ∧ q.length ≤ p.length ∧
    reduce (g.relation root) q = reduce (g.relation root) p

theorem Arborescent.prunes_duplicate {id i j : Nat} (h : g.Arborescent) (hij : i ≠ j)
    (hc : (g.connections id)[i]? = some c) (hd : (g.connections id)[j]? = some d)
    (hrelation : g.relation c.target = g.relation d.target) (hfields : c.fields = d.fields) :
    g.Prunes id j c.target d.target where
  sound := by
    have hc' := List.mem_of_getElem? hc
    have hd' := List.mem_of_getElem? hd
    refine ⟨?_, h.wired.bounded id c hc', h.wired.bounded id d hd', h.root id d hd', hrelation⟩
    intro htarget
    -- The same connection would stand at two places.
    obtain ⟨-, rfl⟩ := h.sole id id c hc' d hd' htarget
    have hi := (List.getElem?_eq_some_iff.1 hc).1
    exact hij ((List.getElem?_inj hi (h.nodup id)).1 (hc.trans hd.symm))
  removed := ⟨d, hd, rfl⟩
  trail p hp := by
    obtain ⟨q, rfl, hq⟩ := h.of_trail (List.mem_of_getElem? hd) hp
    have hlabel : g.label d = g.label c := by rw [label, label, hfields, hrelation]
    rw [hlabel]
    exact ⟨_, hq.step (List.mem_of_getElem? hc), Nat.le_refl _, rfl⟩

theorem Arborescent.prunes_roundTrip {id : Nat} (h : g.Arborescent) (hc : c ∈ g.connections id)
    (hd : (g.connections c.target)[index]? = some d) (hrelation : g.relation d.target = g.relation id)
    (hfields : d.fields = c.fields.reversed) : g.Prunes c.target index id d.target where
  sound := by
    have hd' := List.mem_of_getElem? hd
    refine ⟨?_, lt_size_of_mem hc, h.wired.bounded _ d hd', h.root _ d hd', hrelation.symm⟩
    intro htarget
    -- Two steps lead to where they came from.
    obtain ⟨p, hp⟩ := exists_trail (h.reached id c hc)
    have hlong : g.Trail (g.label d :: g.label c :: p) id := htarget ▸ (hp.step hc).step hd'
    have hlength := congrArg List.length (h.trail_unique hp hlong)
    simp only [List.length_cons] at hlength
    omega
  removed := ⟨d, hd, rfl⟩
  trail p hp := by
    obtain ⟨q, rfl, hq⟩ := h.of_trail (List.mem_of_getElem? hd) hp
    obtain ⟨r, rfl, hr⟩ := h.of_trail hc hq
    refine ⟨r, hr, by simp only [List.length_cons]; omega, ?_⟩
    refine (reduce_eq_of_cancels (.here hfields ?_)).symm
    exact hrelation.trans hr.endsAt.symm

/-- Every contraction of a tree is of this kind. -/
theorem Arborescent.exists_prunes {id : Nat} {x : Contraction} (h : g.Arborescent)
    (hx : g.contractionAt? id = some x) : ∃ owner index kept dropped,
      g.Prunes owner index kept dropped ∧
        x.apply g = (g.disconnect owner index).fold kept dropped := by
  have happly : ∀ {y : Contraction} {owner index kept dropped : Nat},
      y.removed = (owner, index) → y.folded? = some (kept, dropped) →
        y.apply g = (g.disconnect owner index).fold kept dropped := by
    intro y owner index kept dropped hremoved hfolded
    rw [Contraction.apply, hfolded, Contraction.trim, hremoved]
  rcases Option.or_eq_some_iff.1 hx with hdup | ⟨-, hround⟩
  · obtain ⟨i, j, first, second, hij, hi, hj, hrelation, hfields, rfl⟩ := duplicate?_eq_some hdup
    have hprunes := h.prunes_duplicate (Nat.ne_of_lt hij) hi hj hrelation hfields
    refine ⟨id, j, first.target, second.target, hprunes, ?_⟩
    rw [if_neg hprunes.sound.root]
    exact happly rfl (if_neg hprunes.sound.ne)
  · obtain ⟨forth, hforth, index, back, hback, hrelation, hfields, rfl⟩ := roundTrip?_eq_some hround
    have hprunes := h.prunes_roundTrip hforth hback hrelation hfields
    refine ⟨forth.target, index, id, back.target, hprunes, happly rfl ?_⟩
    rw [Contraction.folded?, if_neg (Ne.symm hprunes.sound.ne), if_neg hprunes.sound.root]

/-! ## What is left of a tree -/

section Prune

variable (h : g.Arborescent) (hp : g.Prunes owner index kept dropped)

include h hp

/-- The removed connection is the only one to `dropped`. -/
theorem Arborescent.mem_connections_disconnect :
    c ∈ (g.disconnect owner index).connections a ↔ c ∈ g.connections a ∧ c.target ≠ dropped := by
  obtain ⟨e, he, htarget⟩ := hp.removed
  constructor
  · intro hc
    refine ⟨of_mem_connections_disconnect hc, ?_⟩
    intro hcd
    obtain ⟨rfl, rfl⟩ := h.sole a owner c (of_mem_connections_disconnect hc) e
      (List.mem_of_getElem? he) (hcd.trans htarget.symm)
    rw [connections_disconnect, if_pos rfl] at hc
    obtain ⟨i, hne, hi⟩ := List.mem_eraseIdx_iff_getElem?.1 hc
    have hlt := (List.getElem?_eq_some_iff.1 hi).1
    exact hne ((List.getElem?_inj hlt (h.nodup a)).1 (hi.trans he.symm))
  · intro hc
    obtain ⟨hc, hcd⟩ := hc
    obtain ⟨i, hi⟩ := List.getElem?_of_mem hc
    refine JoinGraph.mem_connections_disconnect hi ?_
    by_contra hsame
    rw [not_or, not_not, not_not] at hsame
    obtain ⟨rfl, rfl⟩ := hsame
    exact hcd (Option.some.inj (hi.symm.trans he) ▸ htarget)

theorem Arborescent.absorbs_prune : Absorbs (fused dropped kept) (g.disconnect owner index)
    ((g.disconnect owner index).fold kept dropped) := by
  obtain ⟨hne, hlt, hlt', hroot, hrelation⟩ := hp.sound
  refine absorbs_fold h.wired.disconnect hne ?_ ?_ hroot ?_
  · rwa [disconnect, size_setConnections]
  · rwa [disconnect, size_setConnections]
  · rwa [disconnect, relation_setConnections, relation_setConnections]

/-- The node that stands for another one is no further from the root. -/
theorem Arborescent.length_fused (hn : g.Trail p n) (hm : g.Trail q (fused dropped kept n)) :
    q.length ≤ p.length := by
  unfold fused at hm
  split at hm
  · next heq =>
    obtain ⟨r, hr, hle, -⟩ := hp.trail p (heq ▸ hn)
    rwa [h.trail_unique hm hr]
  · rw [h.trail_unique hm hn]

/-- The other connections keep their direction. -/
theorem Arborescent.mem_connections_prune (hc : c ∈ g.connections a) (hcd : c.target ≠ dropped) :
    c ∈ ((g.disconnect owner index).fold kept dropped).connections (fused dropped kept a) := by
  have habs := h.absorbs_prune hp
  have htarget : fused dropped kept c.target = c.target := fused_of_ne hcd
  obtain ⟨p, ha⟩ := exists_trail (h.reached a c hc)
  have ht := ha.step hc
  have hfrom : ∀ {q}, g.Trail q (fused dropped kept a) → q.length ≤ p.length :=
    h.length_fused hp ha
  rcases habs.joined a c ((h.mem_connections_disconnect hp).2 ⟨hc, hcd⟩) with heq | hj | hj
  · have hle := hfrom (heq ▸ htarget.symm ▸ ht)
    simp only [List.length_cons] at hle
    omega
  · rwa [htarget] at hj
  · -- The other direction would lead from `c.target` or below to `a` or above.
    exfalso
    rw [htarget] at hj
    obtain ⟨-, b, e, he, hb, hea, -⟩ := habs.of_mem _ _ hj
    obtain ⟨he, hed⟩ := (h.mem_connections_disconnect hp).1 he
    obtain ⟨r, hr⟩ := exists_trail (h.reached b e he)
    have hbelow := h.length_fused hp hr (hb.symm ▸ ht)
    have habove := hfrom ((hea.symm.trans (fused_of_ne hed)) ▸ hr.step he)
    simp only [List.length_cons] at hbelow habove
    omega

/-- Trails lead to the nodes that stand for theirs, reduced to the same path. -/
theorem Arborescent.exists_trail_prune (hn : g.Trail p n) :
    ∃ q, ((g.disconnect owner index).fold kept dropped).Trail q (fused dropped kept n) ∧
      reduce (g.relation JoinGraph.root) q = reduce (g.relation JoinGraph.root) p := by
  have habs := h.absorbs_prune hp
  -- By induction on the length; `kept` is no further away than `dropped`.
  induction hk : p.length using Nat.strong_induction_on generalizing p n with
  | _ k ih =>
    have hmain : ∀ {q m}, g.Trail q m → q.length ≤ k → m ≠ dropped →
        ∃ r, ((g.disconnect owner index).fold kept dropped).Trail r m ∧
          reduce (g.relation JoinGraph.root) r = reduce (g.relation JoinGraph.root) q := by
      intro q m hq hle hmd
      cases hq with
      | root => exact ⟨[], .root, rfl⟩
      | @step q a c init mem =>
        rw [List.length_cons] at hle
        obtain ⟨r, hr, hreduce⟩ := ih q.length (by omega) init rfl
        have hmem := h.mem_connections_prune hp mem hmd
        have hlabel : ((g.disconnect owner index).fold kept dropped).label c = g.label c := by
          rw [label, label, habs.relation, disconnect, relation_setConnections]
        refine ⟨_, hr.step hmem, ?_⟩
        rw [hlabel, reduce, reduce, hreduce]
    by_cases hnd : n = dropped
    · obtain ⟨q, hq, hle, hreduce⟩ := hp.trail p (hnd ▸ hn)
      obtain ⟨r, hr, hreduce'⟩ := hmain hq (by omega) hp.sound.ne
      rw [hnd, fused_dropped]
      exact ⟨r, hr, hreduce'.trans hreduce⟩
    · rw [fused_of_ne hnd]
      exact hmain hn (by omega) hnd

/-- A pruned tree is a tree. -/
theorem Arborescent.prune : ((g.disconnect owner index).fold kept dropped).Arborescent := by
  have habs := h.absorbs_prune hp
  have before : ∀ a, ∀ c ∈ ((g.disconnect owner index).fold kept dropped).connections a,
      ∃ b, ∃ d ∈ g.connections b, fused dropped kept b = a ∧ d = c := by
    intro a c hc
    obtain ⟨-, b, d, hd, hb, htarget, hfields⟩ := habs.of_mem a c hc
    obtain ⟨hd, hdd⟩ := (h.mem_connections_disconnect hp).1 hd
    rw [fused_of_ne hdd] at htarget
    refine ⟨b, d, hd, hb, ?_⟩
    cases c
    cases d
    simp_all
  refine ⟨habs.wired h.wired.disconnect, ?_, ?_, ?_, ?_⟩
  · intro a
    apply nodup_fold
    intro b
    rw [connections_disconnect]
    split
    · exact (h.nodup b).eraseIdx index
    · exact h.nodup b
  · intro a b c hc d hd htarget
    obtain ⟨a', c', hc', rfl, rfl⟩ := before a c hc
    obtain ⟨b', d', hd', rfl, rfl⟩ := before b d hd
    obtain ⟨rfl, rfl⟩ := h.sole a' b' _ hc' _ hd' htarget
    exact ⟨rfl, rfl⟩
  · intro a c hc
    obtain ⟨a', c', hc', -, rfl⟩ := before a c hc
    exact h.root a' _ hc'
  · intro a c hc
    obtain ⟨a', c', hc', rfl, -⟩ := before a c hc
    obtain ⟨p, ha⟩ := exists_trail (h.reached a' c' hc')
    obtain ⟨q, hq, -⟩ := h.exists_trail_prune hp ha
    exact hq.reaches

/-- A trail of the pruned tree leads to a node that is left, whose trail there was before reduces
to the same path. -/
theorem Arborescent.of_trail_prune
    (hn : ((g.disconnect owner index).fold kept dropped).Trail q n) :
    n ≠ dropped ∧ ∃ p, g.Trail p n ∧
      reduce (g.relation JoinGraph.root) q = reduce (g.relation JoinGraph.root) p := by
  have habs := h.absorbs_prune hp
  have hleft : n ≠ dropped ∧ g.Reaches n := by
    cases hn with
    | root => exact ⟨Ne.symm hp.sound.root, reaches_root⟩
    | step _ mem =>
      obtain ⟨-, b, d, hd, -, htarget, -⟩ := habs.of_mem _ _ mem
      obtain ⟨hd, hdd⟩ := (h.mem_connections_disconnect hp).1 hd
      rw [fused_of_ne hdd] at htarget
      rw [← htarget]
      exact ⟨hdd, (h.reached b d hd).step hd⟩
  obtain ⟨p, hpn⟩ := exists_trail hleft.2
  obtain ⟨r, hr, hreduce⟩ := h.exists_trail_prune hp hpn
  rw [fused_of_ne hleft.1] at hr
  rw [(h.prune hp).trail_unique hn hr]
  exact ⟨hleft.1, p, hpn, hreduce⟩

end Prune

/-! ## What pruning preserves -/

/-- Some node has a label path that reduces to `r`. -/
def HasPath (g : JoinGraph) (r : List Label) : Prop :=
  ∃ p n, g.Trail p n ∧ reduce (g.relation root) p = r

/-- Some node whose label path reduces to `r` uses the field `x`. -/
def UsesAt (g : JoinGraph) (r : List Label) (x : String) : Prop :=
  ∃ p n, g.Trail p n ∧ reduce (g.relation root) p = r ∧ x ∈ g.used n

/-- The two trees have the same reduced label paths, with the same fields used at each. -/
structure SamePaths (g g' : JoinGraph) : Prop where
  root : g'.relation root = g.relation root
  paths : ∀ r, g'.HasPath r ↔ g.HasPath r
  used : ∀ r x, g'.UsesAt r x ↔ g.UsesAt r x

theorem SamePaths.refl (g : JoinGraph) : g.SamePaths g := ⟨rfl, fun _ => Iff.rfl, fun _ _ => Iff.rfl⟩

theorem SamePaths.trans {g₁ g₂ g₃ : JoinGraph} (h : g₁.SamePaths g₂) (h' : g₂.SamePaths g₃) :
    g₁.SamePaths g₃ :=
  ⟨h'.root.trans h.root, fun r => (h'.paths r).trans (h.paths r),
    fun r x => (h'.used r x).trans (h.used r x)⟩

theorem Arborescent.samePaths_prune (h : g.Arborescent) (hp : g.Prunes owner index kept dropped) :
    g.SamePaths ((g.disconnect owner index).fold kept dropped) := by
  have habs := h.absorbs_prune hp
  have hroot : ((g.disconnect owner index).fold kept dropped).relation JoinGraph.root =
      g.relation JoinGraph.root := by
    rw [habs.relation, disconnect, relation_setConnections]
  refine ⟨hroot, fun r => ⟨?_, ?_⟩, fun r x => ⟨?_, ?_⟩⟩
  · intro hr
    obtain ⟨q, n, hq, hreduce⟩ := hr
    obtain ⟨-, p, hpn, hsame⟩ := h.of_trail_prune hp hq
    rw [hroot, hsame] at hreduce
    exact ⟨p, n, hpn, hreduce⟩
  · intro hr
    obtain ⟨p, n, hpn, hreduce⟩ := hr
    obtain ⟨q, hq, hsame⟩ := h.exists_trail_prune hp hpn
    exact ⟨q, _, hq, by rw [hroot, hsame, hreduce]⟩
  · intro hr
    obtain ⟨q, n, hq, hreduce, hx⟩ := hr
    obtain ⟨hnd, p, hpn, hsame⟩ := h.of_trail_prune hp hq
    rw [hroot, hsame] at hreduce
    obtain ⟨m, hm, hx⟩ := habs.of_used n x hx
    rw [disconnect, used_setConnections] at hx
    by_cases hmd : m = dropped
    · -- The field comes from the node that was folded into `n`.
      rw [hmd, fused_dropped] at hm
      obtain ⟨e, he, hed⟩ := hp.removed
      have he := List.mem_of_getElem? he
      obtain ⟨p', hp'⟩ := exists_trail ((h.reached owner e he).step he)
      rw [hed] at hp'
      obtain ⟨q', hq', -, hsame'⟩ := hp.trail p' hp'
      obtain rfl := h.trail_unique (hm ▸ hq') hpn
      exact ⟨p', dropped, hp', hsame'.symm.trans hreduce, hmd ▸ hx⟩
    · rw [fused_of_ne hmd] at hm
      exact ⟨p, n, hpn, hreduce, hm ▸ hx⟩
  · intro hr
    obtain ⟨p, n, hpn, hreduce, hx⟩ := hr
    obtain ⟨q, hq, hsame⟩ := h.exists_trail_prune hp hpn
    refine ⟨q, _, hq, by rw [hroot, hsame, hreduce], habs.used n x ?_⟩
    rwa [disconnect, used_setConnections]

/-- An optimized tree is a tree with the same reduced label paths. -/
theorem Arborescent.optimize (h : g.Arborescent) :
    g.optimize.graph.Arborescent ∧ g.SamePaths g.optimize.graph := by
  refine run_optimize.induction (P := fun g' => g'.Arborescent ∧ g.SamePaths g') ⟨h, .refl g⟩ ?_
  intro g' id x hg' hx
  obtain ⟨htree, hsame⟩ := hg'
  obtain ⟨owner, index, kept, dropped, hp, happly⟩ := htree.exists_prunes hx
  rw [happly]
  exact ⟨htree.prune hp, hsame.trans (htree.samePaths_prune hp)⟩

/-! ## Trees with nothing left to contract -/

/-- The last step of a trail. -/
theorem Trail.of_cons (h : g.Trail (l :: p) n) :
    ∃ a, ∃ c ∈ g.connections a, g.Trail p a ∧ g.label c = l ∧ c.target = n := by
  cases h with
  | @step _ a c init mem => exact ⟨a, c, mem, init, rfl, rfl⟩

/-- Connections of a reached node that have the same label lead to the same node. -/
theorem Settled.target_eq (h : g.Settled) (ha : g.Reaches a) (hc : c ∈ g.connections a)
    (hd : d ∈ g.connections a) (hlabel : g.label c = g.label d) : c.target = d.target := by
  obtain ⟨hfields, hrelation⟩ := Label.mk.inj hlabel
  have hnone := (Option.or_eq_none_iff.1 (h a ha)).1
  obtain ⟨i, hi⟩ := List.getElem?_of_mem hc
  obtain ⟨j, hj⟩ := List.getElem?_of_mem hd
  rcases Nat.lt_trichotomy i j with hij | rfl | hij
  · exact absurd hfields (duplicate?_eq_none hnone hij hi hj hrelation)
  · rw [Option.some.inj (hi.symm.trans hj)]
  · exact absurd hfields.symm (duplicate?_eq_none hnone hij hj hi hrelation.symm)

/-- Nodes of one label path are the same. -/
theorem Settled.trail_inj (h : g.Settled) (hm : g.Trail p m) (hn : g.Trail p n) : m = n := by
  induction hm generalizing n with
  | root =>
    cases hn with
    | root => rfl
  | @step p a c init mem ih =>
    obtain ⟨b, d, hd, hb, hlabel, rfl⟩ := hn.of_cons
    obtain rfl := ih hb
    exact h.target_eq hb.reaches mem hd hlabel.symm

/-- Label paths do not go back and forth. -/
theorem Settled.irreducible (h : g.Settled) (hn : g.Trail p n) :
    Irreducible (g.relation root) p := by
  induction p generalizing n with
  | nil => exact irreducible_nil
  | cons l p ih =>
    obtain ⟨b, d, hd, hb, rfl, -⟩ := hn.of_cons
    intro q hq
    cases hq with
    | later hq => exact ih hb _ hq
    | here fields relation =>
      obtain ⟨a, c, hc, ha, rfl, rfl⟩ := hb.of_cons
      have hnone := (Option.or_eq_none_iff.1 (h a ha.reaches)).2
      exact roundTrip?_eq_none hnone hc hd (relation.trans ha.endsAt) fields

end FetchPlan.JoinGraph
