import FetchPlan.Proofs.JoinGraph.Views

/-!
# Folding one node into another

The three parts of a fold, each described by what it does to the connections of every node:
which of them stay, where those come from that are there afterwards, and which nodes are joined by
then. Connections only ever stay out where the two nodes are joined already, be it in the other
direction.
-/

namespace FetchPlan.JoinGraph

variable {g : JoinGraph} {a b id dropped kept : Nat} {c d : Connection}
  {back done rest cs : List Connection} {x : String}

/-- No connection is repeated by one that leads back on the same fields. -/
def OneWay (g : JoinGraph) : Prop :=
  ∀ a, ∀ c ∈ g.connections a, ⟨a, c.fields.reversed⟩ ∉ g.connections c.target

/-- Without some of its connections a graph repeats no more of them. -/
theorem OneWay.of_subset {g' : JoinGraph} (h : g.OneWay)
    (hsub : ∀ a, ∀ c ∈ g'.connections a, c ∈ g.connections a) : g'.OneWay :=
  fun a c hc hback => h a c (hsub a c hc) (hsub c.target _ hback)

/-! ## Redirecting the connections of one node -/

/-- A redirected list has the connections to other nodes and, in the place of connections to
`dropped`, connections on the same fields to `kept`, which is not connected back on these. -/
theorem of_mem_redirect (h : d ∈ redirect id dropped kept back done rest) :
    d ∈ done ∨ (d ∈ rest ∧ d.target ≠ dropped) ∨
      (id ≠ kept ∧ d.target = kept ∧ ⟨dropped, d.fields⟩ ∈ rest ∧
        ⟨id, d.fields.reversed⟩ ∉ back) := by
  fun_induction redirect id dropped kept back done rest with
  | case1 done => exact Or.inl h
  | case2 done c rest hne ih =>
    rcases ih h with hd | ⟨hd, hdne⟩ | ⟨hid, htarget, hd, hback⟩
    · rcases List.mem_append.1 hd with hd | hd
      · exact Or.inl hd
      · obtain rfl := List.mem_singleton.1 hd
        exact Or.inr (Or.inl ⟨List.mem_cons_self, hne⟩)
    · exact Or.inr (Or.inl ⟨List.mem_cons_of_mem c hd, hdne⟩)
    · exact Or.inr (Or.inr ⟨hid, htarget, List.mem_cons_of_mem c hd, hback⟩)
  | case3 done c rest heq hskip ih =>
    rcases ih h with hd | ⟨hd, hdne⟩ | ⟨hid, htarget, hd, hback⟩
    · exact Or.inl hd
    · exact Or.inr (Or.inl ⟨List.mem_cons_of_mem c hd, hdne⟩)
    · exact Or.inr (Or.inr ⟨hid, htarget, List.mem_cons_of_mem c hd, hback⟩)
  | case4 done c rest heq hskip ih =>
    rw [not_not] at heq
    rw [not_or, not_or, any_connection_iff, any_connection_iff] at hskip
    rcases ih h with hd | ⟨hd, hdne⟩ | ⟨hid, htarget, hd, hback⟩
    · rcases List.mem_append.1 hd with hd | hd
      · exact Or.inl hd
      · obtain rfl := List.mem_singleton.1 hd
        obtain ⟨t, f⟩ := c
        obtain rfl : t = dropped := heq
        exact Or.inr (Or.inr ⟨hskip.1, rfl, List.mem_cons_self, hskip.2.2⟩)
    · exact Or.inr (Or.inl ⟨List.mem_cons_of_mem c hd, hdne⟩)
    · exact Or.inr (Or.inr ⟨hid, htarget, List.mem_cons_of_mem c hd, hback⟩)

/-- Connections to other nodes stay. -/
theorem mem_redirect (h : d ∈ done ∨ (d ∈ rest ∧ d.target ≠ dropped)) :
    d ∈ redirect id dropped kept back done rest := by
  fun_induction redirect id dropped kept back done rest with
  | case1 done =>
    rcases h with hd | ⟨hd, -⟩
    · exact hd
    · exact absurd hd List.not_mem_nil
  | case2 done c rest hne ih =>
    apply ih
    rcases h with hd | ⟨hd, hdne⟩
    · exact Or.inl (List.mem_append_left _ hd)
    · rcases List.mem_cons.1 hd with rfl | hd
      · exact Or.inl (List.mem_append_right _ List.mem_cons_self)
      · exact Or.inr ⟨hd, hdne⟩
  | case3 done c rest heq hskip ih =>
    apply ih
    rcases h with hd | ⟨hd, hdne⟩
    · exact Or.inl hd
    · rcases List.mem_cons.1 hd with rfl | hd
      · exact absurd hdne heq
      · exact Or.inr ⟨hd, hdne⟩
  | case4 done c rest heq hskip ih =>
    apply ih
    rcases h with hd | ⟨hd, hdne⟩
    · exact Or.inl (List.mem_append_left _ hd)
    · rcases List.mem_cons.1 hd with rfl | hd
      · exact absurd hdne heq
      · exact Or.inr ⟨hd, hdne⟩

/-- A connection to `dropped` leads to `kept` afterwards, unless it would be a loop or `kept` is
connected back on the same fields. -/
theorem redirected (hne : kept ≠ dropped) (hc : c ∈ rest) (htarget : c.target = dropped) :
    id = kept ∨ ⟨kept, c.fields⟩ ∈ redirect id dropped kept back done rest ∨
      ⟨id, c.fields.reversed⟩ ∈ back := by
  fun_induction redirect id dropped kept back done rest with
  | case1 done => exact absurd hc List.not_mem_nil
  | case2 done e rest hne' ih =>
    rcases List.mem_cons.1 hc with rfl | hc
    · exact absurd htarget hne'
    · exact ih hc
  | case3 done e rest heq hskip ih =>
    rcases List.mem_cons.1 hc with rfl | hc
    · rcases hskip with hid | hsame | hback
      · exact Or.inl hid
      · refine Or.inr (Or.inl (mem_redirect ?_))
        rcases List.mem_append.1 (any_connection_iff.1 hsame) with hd | hd
        · exact Or.inl hd
        · rcases List.mem_cons.1 hd with hd | hd
          · -- The connection itself leads to `dropped`.
            exact absurd (congrArg Connection.target hd) (by rw [htarget]; exact hne)
          · exact Or.inr ⟨hd, hne⟩
      · exact Or.inr (Or.inr (any_connection_iff.1 hback))
    · exact ih hc
  | case4 done e rest heq hskip ih =>
    rcases List.mem_cons.1 hc with rfl | hc
    · refine Or.inr (Or.inl (mem_redirect (Or.inl ?_)))
      exact List.mem_append_right _ List.mem_cons_self
    · exact ih hc

theorem length_redirect_le :
    (redirect id dropped kept back done rest).length ≤ done.length + rest.length := by
  fun_induction redirect id dropped kept back done rest with
  | case1 done => simp
  | case2 done c rest _ ih => simpa [Nat.add_assoc, Nat.add_comm 1] using ih
  | case3 done c rest heq hskip ih => simp only [List.length_cons]; omega
  | case4 done c rest heq hskip ih => simpa [Nat.add_assoc, Nat.add_comm 1] using ih

theorem nodup_redirect (h : (done ++ rest).Nodup) :
    (redirect id dropped kept back done rest).Nodup := by
  fun_induction redirect id dropped kept back done rest with
  | case1 done => simpa using h
  | case2 done c rest hne' ih => exact ih (by simpa using h)
  | case3 done c rest heq hskip ih => exact ih (h.sublist (by simp))
  | case4 done c rest heq hskip ih =>
    apply ih
    rw [not_or, not_or] at hskip
    have hnot : (⟨kept, c.fields⟩ : Connection) ∉ done ++ c :: rest := fun hd =>
      hskip.2.1 (any_connection_iff.2 hd)
    rw [List.append_assoc, List.singleton_append]
    have hsub : (done ++ rest).Nodup := h.sublist (by simp)
    refine (List.nodup_middle).2 (List.nodup_cons.2 ⟨fun hd => hnot ?_, hsub⟩)
    rcases List.mem_append.1 hd with hd | hd
    · exact List.mem_append_left _ hd
    · exact List.mem_append_right _ (List.mem_cons_of_mem c hd)

/-! ## Redirecting all connections -/

/-- The graph with the connections of one node redirected. -/
private def redirectAt (g : JoinGraph) (dropped kept id : Nat) : JoinGraph :=
  g.setConnections id (redirect id dropped kept (g.connections kept) [] (g.connections id))

private theorem connections_redirectAt : (g.redirectAt dropped kept id).connections a =
    if id = a ∧ a < g.size then
      redirect id dropped kept (g.connections kept) [] (g.connections a)
    else g.connections a := by
  rw [redirectAt, connections_setConnections]
  split
  · next h => rw [h.1]
  · rfl

private theorem mem_redirectAt (hc : c ∈ g.connections a) (htarget : c.target ≠ dropped) :
    c ∈ (g.redirectAt dropped kept id).connections a := by
  rw [connections_redirectAt]
  split
  · exact mem_redirect (Or.inr ⟨hc, htarget⟩)
  · exact hc

private theorem of_mem_redirectAt (hc : c ∈ (g.redirectAt dropped kept id).connections a) :
    (c ∈ g.connections a ∧ (id = a → c.target ≠ dropped)) ∨
      (a ≠ kept ∧ c.target = kept ∧ ⟨dropped, c.fields⟩ ∈ g.connections a ∧
        ⟨a, c.fields.reversed⟩ ∉ g.connections kept) := by
  rw [connections_redirectAt] at hc
  split at hc
  · next h =>
    obtain ⟨rfl, -⟩ := h
    rcases of_mem_redirect hc with hc | ⟨hc, htarget⟩ | hc
    · exact absurd hc List.not_mem_nil
    · exact Or.inl ⟨hc, fun _ => htarget⟩
    · exact Or.inr hc
  · next h =>
    exact Or.inl ⟨hc, fun hid => absurd ⟨hid, lt_size_of_mem hc⟩ h⟩

private theorem joined_redirectAt (hne : kept ≠ dropped) (hid : id ≠ dropped) (hk : id ≠ kept)
    (hc : c ∈ g.connections id) (htarget : c.target = dropped) :
    (g.redirectAt dropped kept id).Joined id kept c.fields := by
  have hred : id = kept ∨
      ⟨kept, c.fields⟩ ∈ redirect id dropped kept (g.connections kept) [] (g.connections id) ∨
      ⟨id, c.fields.reversed⟩ ∈ g.connections kept := redirected hne hc htarget
  rcases hred with h | h | h
  · exact absurd h hk
  · apply Or.inl
    rw [connections_redirectAt, if_pos ⟨rfl, lt_size_of_mem hc⟩]
    exact h
  · exact Or.inr (mem_redirectAt h hid)

private theorem oneWay_redirectAt (h : g.OneWay) : (g.redirectAt dropped kept id).OneWay := by
  intro a c hc hback
  rcases of_mem_redirectAt hc with ⟨hc, -⟩ | ⟨-, htarget, -, hnot⟩
  · rcases of_mem_redirectAt hback with ⟨hback, -⟩ | ⟨-, hkept, -, hnot⟩
    · exact h a c hc hback
    · -- The connection back was redirected to `a`, which is `kept`.
      rw [FieldPairs.reversed_reversed] at hnot
      exact hnot (hkept ▸ hc)
  · rcases of_mem_redirectAt hback with ⟨hback, -⟩ | ⟨hne, -, -, -⟩
    · exact hnot (htarget ▸ hback)
    · exact hne htarget

section Loop

variable {ids : List Nat}

private theorem mem_foldl_redirectAt (hc : c ∈ g.connections a) (htarget : c.target ≠ dropped) :
    c ∈ (ids.foldl (fun g id => g.redirectAt dropped kept id) g).connections a := by
  induction ids generalizing g with
  | nil => exact hc
  | cons id ids ih => exact ih (mem_redirectAt hc htarget)

private theorem of_mem_foldl_redirectAt (hne : kept ≠ dropped)
    (hc : c ∈ (ids.foldl (fun g id => g.redirectAt dropped kept id) g).connections a) :
    (c ∈ g.connections a ∧ (a ∈ ids → c.target ≠ dropped)) ∨
      (a ≠ kept ∧ c.target = kept ∧ ⟨dropped, c.fields⟩ ∈ g.connections a) := by
  induction ids generalizing g with
  | nil => exact Or.inl ⟨hc, fun ha => absurd ha List.not_mem_nil⟩
  | cons id ids ih =>
    rcases ih hc with ⟨hc, hin⟩ | ⟨hk, htarget, hc⟩
    · rcases of_mem_redirectAt hc with ⟨hc, hid⟩ | hc
      · refine Or.inl ⟨hc, ?_⟩
        intro ha
        rcases List.mem_cons.1 ha with rfl | ha
        · exact hid rfl
        · exact hin ha
      · exact Or.inr ⟨hc.1, hc.2.1, hc.2.2.1⟩
    · rcases of_mem_redirectAt hc with ⟨hc, -⟩ | ⟨-, hdropped, -⟩
      · exact Or.inr ⟨hk, htarget, hc⟩
      · exact absurd hdropped.symm hne

private theorem joined_foldl_redirectAt (hne : kept ≠ dropped) (ha : a ≠ dropped) (hk : a ≠ kept)
    (hin : a ∈ ids) (hc : c ∈ g.connections a) (htarget : c.target = dropped) :
    (ids.foldl (fun g id => g.redirectAt dropped kept id) g).Joined a kept c.fields := by
  induction ids generalizing g with
  | nil => exact absurd hin List.not_mem_nil
  | cons id ids ih =>
    by_cases hid : id = a
    · subst hid
      rcases joined_redirectAt hne ha hk hc htarget with h | h
      · exact Or.inl (mem_foldl_redirectAt (g := g.redirectAt dropped kept id) h hne)
      · exact Or.inr (mem_foldl_redirectAt (g := g.redirectAt dropped kept id) h ha)
    · have hc' : c ∈ (g.redirectAt dropped kept id).connections a := by
        rw [connections_redirectAt, if_neg fun h => hid h.1]
        exact hc
      exact ih ((List.mem_cons.1 hin).resolve_left (Ne.symm hid)) hc'

private theorem foldl_redirectAt_nodes :
    (ids.foldl (fun g id => g.redirectAt dropped kept id) g).size = g.size ∧
      ∀ n, (ids.foldl (fun g id => g.redirectAt dropped kept id) g).relation n = g.relation n ∧
        (ids.foldl (fun g id => g.redirectAt dropped kept id) g).used n = g.used n := by
  induction ids generalizing g with
  | nil => exact ⟨rfl, fun n => ⟨rfl, rfl⟩⟩
  | cons id ids ih =>
    obtain ⟨hsize, hnodes⟩ := ih (g := g.redirectAt dropped kept id)
    refine ⟨hsize.trans size_setConnections, fun n => ⟨?_, ?_⟩⟩
    · exact (hnodes n).1.trans relation_setConnections
    · exact (hnodes n).2.trans used_setConnections

private theorem nodup_foldl_redirectAt
    (h : ∀ a, (g.connections a).Nodup) :
    ((ids.foldl (fun g id => g.redirectAt dropped kept id) g).connections a).Nodup := by
  induction ids generalizing g with
  | nil => exact h a
  | cons id ids ih =>
    apply ih
    intro b
    rw [connections_redirectAt]
    split
    · exact nodup_redirect (by simpa using h b)
    · exact h b

private theorem oneWay_foldl_redirectAt (h : g.OneWay) :
    (ids.foldl (fun g id => g.redirectAt dropped kept id) g).OneWay := by
  induction ids generalizing g with
  | nil => exact h
  | cons id ids ih => exact ih (oneWay_redirectAt h)

private theorem length_foldl_redirectAt_le :
    ((ids.foldl (fun g id => g.redirectAt dropped kept id) g).connections a).length ≤
      (g.connections a).length := by
  induction ids generalizing g with
  | nil => exact Nat.le_refl _
  | cons id ids ih =>
    refine Nat.le_trans (ih (g := g.redirectAt dropped kept id)) ?_
    rw [connections_redirectAt]
    split
    · have hle : (redirect id dropped kept (g.connections kept) [] (g.connections a)).length ≤
          ([] : List Connection).length + (g.connections a).length := length_redirect_le
      rwa [List.length_nil, Nat.zero_add] at hle
    · exact Nat.le_refl _

end Loop

/-- Connections to other nodes stay. -/
theorem mem_connections_redirectAll (hc : c ∈ g.connections a) (htarget : c.target ≠ dropped) :
    c ∈ (g.redirectAll dropped kept).connections a :=
  mem_foldl_redirectAt hc htarget

theorem of_mem_connections_redirectAll (hne : kept ≠ dropped)
    (hc : c ∈ (g.redirectAll dropped kept).connections a) :
    (c ∈ g.connections a ∧ c.target ≠ dropped) ∨
      (a ≠ kept ∧ c.target = kept ∧ ⟨dropped, c.fields⟩ ∈ g.connections a) := by
  rcases of_mem_foldl_redirectAt hne hc with ⟨hc, hin⟩ | hc
  · exact Or.inl ⟨hc, hin (mem_ids.2 (lt_size_of_mem hc))⟩
  · exact Or.inr hc

/-- What was connected to `dropped` is joined to `kept`. -/
theorem joined_redirectAll (hne : kept ≠ dropped) (ha : a ≠ dropped) (hk : a ≠ kept)
    (hc : c ∈ g.connections a) (htarget : c.target = dropped) :
    (g.redirectAll dropped kept).Joined a kept c.fields :=
  joined_foldl_redirectAt hne ha hk (mem_ids.2 (lt_size_of_mem hc)) hc htarget

@[simp] theorem size_redirectAll : (g.redirectAll dropped kept).size = g.size :=
  foldl_redirectAt_nodes.1

@[simp] theorem relation_redirectAll :
    (g.redirectAll dropped kept).relation id = g.relation id := (foldl_redirectAt_nodes.2 id).1

@[simp] theorem used_redirectAll : (g.redirectAll dropped kept).used id = g.used id :=
  (foldl_redirectAt_nodes.2 id).2

theorem nodup_redirectAll (h : ∀ a, (g.connections a).Nodup) :
    ((g.redirectAll dropped kept).connections a).Nodup := nodup_foldl_redirectAt h

theorem OneWay.redirectAll (h : g.OneWay) : (g.redirectAll dropped kept).OneWay :=
  oneWay_foldl_redirectAt h

theorem length_connections_redirectAll_le :
    ((g.redirectAll dropped kept).connections a).length ≤ (g.connections a).length :=
  length_foldl_redirectAt_le

/-! ## Connecting to several nodes -/

section ConnectAll

variable {owner : Nat}

theorem mem_connections_connect (hd : d ∈ g.connections a) :
    d ∈ (g.connect owner c).connections a := by
  rcases g.connect_cases owner c with ⟨-, h⟩ | ⟨-, h⟩
  · rw [h]
    exact hd
  · rw [h, connections_link]
    split
    · exact List.mem_append_left _ hd
    · exact hd

theorem of_mem_connections_connect (hd : d ∈ (g.connect owner c).connections a) :
    d ∈ g.connections a ∨ (a = owner ∧ d = c) := by
  rcases g.connect_cases owner c with ⟨-, h⟩ | ⟨-, h⟩
  · rw [h] at hd
    exact Or.inl hd
  · exact of_mem_connections_link (h ▸ hd)

theorem Joined.mono {g' : JoinGraph} {fields : FieldPairs} (h : g.Joined a b fields)
    (hsub : ∀ n, ∀ c ∈ g.connections n, c ∈ g'.connections n) : g'.Joined a b fields :=
  h.imp (hsub a _) (hsub b _)

theorem joined_connect (h : owner < g.size) :
    (g.connect owner c).Joined owner c.target c.fields := by
  rcases g.connect_cases owner c with ⟨hj, hg⟩ | ⟨-, hg⟩
  · rw [hg]
    exact hj
  · rw [hg]
    apply Or.inl
    rw [connections_link, if_pos ⟨rfl, h⟩]
    exact List.mem_append_right _ List.mem_cons_self

theorem nodup_connect (h : ∀ a, (g.connections a).Nodup) :
    ((g.connect owner c).connections a).Nodup := by
  rcases g.connect_cases owner c with ⟨-, hg⟩ | ⟨hj, hg⟩
  · rw [hg]
    exact h a
  · rw [hg, connections_link]
    split
    · next ha =>
      refine List.nodup_append.2 ⟨h a, by simp, ?_⟩
      intro x hx y hy hxy
      obtain rfl := List.mem_singleton.1 hy
      obtain rfl := ha.1
      exact hj (Or.inl (hxy ▸ hx))
    · exact h a

theorem OneWay.connect (h : g.OneWay) (hne : c.target ≠ owner) : (g.connect owner c).OneWay := by
  rcases g.connect_cases owner c with ⟨-, hg⟩ | ⟨hj, hg⟩
  · rwa [hg]
  · rw [hg]
    intro a d hd hback
    rcases of_mem_connections_link hd with hold | ⟨rfl, rfl⟩
    · rcases of_mem_connections_link hback with hback | ⟨htarget, hdc⟩
      · exact h a d hold hback
      · -- The new connection leads back over an old one.
        refine hj (Or.inr ?_)
        rw [← hdc, ← htarget, FieldPairs.reversed_reversed]
        exact hold
    · rcases of_mem_connections_link hback with hback | ⟨htarget, -⟩
      · exact hj (Or.inr hback)
      · exact hne htarget

theorem mem_connections_connectAll (hd : d ∈ g.connections a) :
    d ∈ (g.connectAll owner cs).connections a := by
  induction cs generalizing g with
  | nil => exact hd
  | cons c cs ih => exact ih (mem_connections_connect hd)

theorem of_mem_connections_connectAll (hd : d ∈ (g.connectAll owner cs).connections a) :
    d ∈ g.connections a ∨ (a = owner ∧ d ∈ cs) := by
  induction cs generalizing g with
  | nil => exact Or.inl hd
  | cons c cs ih =>
    rcases ih hd with hd | ⟨ha, hd⟩
    · rcases of_mem_connections_connect hd with hd | ⟨ha, rfl⟩
      · exact Or.inl hd
      · exact Or.inr ⟨ha, List.mem_cons_self⟩
    · exact Or.inr ⟨ha, List.mem_cons_of_mem c hd⟩

theorem joined_connectAll (h : owner < g.size) (hc : c ∈ cs) :
    (g.connectAll owner cs).Joined owner c.target c.fields := by
  induction cs generalizing g with
  | nil => exact absurd hc List.not_mem_nil
  | cons d cs ih =>
    rcases List.mem_cons.1 hc with rfl | hc
    · refine (joined_connect (c := c) h).mono ?_
      intro n e he
      exact mem_connections_connectAll (g := g.connect owner c) he
    · exact ih (by simpa using h) hc

theorem nodup_connectAll (h : ∀ a, (g.connections a).Nodup) :
    ((g.connectAll owner cs).connections a).Nodup := by
  induction cs generalizing g with
  | nil => exact h a
  | cons c cs ih => exact ih fun b => nodup_connect h

theorem OneWay.connectAll (h : g.OneWay) (hne : ∀ c ∈ cs, c.target ≠ owner) :
    (g.connectAll owner cs).OneWay := by
  induction cs generalizing g with
  | nil => exact h
  | cons c cs ih =>
    obtain ⟨hc, hcs⟩ := List.forall_mem_cons.1 hne
    exact ih (h.connect hc) hcs

@[simp] theorem size_connectAll : (g.connectAll owner cs).size = g.size := by
  induction cs generalizing g with
  | nil => rfl
  | cons c cs ih => exact ih.trans size_connect

@[simp] theorem relation_connectAll :
    (g.connectAll owner cs).relation id = g.relation id := by
  induction cs generalizing g with
  | nil => rfl
  | cons c cs ih => exact ih.trans relation_connect

theorem mem_used_connect (hx : x ∈ g.used id) : x ∈ (g.connect owner c).used id := by
  rcases g.connect_cases owner c with ⟨-, h⟩ | ⟨-, h⟩
  · rw [h]
    exact hx
  · rw [h]
    exact mem_used_link.2 (Or.inl hx)

/-- The fields of a new connection are used already where they are registered. -/
theorem of_mem_used_connect (hs : ∀ x ∈ c.fields.sources, x ∈ g.used owner)
    (ht : ∀ x ∈ c.fields.targets, x ∈ g.used c.target)
    (hx : x ∈ (g.connect owner c).used id) : x ∈ g.used id := by
  rcases g.connect_cases owner c with ⟨-, h⟩ | ⟨-, h⟩
  · rwa [h] at hx
  · rw [h] at hx
    rcases mem_used_link.1 hx with hx | ⟨rfl, -, hx⟩ | ⟨rfl, -, hx⟩
    · exact hx
    · exact hs x hx
    · exact ht x hx

theorem mem_used_connectAll (hx : x ∈ g.used id) : x ∈ (g.connectAll owner cs).used id := by
  induction cs generalizing g with
  | nil => exact hx
  | cons c cs ih => exact ih (mem_used_connect hx)

theorem of_mem_used_connectAll (hs : ∀ c ∈ cs, ∀ x ∈ c.fields.sources, x ∈ g.used owner)
    (ht : ∀ c ∈ cs, ∀ x ∈ c.fields.targets, x ∈ g.used c.target)
    (hx : x ∈ (g.connectAll owner cs).used id) : x ∈ g.used id := by
  induction cs generalizing g with
  | nil => exact hx
  | cons c cs ih =>
    refine of_mem_used_connect (hs c List.mem_cons_self) (ht c List.mem_cons_self) (ih ?_ ?_ hx)
    · intro d hd y hy
      exact mem_used_connect (hs d (List.mem_cons_of_mem c hd) y hy)
    · intro d hd y hy
      exact mem_used_connect (ht d (List.mem_cons_of_mem c hd) y hy)

end ConnectAll

end FetchPlan.JoinGraph
