import FetchPlan.Proofs.JoinGraph.Listed
import FetchPlan.Proofs.Planned

/-!
# References find their targets

A parameter is bound to a step that is made before its lambda is, and walked before it: the walk of
a query finds a note for every reference that it comes to (`Chain.finds_walk`). So the graph of a
query is built from its listing without getting stuck, and never refused because a row source is
missing (`JoinGraph.run_ofListing`).
-/

namespace FetchPlan

open Building

variable {α β : Type} {s : Schema} {d e : Draft} {a : α} {x : Building α} {f : α → Building β}

/-! ## Computations that find their targets -/

/-- Started in the state `d`, the computation does not end at a reference without a target. -/
def Finds (x : Building α) (d : Draft) : Prop := ¬ Fails x d Unresolved.neverBuilt.error

/-- The computation finds every target, whichever steps were walked before. -/
def AlwaysFinds (x : Building α) : Prop := ∀ d, Finds x d

theorem Yields.finds (h : Yields x d a e) : Finds x d := h.not_fails

theorem finds_bind :
    Finds (x >>= f) d ↔ Finds x d ∧ ∀ a e, Yields x d a e → Finds (f a) e := by
  simp only [Finds, fails_bind, not_or, not_exists, not_and]

theorem finds_pure : Finds (pure a) d := (yields_pure.2 ⟨rfl, rfl⟩).finds

theorem finds_discard : Finds (discard x) d ↔ Finds x d := by
  have h : Finds (discard x) d ↔ Finds (x >>= fun _ => pure ()) d := Iff.rfl
  rw [h, finds_bind]
  exact and_iff_left fun _ _ _ => finds_pure

namespace AlwaysFinds

theorem bind (hx : AlwaysFinds x) (hf : ∀ a, AlwaysFinds (f a)) : AlwaysFinds (x >>= f) :=
  fun d => finds_bind.2 ⟨hx d, fun a e _ => hf a e⟩

theorem discard (hx : AlwaysFinds x) : AlwaysFinds (discard x) := fun d => finds_discard.2 (hx d)

theorem pure : AlwaysFinds (pure a : Building α) := fun _ => finds_pure

theorem fail {err : Error} (h : err ≠ Unresolved.neverBuilt.error) :
    AlwaysFinds (fail err : Building α) := by
  intro d hfails
  exact h (Except.error.inj (fails_lift.1 hfails))

theorem lift {r : Except Error α} (h : r ≠ .error Unresolved.neverBuilt.error) :
    AlwaysFinds (liftM r : Building α) := by
  intro d hfails
  exact h (fails_lift.1 hfails)

theorem graph : AlwaysFinds graph := fun _ => (yields_graph.2 ⟨rfl, rfl⟩).finds

theorem setGraph {g : JoinGraph} : AlwaysFinds (setGraph g) :=
  fun _ => Yields.finds (a := ()) (yields_setGraph.2 rfl)

theorem report {event : Event} : AlwaysFinds (report event) :=
  fun _ => Yields.finds (a := ()) (yields_report.2 rfl)

theorem note {id : Nat} {r : Resolved} : AlwaysFinds (note id r) :=
  fun _ => (yields_note.2 ⟨rfl, rfl⟩).finds

theorem addNode {relation : String} : AlwaysFinds (addNode relation) :=
  fun _ => (yields_addNode.2 ⟨rfl, rfl⟩).finds

theorem connect {owner : Nat} {c : Connection} : AlwaysFinds (connect owner c) :=
  fun _ => Yields.finds (a := ()) (yields_connect.2 rfl)

theorem extendAll {owner index a : Nat} {pairs : List (String × String)} :
    AlwaysFinds (extendAll owner index a pairs) :=
  fun _ => Yields.finds (a := ()) (yields_extendAll.2 rfl)

end AlwaysFinds

/-! ## The schema -/

theorem bind_ne_error {α β : Type} {x : Except Error α} {f : α → Except Error β} {err : Error}
    (hx : x ≠ .error err) (hf : ∀ a, f a ≠ .error err) : x >>= f ≠ .error err := by
  cases x with
  | error err' => exact fun h => hx (congrArg _ (Except.error.inj h))
  | ok a => exact hf a

theorem pure_ne_error {a : α} {err : Error} : (pure a : Except Error α) ≠ .error err := by
  simp [pure, Except.pure]

namespace Schema

variable {relation column : String} {fields : List String} {reason : Unresolved}

theorem relation_ne_unresolved : s.relation relation ≠ .error reason.error := by
  rw [Schema.relation]
  cases s.relation? relation with
  | none => simp [Unresolved.error]
  | some r => exact pure_ne_error

theorem primaryKey_ne_unresolved : s.primaryKey relation ≠ .error reason.error :=
  bind_ne_error relation_ne_unresolved fun _ => pure_ne_error

theorem isPrimaryKey_ne_unresolved : s.isPrimaryKey relation fields ≠ .error reason.error :=
  bind_ne_error relation_ne_unresolved fun _ => pure_ne_error

theorem sqlType_ne_unresolved : s.sqlType relation column ≠ .error reason.error := by
  refine bind_ne_error relation_ne_unresolved fun r => ?_
  cases r.column? column with
  | none => simp [Unresolved.error]
  | some c => exact pure_ne_error

end Schema

/-! ## Steps -/

namespace AlwaysFinds

variable {v w : Resolved}

theorem follow {column relation key : String} :
    AlwaysFinds (follow s v column relation key) := by
  cases v with
  | rows origin hop =>
    refine graph.bind fun g => ?_
    refine (lift Schema.sqlType_ne_unresolved).discard.bind fun _ => ?_
    refine (lift Schema.sqlType_ne_unresolved).discard.bind fun _ => ?_
    exact addNode.bind fun target => connect.bind fun _ => pure
  | _ => exact fail (by simp [Unresolved.error])

theorem read {name : String} : AlwaysFinds (read s v name) := by
  cases v with
  | rows id hop =>
    refine graph.bind fun g => ?_
    refine (lift Schema.sqlType_ne_unresolved).discard.bind fun _ => ?_
    exact setGraph.bind fun _ => pure
  | record outputs =>
    rw [Building.read]
    cases outputs.lookup name with
    | none => exact fail (by simp [Unresolved.error])
    | some r => exact pure
  | _ => exact fail (by simp [Unresolved.error])

theorem side : AlwaysFinds (side s v) := by
  cases v with
  | rows id hop =>
    cases hop with
    | none => exact graph.bind fun g => (lift Schema.primaryKey_ne_unresolved).bind fun _ => pure
    | some hop => exact pure
  | field id name hop =>
    cases hop with
    | none => exact pure
    | some hop =>
      rw [Building.side]
      split
      · refine graph.bind fun g => (lift Schema.isPrimaryKey_ne_unresolved).bind fun isKey => ?_
        cases isKey with
        | _ => exact pure
      · exact pure
  | _ => exact fail (by simp [Unsupported.error, Unresolved.error])

theorem equate : AlwaysFinds (equate s v w) := by
  refine side.bind fun (a, fields) => side.bind fun (b, otherFields) => graph.bind fun g => ?_
  split
  · exact fail (by simp [Unsupported.error, Unresolved.error])
  · split
    · exact report.bind fun _ => setGraph
    · split
      · exact extendAll
      · split
        · exact connect
        · exact connect

end AlwaysFinds

/-! ## Walks -/

variable {n target : Nat} {p q : Path}

/-- A side of a comparison finds its targets if it does when it is walked, fixed or not. -/
theorem finds_walk_side {g : Flow} {rest : Building Resolved} (h : Finds (g.walk s) d)
    (hrest : ∀ r e, Yields (g.walk s) d r e → Finds rest e) :
    Finds (if g.isFixed then rest else do discard (g.walk s); rest) d := by
  split
  · next hfixed => exact hrest _ _ (g.yields_walk_of_isFixed s d hfixed)
  · refine finds_bind.2 ⟨finds_discard.2 h, fun _ e hy => ?_⟩
    obtain ⟨r, hwalk⟩ := yields_discard.1 hy
    exact hrest r e hwalk

theorem Flow.finds_walk_binary {op : BinaryOp} {lhs rhs : Flow} (hl : Finds (lhs.walk s) d)
    (hr : ∀ r e, Yields (lhs.walk s) d r e → Finds (rhs.walk s) e) :
    Finds ((Flow.binary n op lhs rhs).walk s) d := by
  simp only [walk]
  split
  · refine finds_bind.2 ⟨hl, fun l e hy => finds_bind.2 ⟨hr l e hy, fun r e' _ => ?_⟩⟩
    exact AlwaysFinds.equate.bind (fun _ => AlwaysFinds.pure) e'
  · exact finds_walk_side hl fun r e hy => finds_walk_side (hr r e hy) fun _ _ _ => finds_pure

theorem Flow.finds_walk_unary {op : UnaryOp} {operand : Flow} (h : Finds (operand.walk s) d) :
    Finds ((Flow.unary n op operand).walk s) d := by
  rw [walk]
  exact finds_bind.2 ⟨finds_discard.2 h, fun _ _ _ => finds_pure⟩

namespace Path

theorem finds_walk_table {relation : String} : Finds ((Path.table n relation).walk s) d := by
  rw [walk]
  split
  · exact AlwaysFinds.note d
  · refine ((AlwaysFinds.lift Schema.primaryKey_ne_unresolved).discard.bind fun _ => ?_) d
    exact AlwaysFinds.addNode.bind fun _ => AlwaysFinds.note

/-- A reference finds its target if it is noted. -/
theorem finds_walk_reference {r : Resolved} (h : d.sources.lookup target = some r) :
    Finds ((Path.reference n target).walk s) d :=
  (yields_walk_reference.2 ⟨r, h, rfl, rfl⟩).finds

theorem finds_walk_step {m : Member} (h : Finds (q.walk s) d) :
    Finds ((q.step n m).walk s) d := by
  have hnote : ∀ {x : Resolved → Building Resolved}, (∀ v, AlwaysFinds (x v)) →
      Finds (do note n (← x (← q.walk s))) d := by
    intro x hx
    exact finds_bind.2 ⟨h, fun v e _ => (hx v).bind (fun _ => AlwaysFinds.note) e⟩
  cases m with
  | association a => exact hnote fun _ => AlwaysFinds.follow
  | _ => exact hnote fun _ => AlwaysFinds.read

theorem finds_walk_filter {g : Flow} (h : Finds (q.walk s) d)
    (hg : ∀ r e, Yields (q.walk s) d r e → Finds (g.walk s) e) :
    Finds ((Path.filter q n g).walk s) d := by
  rw [walk]
  refine finds_bind.2 ⟨h, fun r e hy => finds_bind.2 ⟨finds_discard.2 (hg r e hy), ?_⟩⟩
  exact fun _ e' _ => AlwaysFinds.note e'

theorem finds_walk_select {o : Outputs} (h : Finds (q.walk s) d)
    (ho : ∀ r e, Yields (q.walk s) d r e → Finds (o.walk s) e) :
    Finds ((Path.select q n o).walk s) d := by
  rw [walk]
  refine finds_bind.2 ⟨finds_discard.2 h, fun _ e hy => ?_⟩
  obtain ⟨r, hwalk⟩ := yields_discard.1 hy
  exact finds_bind.2 ⟨ho r e hwalk, fun _ e' _ => AlwaysFinds.note e'⟩

end Path

theorem Outputs.finds_walk_record {fields : FlowFields} (h : Finds (fields.walk s) d) :
    Finds ((Outputs.record fields).walk s) d :=
  finds_bind.2 ⟨h, fun _ _ _ => finds_pure⟩

theorem FlowFields.finds_walk_cons {name : String} {g : Flow} {rest : FlowFields}
    (h : Finds (g.walk s) d) (hrest : ∀ r e, Yields (g.walk s) d r e → Finds (rest.walk s) e) :
    Finds ((FlowFields.cons name g rest).walk s) d := by
  rw [walk]
  exact finds_bind.2 ⟨h, fun r e hy => finds_bind.2 ⟨hrest r e hy, fun _ _ _ => finds_pure⟩⟩

/-! ## Queries -/

mutual

/-- If the parameters in scope are bound to steps that are noted, the walk of an operand finds its
targets. -/
theorem Shape.finds_walk (s : Schema) : ∀ (shape : Shape) {n m : Nat} {scope : Scope}
    {env : Values} {f : Flow} {d : Draft}, (shape.flow scope).run n = .ok (f, m) → 0 < n →
    Reflects scope env d n → Finds (f.walk s) d
  | .literal, n, m, scope, env, f, d, hf, hn, hr => by
    obtain ⟨rfl, -⟩ := Shape.run_flow_literal.1 hf
    exact finds_pure
  | .captured, n, m, scope, env, f, d, hf, hn, hr => by
    obtain ⟨rfl, -⟩ := Shape.run_flow_captured.1 hf
    exact finds_pure
  | .binary op lhs rhs, n, m, scope, env, f, d, hf, hn, hr => by
    obtain ⟨-, f₁, k₁, f₂, k₂, hleft, hright, rfl, -⟩ := Shape.run_flow_binary.1 hf
    refine Flow.finds_walk_binary (lhs.finds_walk s hleft hn hr) fun r e hy => ?_
    -- The notes of the left side are kept.
    have hkeeps := (lhs.builds_of_walk s hleft hy hn hr).2
    exact rhs.finds_walk s hright (Nat.lt_of_lt_of_le hn hkeeps.le) (hr.mono hkeeps)
  | .unary op operand, n, m, scope, env, f, d, hf, hn, hr => by
    obtain ⟨-, f', k, hoperand, rfl, -⟩ := Shape.run_flow_unary.1 hf
    exact Flow.finds_walk_unary (operand.finds_walk s hoperand hn hr)
  | .chain c, n, m, scope, env, f, d, hf, hn, hr => by
    obtain ⟨p, hp, rfl⟩ := Shape.run_flow_chain.1 hf
    exact c.finds_walk s hp (Chain.starts_of_pos hn) hr
  | .lambda .., _, _, _, _, _, _, hf, _, _ => absurd hf not_run_throw
  | .record _, _, _, _, _, _, _, hf, _, _ => absurd hf not_run_throw
  | .converted _, _, _, _, _, _, _, hf, _, _ => absurd hf not_run_throw
  | .broken _, _, _, _, _, _, _, hf, _, _ => absurd hf not_run_throw

/-- See `Shape.finds_walk`. -/
theorem Chain.finds_walk (s : Schema) : ∀ (c : Chain) {n m : Nat} {scope : Scope} {env : Values}
    {p : Path} {d : Draft} {g : JoinGraph}, (c.path scope).run n = .ok (p, m) → c.Starts s n d g →
    Reflects scope env d n → Finds (p.walk s) d
  | .table relation, n, m, scope, env, p, d, g, hp, hs, hr => by
    obtain ⟨rfl, -⟩ := Chain.run_path_table.1 hp
    exact Path.finds_walk_table
  | .param x, n, m, scope, env, p, d, g, hp, hs, hr => by
    obtain ⟨target, hx, rfl, -⟩ := Chain.run_path_param.1 hp
    rcases hr x with ⟨hnone, -⟩ | ⟨target', v, hx', -, -, r, hlookup, -⟩
    · exact absurd (hnone.symm.trans hx) (by simp)
    · obtain rfl := Option.some.inj (hx.symm.trans hx')
      exact Path.finds_walk_reference hlookup
  | .member source m', n, m, scope, env, p, d, g, hp, hs, hr => by
    obtain ⟨q, k, hq, -, rfl, -⟩ := Chain.run_path_member.1 hp
    exact Path.finds_walk_step (source.finds_walk s hq hs hr)
  | .bare source op, n, m, scope, env, p, d, g, hp, hs, hr => by
    rw [Chain.path] at hp
    exact source.finds_walk s hp hs hr
  | .narrow source op x body, n, m, scope, env, p, d, g, hp, hs, hr => by
    obtain ⟨q, k, target, f, k', hq, htarget, -, hf, rfl, -⟩ := Chain.run_path_narrow.1 hp
    refine Path.finds_walk_filter (source.finds_walk s hq hs hr) fun v e hy => ?_
    -- The row source that the parameter is bound to is noted by now.
    obtain ⟨-, hkeeps, hpos, hoffers⟩ := source.builds_of_walk s hq hy hs hr
    exact body.finds_walk s hf hpos (hoffers.binds htarget (hr.mono hkeeps)).2
  | .project source op x body, n, m, scope, env, p, d, g, hp, hs, hr => by
    obtain ⟨q, k, target, outputs, k', hq, htarget, -, houtputs, rfl, -⟩ :=
      Chain.run_path_project.1 hp
    refine Path.finds_walk_select (source.finds_walk s hq hs hr) fun v e hy => ?_
    obtain ⟨-, hkeeps, hpos, hoffers⟩ := source.builds_of_walk s hq hy hs hr
    have hr' := (hoffers.binds (x := x) htarget (hr.mono hkeeps)).2
    match body, houtputs with
    | body, .single hf => exact body.finds_walk s hf hpos hr'
    | .record fields, .record hfs =>
      exact Outputs.finds_walk_record (fields.finds_walk s hfs hpos hr')

/-- See `Shape.finds_walk`. -/
theorem ShapeFields.finds_walk (s : Schema) : ∀ (fields : ShapeFields) {n m : Nat} {scope : Scope}
    {env : Values} {fs : FlowFields} {d : Draft}, (fields.flows scope).run n = .ok (fs, m) → 0 < n →
    Reflects scope env d n → Finds (fs.walk s) d
  | .nil, n, m, scope, env, fs, d, hf, hn, hr => by
    obtain ⟨rfl, -⟩ := ShapeFields.run_flows_nil.1 hf
    exact finds_pure
  | .cons name value rest, n, m, scope, env, fs, d, hf, hn, hr => by
    obtain ⟨f, k, fs', hvalue, hrest, rfl⟩ := ShapeFields.run_flows_cons.1 hf
    refine FlowFields.finds_walk_cons (value.finds_walk s hvalue hn hr) fun v e hy => ?_
    have hkeeps := (value.builds_of_walk s hvalue hy hn hr).2
    exact rest.finds_walk s hrest (Nat.lt_of_lt_of_le hn hkeeps.le) (hr.mono hkeeps)

end

namespace JoinGraph

variable {query : Expr} {flow : NumberedPath}

theorem validate_ne_unresolved {g : JoinGraph} {reason : Unresolved} :
    g.validate ≠ .error reason.error := by
  rw [validate]
  split
  · simp [Unresolved.error]
  · simp

theorem draftOfPath_ne_neverBuilt (h : query.toPath = .ok flow) :
    (draftOfPath s flow.path).result ≠ .error Unresolved.neverBuilt.error := by
  obtain ⟨c, -, hstart, hp⟩ := Expr.toPath_eq_ok.1 h
  obtain ⟨relation, hrelation⟩ := c.startsAtTable_iff.1 hstart
  rw [draftOfPath, c.relation?_of_run_path hp, hrelation]
  dsimp only
  rw [discard_bind, Traced.result_bind, Traced.result_lift]
  cases hkey : s.primaryKey relation with
  | error err =>
    intro h
    exact Schema.primaryKey_ne_unresolved (hkey.trans (congrArg _ (Except.error.inj h)))
  | ok key =>
    have hstarts : c.Starts s 0 { graph := ofRoot relation } .empty :=
      Or.inr ⟨rfl, rfl, relation, key, hrelation, hkey, rfl⟩
    have hfinds := c.finds_walk s hp hstarts reflects_nil
    show (_ >>= _ : Traced _).result ≠ _
    rw [Traced.result_bind]
    exact bind_ne_error hfinds fun _ => pure_ne_error

theorem finish_ne_unresolved {g : JoinGraph} {reason : Unresolved} :
    g.finish.result ≠ .error reason.error := by
  unfold finish
  simp only [Traced.result_bind, Traced.result_report, Traced.result_lift, Traced.result_pure]
  exact bind_ne_error pure_ne_error fun _ =>
    bind_ne_error validate_ne_unresolved fun _ => pure_ne_error

/-- The graph of a query is built from its listing without getting stuck, and it is not refused
because a row source is missing. -/
theorem run_ofListing (h : query.toPath = .ok flow) :
    (ofListing s flow.path.listing).run = some <$> ofPath s flow.path ∧
      (ofPath s flow.path).result ≠ .error Unresolved.neverBuilt.error := by
  refine ⟨?_, ?_⟩
  · rw [ofListing_eq h, OptionT.run_lift, map_eq_pure_bind]
  · rw [ofPath, Traced.result_bind]
    exact bind_ne_error (draftOfPath_ne_neverBuilt h) fun _ => finish_ne_unresolved

/-- The orders of every customer that lead back to the customer. -/
def returningOrders : Expr :=
  .selectMany (.table "Customer") (.lambda ["c"] (.filter (ordersOf (.param "c"))
    (.lambda ["o"] (.binary .eq (customerOf (.param "o")) (.param "c")))))

theorem run_ofListing_returningOrders : ∃ flow g, returningOrders.toPath = .ok flow ∧
    (ofPath shop flow.path).result = .ok g ∧
    (ofListing shop flow.path.listing).run = some <$> ofPath shop flow.path ∧
      (ofPath shop flow.path).result ≠ .error Unresolved.neverBuilt.error := by
  have hcheck : (returningOrders.toPath >>= fun flow => (ofPath shop flow.path).result >>= fun _ =>
      .ok ()) = .ok () := by decide +kernel
  obtain ⟨flow, hflow, hcheck⟩ := bind_eq_ok.1 hcheck
  obtain ⟨g, hg, -⟩ := bind_eq_ok.1 hcheck
  exact ⟨flow, g, hflow, hg, run_ofListing hflow⟩

end JoinGraph

end FetchPlan
