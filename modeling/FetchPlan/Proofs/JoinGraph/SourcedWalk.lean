import FetchPlan.Proofs.JoinGraph.Walked

/-!
# Walking a query from row source to row source

The path of a query is numbered and walked in the order in which its row sources are listed. So
each of them becomes a node when it is met, and the steps stand for the meanings of the expressions
they are made from (`Expr.walksPath`). The nodes of the finished graph are those of the row
sources of the query (`sourced_of_ofPath`).
-/

namespace FetchPlan

open Building

variable {s : Schema} {n m k : Nat} {d d' e : Draft} {env : Bindings} {f : Flow} {p q : Path}
  {sources sources' : List RowSource} {r r' : Resolved} {meaning given : Meaning} {scope : Scope}
  {x : String}

/-! ## Lambdas and records -/

/-- Quotes and conversions around an expression make no difference. -/
theorem Expr.meaning_unwrap : ∀ e : Expr, e.unwrap.meaning env given = e.meaning env given ∧
    e.unwrap.rowSources env given = e.rowSources env given
  | .quote e => e.meaning_unwrap
  | .convert e none => e.meaning_unwrap
  | .convert _ (some _) | .table _ | .param _ | .captured _ | .value _ | .member .. | .call ..
  | .lambda .. | .binary .. | .unary .. | .record _ => ⟨rfl, rfl⟩

/-- A lambda, if need be without its quotes and conversions, stands for its body with the parameter
bound. -/
theorem Expr.of_shape_lambda {body : Shape} (e : Expr) (h : e.shape = .lambda [x] body) :
    ∃ b : Expr, b.shape = body ∧ sizeOf b < sizeOf e ∧ ∀ env given,
      e.meaning env given = b.meaning ((x, given) :: env) .scalar ∧
      e.rowSources env given = b.rowSources ((x, given) :: env) .scalar := by
  obtain ⟨b, hunwrap, hshape⟩ := e.unwrap_of_shape_lambda h
  refine ⟨b, hshape, sizeOf_body_lt hunwrap, fun env given => ?_⟩
  rw [← e.meaning_unwrap.1, ← e.meaning_unwrap.2, hunwrap]
  exact ⟨rfl, rfl⟩

/-- A record, if need be without its quotes and conversions, stands for its fields. -/
theorem Expr.of_shape_record {fields : ShapeFields} (e : Expr) (h : e.shape = .record fields) :
    ∃ es : List (String × Expr), fieldShapes es = fields ∧ sizeOf es < sizeOf e ∧
      ∀ env given, e.meaning env given = .record (fieldMeanings env es) ∧
        e.rowSources env given = fieldSources env es := by
  obtain ⟨es, hunwrap, hshape⟩ := e.unwrap_of_shape_record h
  refine ⟨es, hshape, sizeOf_fields_lt hunwrap, fun env given => ?_⟩
  rw [← e.meaning_unwrap.1, ← e.meaning_unwrap.2, hunwrap]
  exact ⟨rfl, rfl⟩

/-! ## Steps of a path -/

/-- Walking a path meets the sources that are added, and the rows of the path are noted under the
step that a parameter bound to them stands for. -/
structure Path.Walks (p : Path) (n m : Nat) (d d' : Draft) (sources sources' : List RowSource)
    (r : Resolved) (meaning : Meaning) : Prop where
  walked : Walked p.OnlyNavigates n m d d' sources sources'
  stands : r.Stands sources' meaning
  noted : ∀ target, p.rowSource? = some target → target < m ∧
    ∃ r', d'.sources.lookup target = some r' ∧ r'.Stands sources' meaning

/-- The nodes so far stand for the sources, or the root is yet to be met. -/
def Path.Starts (p : Path) (d : Draft) (n : Nat) (sources : List RowSource) : Prop :=
  (0 < n ∧ d.graph.Sourced sources) ∨ n = 0 ∧ sources = [] ∧
    ∃ relation, p.relation? = some relation ∧ d.graph = JoinGraph.ofRoot relation

/-- A path that is noted under the number of its last step. -/
theorem Walked.walks {nav : Prop} (h : Walked nav n k d e sources sources')
    (hnav : p.OnlyNavigates → nav) (hstands : r.Stands sources' meaning)
    (htarget : ∀ target, p.rowSource? = some target → target = k) :
    p.Walks n (k + 1) d ⟨e.graph, (k, r) :: e.sources⟩ sources sources' r meaning := by
  refine ⟨h.note.imp hnav, hstands, ?_⟩
  intro target heq
  obtain rfl := htarget target heq
  exact ⟨Nat.lt_succ_self target, r, List.lookup_cons_self, hstands⟩

/-- The relation that the query starts at is the root; every other one is a new node. -/
theorem Path.walks_table {relation : String}
    (hstart : (Path.table n relation).Starts d n sources)
    (hy : Yields ((Path.table n relation).walk s) d r d') :
    (Path.table n relation).Walks n (n + 1) d d' sources (sources ++ [.table relation]) r
      (.rows (.table relation)) := by
  have htarget : ∀ target, (Path.table n relation).rowSource? = some target → target = n :=
    fun target heq => (Option.some.inj heq).symm
  rcases hstart with ⟨hpos, hs⟩ | ⟨rfl, rfl, relation', hrelation, hgraph⟩
  · -- The relation is read on its own, which is not navigation.
    obtain ⟨_, -, rfl, rfl⟩ := (Path.yields_walk_table (Nat.ne_of_gt hpos)).1 hy
    have hadd : Walked (Path.table n relation).OnlyNavigates n n d
        { d with graph := d.graph.addNode relation } sources (sources ++ [.table relation]) :=
      ⟨Draft.Keeps.refl.graph _, hpos, List.prefix_append _ _, hs.addNode (.table relation),
        fun hn => absurd hn (Nat.ne_of_gt hpos)⟩
    have hknown : (sources ++ [.table relation])[d.graph.size]? = some (.table relation) := by
      rw [hs.size]
      exact List.getElem?_concat_length
    exact hadd.walks id (.rows hknown) htarget
  · -- The node of the root is there from the start; its source is met only now.
    obtain rfl := Option.some.inj hrelation
    obtain ⟨rfl, rfl⟩ := Path.yields_walk_root.1 hy
    have hsourced : d.graph.Sourced [.table relation] := hgraph ▸ JoinGraph.sourced_ofRoot
    have hstands : (Resolved.rows JoinGraph.root none).Stands [.table relation]
        (.rows (.table relation)) := .rows rfl
    refine ⟨⟨Draft.Keeps.refl.note, Nat.one_pos, List.nil_prefix, hsourced, ?_⟩, hstands, ?_⟩
    · intro _ _
      show d.graph.Follows _
      rw [hgraph]
      exact JoinGraph.follows_ofRoot
    · intro target heq
      obtain rfl := htarget target heq
      exact ⟨Nat.one_pos, _, rfl, hstands⟩

/-- A parameter stands for what it is bound to. -/
theorem Path.walks_reference {target : Nat} (hk : Knows scope env d n sources)
    (hx : scope.resolve? x = some target) (hstart : (Path.reference n target).Starts d n sources)
    (hy : Yields ((Path.reference n target).walk s) d r d') :
    (Path.reference n target).Walks n (n + 1) d d' sources sources r
      ((env.lookup x).getD .scalar) := by
  obtain ⟨hlt, bound, meaning, hbound, hmeaning, hstands⟩ := hk x target hx
  have hpos : 0 < n := by omega
  have hs : d.graph.Sourced sources := by
    rcases hstart with ⟨-, hs⟩ | ⟨hzero, -⟩
    · exact hs
    · omega
  obtain ⟨r', hlookup, rfl, rfl⟩ := Path.yields_walk_reference.1 hy
  obtain rfl := Option.some.inj (hbound.symm.trans hlookup)
  have hrefl : Walked True n n d d sources sources := .refl hpos hs
  have hwalked := hrefl.note (r := bound.bound)
  rw [hmeaning, Option.getD_some]
  refine ⟨hwalked.imp fun _ => trivial, hstands.bound, ?_⟩
  intro target' heq
  obtain rfl := Option.some.inj heq
  exact ⟨Nat.lt_succ_of_lt hlt, bound, (hwalked.kept target hlt).trans hbound, hstands⟩

/-- The parameter of a lambda stands for the rows of the path that it is called on. -/
theorem Path.Walks.knows {target : Nat} (h : p.Walks n m d d' sources sources' r given)
    (hk : Knows scope env d n sources) (htarget : p.rowSource? = some target) :
    Knows ((x, target) :: scope) ((x, given) :: env) d' m sources' := by
  obtain ⟨hlt, r', hlookup, hstands⟩ := h.noted target htarget
  exact (hk.mono h.walked).bind hlt hlookup hstands

/-- A member is taken from what the path stands for. -/
theorem Path.Walks.step {taken : Member} {g : JoinGraph}
    (h : q.Walks n k d e sources sources' r meaning) (ht : r.Takes s e.graph taken r' g) :
    (q.step k taken).Walks n (k + 1) d ⟨g, (k, r') :: e.sources⟩ sources
      (sources' ++ meaning.memberSources taken) r' (meaning.member taken) := by
  obtain ⟨hwalked, hstands⟩ := walked_takes h.walked.pos h.walked.sourced h.stands ht
  have hnav : (q.step k taken).OnlyNavigates → q.OnlyNavigates := by
    cases taken with
    | _ => exact id
  refine (h.walked.trans hwalked).walks hnav hstands ?_
  intro target heq
  cases taken with
  | column name => exact absurd heq (by simp [Path.step, Path.rowSource?])
  | projected name => exact (Option.some.inj heq).symm
  | association a => exact (Option.some.inj heq).symm

/-- A projection stands for what it makes of a row. -/
theorem Path.Walks.select {sources'' : List RowSource} {outputs : Outputs} {e' : Draft}
    {meaning' : Meaning} (h : q.Walks n k d e sources sources' r meaning)
    (houtputs : Walked outputs.OnlyNavigates k m e e' sources' sources'')
    (hstands : r'.Stands sources'' meaning') :
    (Path.select q m outputs).Walks n (m + 1) d ⟨e'.graph, (m, r') :: e'.sources⟩ sources sources''
      r' meaning' := by
  have hwalked : Walked (Path.select q m outputs).OnlyNavigates n m d e' sources sources'' :=
    (h.walked.imp And.left).trans (houtputs.imp And.right)
  refine hwalked.walks id hstands ?_
  intro target heq
  exact (Option.some.inj heq).symm

/-- A condition on the rows of a path leaves them as they are. -/
theorem Path.Walks.filter {sources'' : List RowSource} {e' : Draft}
    (h : q.Walks n k d e sources sources' r meaning)
    (hinner : Walked f.OnlyNavigates k m e e' sources' sources'') :
    (Path.filter q m f).Walks n (m + 1) d ⟨e'.graph, (m, r) :: e'.sources⟩ sources sources'' r
      meaning := by
  have hwalked : Walked (Path.filter q m f).OnlyNavigates n m d e' sources sources'' :=
    (h.walked.imp And.left).trans (hinner.imp And.right)
  refine ⟨hwalked.note, h.stands.mono hinner.grown, ?_⟩
  intro target heq
  obtain ⟨hlt, r', hlookup, hstands⟩ := h.noted target heq
  have hle : k ≤ m := hinner.le
  exact ⟨by omega, r', (hinner.note.kept target hlt).trans hlookup, hstands.mono hinner.grown⟩

/-! ## Expressions -/

/-- Walking the path of the expression meets its row sources, in every scope and from every
draft. -/
def Expr.WalksPath (s : Schema) (e : Expr) : Prop :=
  ∀ (given : Meaning) {c : Chain} {env : Bindings} {scope : Scope} {n m : Nat} {p : Path}
    {d d' : Draft} {r : Resolved} {sources : List RowSource}, e.shape = .chain c →
    (c.path scope).run n = .ok (p, m) → Yields (p.walk s) d r d' → p.Starts d n sources →
    Knows scope env d n sources →
    p.Walks n m d d' sources (sources ++ e.rowSources env given) r (e.meaning env given)

/-- Walking the flow of the expression meets its row sources. -/
def Expr.WalksFlow (s : Schema) (e : Expr) : Prop :=
  ∀ (given : Meaning) {env : Bindings} {scope : Scope} {n m : Nat} {f : Flow} {d d' : Draft}
    {r : Resolved} {sources : List RowSource}, (e.shape.flow scope).run n = .ok (f, m) →
    Yields (f.walk s) d r d' → 0 < n → d.graph.Sourced sources → Knows scope env d n sources →
    Walked f.OnlyNavigates n m d d' sources (sources ++ e.rowSources env given) ∧
      r.Stands (sources ++ e.rowSources env given) (e.meaning env given)

/-- Walking the fields of a record meets their row sources. -/
def WalksFields (s : Schema) (es : List (String × Expr)) : Prop :=
  ∀ (env : Bindings) {scope : Scope} {n m : Nat} {fs : FlowFields} {d d' : Draft}
    {outputs : List (String × Resolved)} {sources : List RowSource},
    ((fieldShapes es).flows scope).run n = .ok (fs, m) → Yields (fs.walk s) d outputs d' →
    0 < n → d.graph.Sourced sources → Knows scope env d n sources →
    Walked fs.OnlyNavigates n m d d' sources (sources ++ fieldSources env es) ∧
      (Resolved.record outputs).Stands (sources ++ fieldSources env es)
        (.record (fieldMeanings env es))

variable {type method : String} {args : List Expr} {base lhs rhs operand expr : Expr}

/-! ### Paths -/

theorem Expr.walksPath_of_ne (h : ∀ c, expr.shape ≠ .chain c) : expr.WalksPath s :=
  fun _ c _ _ _ _ _ _ _ _ _ hc => absurd hc (h c)

theorem Expr.walksPath_table {relation : String} : (Expr.table relation).WalksPath s := by
  intro _ c env scope n m p d d' r sources hc hp hy hstart hk
  obtain rfl := Shape.chain.inj hc
  obtain ⟨rfl, rfl⟩ := Chain.run_path_table.1 hp
  exact Path.walks_table hstart hy

theorem Expr.walksPath_param : (Expr.param x).WalksPath s := by
  intro _ c env scope n m p d d' r sources hc hp hy hstart hk
  obtain rfl := Shape.chain.inj hc
  obtain ⟨target, hx, rfl, rfl⟩ := Chain.run_path_param.1 hp
  rw [Expr.rowSources, List.append_nil]
  exact Path.walks_reference hk hx hstart hy

theorem Expr.WalksPath.member (h : base.WalksPath s) (m : Member) :
    (Expr.member base m).WalksPath s := by
  intro _ c env scope n k' p d d' r sources hc hp hy hstart hk
  obtain ⟨source, hbase, hmember⟩ := bind_eq_ok.1 (Shape.of_ofChain hc)
  obtain rfl := pure_eq_ok.1 hmember
  obtain ⟨q, k, hq, -, rfl, rfl⟩ := Chain.run_path_member.1 hp
  have hshape : base.shape = .chain source := Shape.asChain_eq_ok.1 hbase
  obtain ⟨r', e, g, hinit, htakes, rfl⟩ := Path.yields_walk_step.1 hy
  rw [Path.Starts, Path.relation?_step] at hstart
  have hbase := h .scalar hshape hq hinit hstart hk
  rw [Expr.rowSources_member, Expr.meaning_member, ← List.append_assoc]
  exact hbase.step htakes

section Calls

variable {source : Chain} {b lambda : Expr}

/-- The arguments of a call are walked in order, the body of the lambda with the parameter bound to
the rows of the source. -/
theorem Expr.WalksPath.narrow {op : Narrowing} (h : base.WalksPath s) (hb : b.WalksFlow s)
    (hshape : base.shape = .chain source)
    (hp : ((Chain.narrow source op x b.shape).path scope).run n = .ok (p, m))
    (hy : Yields (p.walk s) d r d') (hstart : p.Starts d n sources)
    (hk : Knows scope env d n sources) :
    p.Walks n m d d' sources (sources ++ base.rowSources env .scalar ++
      b.rowSources ((x, base.meaning env .scalar) :: env) .scalar) r
      (base.meaning env .scalar) := by
  obtain ⟨q, k, target, inner, k', hq, htarget, -, hinner, rfl, rfl⟩ :=
    Chain.run_path_narrow.1 hp
  obtain ⟨_, _, _, hinit, hbody, rfl⟩ := Path.yields_walk_filter.1 hy
  have hbase := h .scalar hshape hq hinit hstart hk
  have hk' := hbase.knows (x := x) hk htarget
  have hwalked := (hb .scalar hinner hbody hbase.walked.pos hbase.walked.sourced hk').1
  exact hbase.filter hwalked

/-- See `Expr.WalksPath.narrow`. -/
theorem Expr.WalksPath.project {op : Projecting} (h : base.WalksPath s) (hb : b.WalksFlow s)
    (hfields : ∀ es : List (String × Expr), sizeOf es < sizeOf b → WalksFields s es)
    (hshape : base.shape = .chain source)
    (hp : ((Chain.project source op x b.shape).path scope).run n = .ok (p, m))
    (hy : Yields (p.walk s) d r d') (hstart : p.Starts d n sources)
    (hk : Knows scope env d n sources) :
    p.Walks n m d d' sources (sources ++ base.rowSources env .scalar ++
      b.rowSources ((x, base.meaning env .scalar) :: env) .scalar) r
      (b.meaning ((x, base.meaning env .scalar) :: env) .scalar) := by
  obtain ⟨q, k, target, outputs, k', hq, htarget, -, houtputs, rfl, rfl⟩ :=
    Chain.run_path_project.1 hp
  obtain ⟨_, _, _, hinit, hbody, rfl⟩ := Path.yields_walk_select.1 hy
  have hbase := h .scalar hshape hq hinit hstart hk
  have hk' := hbase.knows (x := x) hk htarget
  generalize hbshape : b.shape = body at houtputs
  cases houtputs with
  | single hf =>
    rw [← hbshape] at hf
    have hflow := hb .scalar hf hbody hbase.walked.pos hbase.walked.sourced hk'
    exact hbase.select hflow.1 hflow.2
  | record hfs =>
    obtain ⟨es, rfl, hsize, hmeans⟩ := b.of_shape_record hbshape
    obtain ⟨_, hwalk, rfl⟩ := Outputs.yields_walk_record.1 hbody
    have hflows := hfields es hsize _ hfs hwalk hbase.walked.pos hbase.walked.sourced hk'
    rw [(hmeans _ _).1, (hmeans _ _).2]
    exact hbase.select hflows.1 hflows.2

end Calls

theorem Expr.walksPath_call (hpath : ∀ e ∈ args, e.WalksPath s)
    (hflow : ∀ e ∈ args, ∀ b : Expr, sizeOf b < sizeOf e → b.WalksFlow s)
    (hfields : ∀ e ∈ args, ∀ es : List (String × Expr), sizeOf es < sizeOf e → WalksFields s es) :
    (Expr.call type method args).WalksPath s := by
  intro given c env scope n m p d d' r sources hc hp hy hstart hk
  show p.Walks n m d d' sources (sources ++ callSources env args) r
    (callMeaning env (projects method) args)
  rcases Chain.ofCall_eq_ok (Shape.of_ofChain hc) with ⟨source, op, hargs, hmethod, rfl⟩ |
    ⟨source, op, x, body, hargs, hmethod, rfl⟩ | ⟨source, op, x, body, hargs, hmethod, rfl⟩
  · have hproject : projects method = false := by rw [projects, hmethod]
    obtain ⟨base, es, rfl, hshape, hrest⟩ := shapes_eq_cons hargs
    obtain rfl := shapes_eq_nil hrest
    rw [callSources, lambdaSources, List.append_nil, callMeaning, hproject]
    exact hpath base List.mem_cons_self .scalar hshape hp hy hstart hk
  · have hproject : projects method = false := by rw [projects, hmethod]
    obtain ⟨base, es, rfl, hshape, hrest⟩ := shapes_eq_cons hargs
    obtain ⟨e, es, rfl, hlambda, hrest⟩ := shapes_eq_cons hrest
    obtain rfl := shapes_eq_nil hrest
    obtain ⟨b, rfl, hsize, hmeans⟩ := e.of_shape_lambda hlambda
    have he : e ∈ [base, e] := List.mem_cons_of_mem base List.mem_cons_self
    rw [callSources, lambdaSources, lambdaSources, List.append_nil, callMeaning, hproject,
      (hmeans _ _).2, ← List.append_assoc]
    exact (hpath base List.mem_cons_self).narrow (hflow e he b hsize) hshape hp hy hstart hk
  · have hproject : projects method = true := by rw [projects, hmethod]
    obtain ⟨base, es, rfl, hshape, hrest⟩ := shapes_eq_cons hargs
    obtain ⟨e, es, rfl, hlambda, hrest⟩ := shapes_eq_cons hrest
    obtain rfl := shapes_eq_nil hrest
    obtain ⟨b, rfl, hsize, hmeans⟩ := e.of_shape_lambda hlambda
    have he : e ∈ [base, e] := List.mem_cons_of_mem base List.mem_cons_self
    rw [callSources, lambdaSources, lambdaSources, List.append_nil, callMeaning, hproject,
      if_pos rfl, lambdaMeaning, (hmeans _ _).1, (hmeans _ _).2, ← List.append_assoc]
    exact (hpath base List.mem_cons_self).project (hflow e he b hsize)
      (fun es hes => hfields e he es (Nat.lt_trans hes hsize)) hshape hp hy hstart hk

/-! ### Flows -/

theorem Expr.WalksPath.flow {x : Except Unsupported Chain} (h : expr.WalksPath s)
    (hshape : expr.shape = .ofChain x) : expr.WalksFlow s := by
  intro given env scope n m f d d' r sources hf hy hpos hs hk
  cases x with
  | error reason =>
    rw [hshape] at hf
    exact absurd hf not_run_throw
  | ok c =>
    rw [hshape] at hf
    obtain ⟨p, hp, rfl⟩ := Shape.run_flow_chain.1 hf
    have hpath := h given hshape hp hy (Or.inl ⟨hpos, hs⟩) hk
    exact ⟨hpath.walked, hpath.stands⟩

/-- What is refused as an operand is not walked. -/
theorem Expr.walksFlow_of_refused
    (h : ∀ scope n f m, (expr.shape.flow scope).run n ≠ .ok (f, m)) : expr.WalksFlow s :=
  fun _ {_ scope n m f} _ _ _ _ hf => absurd hf (h scope n f m)

/-- A fixed value is no source. -/
theorem walks_fixed
    (hf : (do return Flow.fixed (← Numbering.fresh) : Numbering Flow).run n = .ok (f, m))
    (hy : Yields (f.walk s) d r d') (hpos : 0 < n) (hs : d.graph.Sourced sources) :
    Walked f.OnlyNavigates n m d d' sources (sources ++ []) ∧ r.Stands (sources ++ []) .scalar := by
  rw [List.append_nil]
  obtain ⟨rfl, rfl⟩ := run_fresh_pure.1 hf
  obtain ⟨rfl, rfl⟩ := yields_pure.1 hy
  have hrefl : Walked (Flow.fixed n).OnlyNavigates n n _ _ sources sources := .refl hpos hs
  exact ⟨hrefl.succ, .scalar⟩

theorem Expr.WalksFlow.unary {op : UnaryOp} (h : operand.WalksFlow s) :
    (Expr.unary op operand).WalksFlow s := by
  intro _ env scope n m f d d' r sources hf hy hpos hs hk
  obtain ⟨-, f', k, hoperand, rfl, rfl⟩ := Shape.run_flow_unary.1 hf
  obtain ⟨_, hwalk, rfl⟩ := Flow.yields_walk_unary.1 hy
  have hwalked := (h .scalar hoperand hwalk hpos hs hk).1
  exact ⟨hwalked.succ, .scalar⟩

/-- The operands are walked one after the other, and an equality adds no source. -/
theorem Expr.WalksFlow.binary {op : BinaryOp} (hl : lhs.WalksFlow s) (hr : rhs.WalksFlow s) :
    (Expr.binary op lhs rhs).WalksFlow s := by
  intro _ env scope n m f d d' r sources hf hy hpos hs hk
  obtain ⟨-, f₁, k₁, f₂, k₂, hleft, hright, rfl, rfl⟩ := Shape.run_flow_binary.1 hf
  obtain ⟨_, _, _, _, hwalk₁, hwalk₂, rfl, hjoin⟩ := Flow.yields_walk_binary.1 hy
  have h₁ := (hl .scalar hleft hwalk₁ hpos hs hk).1
  have h₂ := (hr .scalar hright hwalk₂ h₁.pos h₁.sourced (hk.mono h₁)).1
  have hboth : Walked (Flow.binary k₂ op f₁ f₂).OnlyNavigates n k₂ d _ sources
      (sources ++ lhs.rowSources env .scalar ++ rhs.rowSources env .scalar) :=
    (h₁.imp fun hn => hn.2.1).trans (h₂.imp fun hn => hn.2.2)
  rw [Expr.rowSources, ← List.append_assoc]
  rcases hjoin with ⟨hop, hfixed₁, hfixed₂, hequate⟩ | ⟨-, rfl⟩
  · have hnav : ¬ (Flow.binary k₂ op f₁ f₂).OnlyNavigates :=
      Flow.not_onlyNavigates_of_not_isFixed hop hfixed₁ hfixed₂
    obtain ⟨a, fields, b, otherFields, -, -, -, rfl⟩ := yields_equate.1 hequate
    exact ⟨(hboth.trans (walked_equate hboth.pos hboth.sourced hnav)).succ, .scalar⟩
  · exact ⟨hboth.succ, .scalar⟩

/-! ### Records -/

theorem walksFields_nil : WalksFields s [] := by
  intro env scope n m fs d d' outputs sources hf hy hpos hs _
  obtain ⟨rfl, rfl⟩ := ShapeFields.run_flows_nil.1 hf
  obtain ⟨rfl, rfl⟩ := yields_pure.1 hy
  rw [fieldSources, List.append_nil]
  exact ⟨.refl hpos hs, .nil⟩

theorem WalksFields.cons {name : String} {es : List (String × Expr)} (h : expr.WalksFlow s)
    (hes : WalksFields s es) : WalksFields s ((name, expr) :: es) := by
  intro env scope n m fs d d' outputs sources hf hy hpos hs hk
  rw [fieldShapes] at hf
  obtain ⟨inner, k, others, hinner, hothers, rfl⟩ := ShapeFields.run_flows_cons.1 hf
  obtain ⟨_, _, _, hwalk, hrest, rfl⟩ := FlowFields.yields_walk_cons.1 hy
  obtain ⟨hhead, hstands⟩ := h .scalar hinner hwalk hpos hs hk
  obtain ⟨htail, hstands'⟩ := hes env hothers hrest hhead.pos hhead.sourced (hk.mono hhead)
  rw [fieldSources, fieldMeanings, ← List.append_assoc]
  exact ⟨(hhead.imp And.left).trans (htail.imp And.right),
    .cons (hstands.mono htail.grown) hstands'⟩

/-! ### All expressions -/

mutual

theorem Expr.walksPath (s : Schema) : ∀ e : Expr, e.WalksPath s
  | .table _ => Expr.walksPath_table
  | .param _ => Expr.walksPath_param
  | .member base m => (base.walksPath s).member m
  | .call type method args => by
    refine Expr.walksPath_call ?_ ?_ ?_
    · intro e he
      have hsize : sizeOf e < sizeOf args := List.sizeOf_lt_of_mem he
      exact e.walksPath s
    · intro e he b hb
      have hsize : sizeOf b < sizeOf args := Nat.lt_trans hb (List.sizeOf_lt_of_mem he)
      exact b.walksFlow s
    · intro e he es hes
      have hsize : sizeOf es < sizeOf args := Nat.lt_trans hes (List.sizeOf_lt_of_mem he)
      exact walksFields s es
  | .quote e => e.walksPath s
  | .convert e none => e.walksPath s
  | .convert _ (some _) => Expr.walksPath_of_ne fun _ => Shape.noConfusion
  | .captured _ => Expr.walksPath_of_ne fun _ => Shape.noConfusion
  | .value _ => Expr.walksPath_of_ne fun _ => Shape.noConfusion
  | .lambda .. => Expr.walksPath_of_ne fun _ => Shape.noConfusion
  | .binary .. => Expr.walksPath_of_ne fun _ => Shape.noConfusion
  | .unary .. => Expr.walksPath_of_ne fun _ => Shape.noConfusion
  | .record _ => Expr.walksPath_of_ne fun _ => Shape.noConfusion
termination_by e => (sizeOf e, 0)

theorem Expr.walksFlow (s : Schema) : ∀ e : Expr, e.WalksFlow s
  | .table relation => (Expr.walksPath s (.table relation)).flow (x := .ok _) rfl
  | .param name => (Expr.walksPath s (.param name)).flow (x := .ok _) rfl
  | .member base m => (Expr.walksPath s (.member base m)).flow rfl
  | .call type method args => (Expr.walksPath s (.call type method args)).flow rfl
  | .quote e => e.walksFlow s
  | .convert e none => e.walksFlow s
  | .binary _ lhs rhs => (lhs.walksFlow s).binary (rhs.walksFlow s)
  | .unary _ operand => (operand.walksFlow s).unary
  | .captured _ => fun _ _ _ _ _ _ _ _ _ _ hf hy hpos hs _ => walks_fixed hf hy hpos hs
  | .value _ => fun _ _ _ _ _ _ _ _ _ _ hf hy hpos hs _ => walks_fixed hf hy hpos hs
  | .convert _ (some _) => Expr.walksFlow_of_refused fun _ _ _ _ => not_run_throw
  | .lambda .. => Expr.walksFlow_of_refused fun _ _ _ _ => not_run_throw
  | .record _ => Expr.walksFlow_of_refused fun _ _ _ _ => not_run_throw
termination_by e => (sizeOf e, 1)

theorem walksFields (s : Schema) : ∀ es : List (String × Expr), WalksFields s es
  | [] => walksFields_nil
  | (_, e) :: es => WalksFields.cons (e.walksFlow s) (walksFields s es)
termination_by es => (sizeOf es, 0)

end

/-! ## Queries -/

namespace JoinGraph

variable {g : JoinGraph} {query : Expr} {flow : NumberedPath} {rs : List FetchPlan.Relation}

/-- The nodes of the graph of a query stand for its row sources, even before the graph is oriented,
and connections follow associations if the query only navigates. -/
theorem sourced_of_draftOfPath (hflow : query.toPath = .ok flow)
    (h : (draftOfPath s flow.path).result = .ok g) :
    g.Sourced (query.rowSources [] .scalar) ∧
      (flow.path.OnlyNavigates → g.Follows (query.rowSources [] .scalar)) := by
  obtain ⟨c, hc, -, hp⟩ := Expr.toPath_eq_ok.1 hflow
  obtain ⟨relation, key, r, d, hrelation, -, hwalk, rfl⟩ := draftOfPath_eq_ok.1 h
  have hstart : flow.path.Starts { graph := ofRoot relation } 0 [] :=
    Or.inr ⟨rfl, rfl, relation, hrelation, rfl⟩
  have hknows : Knows [] [] { graph := ofRoot relation } 0 [] := fun x target hx =>
    absurd hx (by simp [Scope.resolve?])
  have hwalks := query.walksPath s .scalar hc hp hwalk hstart hknows
  exact ⟨hwalks.walked.sourced, fun hn => hwalks.walked.follows hn follows_ofRoot⟩

theorem sourced_of_ofPath (hflow : query.toPath = .ok flow)
    (h : (ofPath s flow.path).result = .ok g) : g.Sourced (query.rowSources [] .scalar) := by
  obtain ⟨draft, hdraft, rfl, -⟩ := ofPath_eq_ok.1 h
  exact (sourced_of_draftOfPath hflow hdraft).1.orient

/-- There is nothing to turn round in the graph of a query that only navigates. -/
theorem follows_of_ofPath (hs : Schema.ofRelations rs = .ok s) (hq : query.OnlyNavigates)
    (hflow : query.toPath = .ok flow) (h : (ofPath s flow.path).result = .ok g) :
    g.Follows (query.rowSources [] .scalar) := by
  have hnav : flow.path.OnlyNavigates := hq.path hflow
  obtain ⟨draft, hdraft, rfl, -⟩ := ofPath_eq_ok.1 h
  rw [orient_of_reached (navigated_of_draftOfPath hs hnav hdraft).reached]
  exact (sourced_of_draftOfPath hflow hdraft).2 hnav

end JoinGraph
end FetchPlan
