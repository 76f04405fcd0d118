import FetchPlan.Proofs.JoinGraph.SourcedWalk
import FetchPlan.Proofs.Query.JoinPredicate

/-!
# The graph of a join predicate

Every equality of a join predicate adds its pair of columns to the only connection of the graph,
whatever connectives stand above it (`JoinPredicate.adds`). So the connection is on all equalities
of the predicate (`JoinPredicate.joinedOn_of_ofPath`).
-/

namespace FetchPlan

open Building

/-! ## Two nodes -/

namespace JoinGraph

variable {g : JoinGraph} {pairs : List FieldPair} {a : Nat}

/-- The connection to the other node on these pairs, if there are any. -/
def joins (pairs : List FieldPair) : List Connection :=
  if pairs = [] then [] else [⟨1, .ofList pairs⟩]

/-- Of two nodes the root is joined to the other one on these pairs. -/
structure JoinedOn (g : JoinGraph) (pairs : List FieldPair) : Prop where
  size : g.size = 2
  connections : ∀ a, g.connections a = if a = root then joins pairs else []

/-- At first there is no connection. -/
theorem joinedOn_addNode {relation joined : String} :
    ((ofRoot relation).addNode joined).JoinedOn [] := by
  refine ⟨rfl, ?_⟩
  intro a
  rw [connections_addNode, connections_ofRoot, joins, if_pos rfl, ite_self]

theorem JoinedOn.use (h : g.JoinedOn pairs) (id : Nat) (fields : List String) :
    (g.use id fields).JoinedOn pairs := by
  refine ⟨size_use.trans h.size, ?_⟩
  intro a
  rw [connections_use, h.connections]

theorem JoinedOn.eq_root (h : g.JoinedOn pairs) {c : Connection} (hc : c ∈ g.connections a) :
    a = root ∧ c ∈ joins pairs := by
  rw [h.connections] at hc
  split at hc
  · next ha => exact ⟨ha, hc⟩
  · exact absurd hc List.not_mem_nil

/-- The first pair is a connection of its own. -/
theorem JoinedOn.connect (h : g.JoinedOn []) (q : FieldPair) :
    (g.connect root ⟨1, FieldPairs.zip [q.source] [q.target]⟩).JoinedOn [q] := by
  have hnone : ∀ a, g.connections a = [] := by
    intro a
    rw [h.connections, joins, if_pos rfl, ite_self]
  have hnew : ¬ g.Joined root 1 (FieldPairs.zip [q.source] [q.target]) := by
    intro hjoined
    rw [Joined, hnone, hnone] at hjoined
    exact hjoined.elim List.not_mem_nil List.not_mem_nil
  refine ⟨size_connect.trans h.size, ?_⟩
  intro a
  rw [connect_of_not_joined hnew, connections_link, hnone, h.size]
  by_cases ha : a = root
  · subst ha
    rfl
  · rw [if_neg fun hand => ha hand.1.symm, if_neg ha]

/-- The connection takes a pair over, or has it already. -/
theorem JoinedOn.extend (h : g.JoinedOn pairs) (hne : pairs ≠ []) (q : FieldPair) :
    ((g.extend? root 0 q).getD g).JoinedOn (pairs ++ [q]) := by
  have hroot : g.connections root = [⟨1, .ofList pairs⟩] := by
    rw [h.connections, if_pos rfl, joins, if_neg hne]
  have hne' : pairs ++ [q] ≠ [] := List.append_ne_nil_of_left_ne_nil hne [q]
  unfold extend?
  rw [hroot]
  dsimp only [List.getElem?_cons_zero, Option.bind_eq_bind, Option.bind_some]
  split
  · next hq =>
    -- The pair is there, and the set of pairs stays the same.
    have hsame : OrderedSet.ofList (pairs ++ [q]) = .ofList pairs := by
      refine OrderedSet.ext_mem fun e => ?_
      rw [OrderedSet.mem_ofList, OrderedSet.mem_ofList, List.mem_append, List.mem_singleton]
      refine or_iff_left_of_imp fun he => ?_
      rw [he]
      exact OrderedSet.mem_ofList.1 hq
    refine ⟨h.size, ?_⟩
    intro a
    show g.connections a = _
    rw [h.connections, joins, joins, if_neg hne, if_neg hne', hsame]
  · -- The connection keeps its place, which is the first.
    have hinsert : (OrderedSet.ofList pairs).insert q = .ofList (pairs ++ [q]) := by
      refine OrderedSet.ext_mem fun e => ?_
      rw [OrderedSet.mem_insert, OrderedSet.mem_ofList, OrderedSet.mem_ofList, List.mem_append,
        List.mem_singleton, or_comm]
    refine ⟨by simpa using h.size, ?_⟩
    intro a
    show (JoinGraph.use _ _ _).connections a = _
    rw [connections_use, connections_use, connections_setConnections, h.size, hinsert, joins,
      if_neg hne']
    by_cases ha : a = root
    · subst ha
      rfl
    · rw [if_neg fun hand => ha hand.1.symm, if_neg ha, h.connections, if_neg ha]

/-- There is nothing to turn round. -/
theorem JoinedOn.orient (h : g.JoinedOn pairs) : g.orient.2.JoinedOn pairs := by
  refine orient_induction (P := (JoinedOn · pairs)) h ?_
  intro g f hg hf
  obtain ⟨hmem, hnot, -⟩ := flip?_eq_some hf
  rw [(hg.eq_root hmem).1] at hnot
  exact absurd reaches_root hnot

/-- The other node is not reached without a pair. -/
theorem JoinedOn.ne_nil (h : g.JoinedOn pairs) (hreach : g.Reaches 1) : pairs ≠ [] := by
  rintro rfl
  rcases Relation.ReflTransGen.cases_tail hreach with heq | ⟨a, -, c, hc, -⟩
  · exact absurd heq Nat.one_ne_zero
  · exact absurd (h.eq_root hc).2 List.not_mem_nil

/-- The connection that there is between the nodes, seen from the other one. -/
theorem JoinedOn.between? (h : g.JoinedOn pairs) :
    g.between? 1 root = if pairs = [] then none else some (root, 0) := by
  have hother : g.connections 1 = [] := (h.connections 1).trans (if_neg Nat.one_ne_zero)
  unfold JoinGraph.between?
  rw [hother, h.connections, if_pos rfl, joins]
  dsimp only [List.findIdx?_nil]
  split
  · rfl
  · rfl

/-- An equality of columns of the two nodes adds its pair. -/
theorem JoinedOn.equate {column other : String} (h : g.JoinedOn pairs) :
    (g.equate 1 [column] root [other]).JoinedOn (pairs ++ [⟨other, column⟩]) := by
  have hnodes : 1 ≠ root := Nat.one_ne_zero
  unfold JoinGraph.equate
  rw [if_neg hnodes, h.between?]
  by_cases hne : pairs = []
  · -- The first equality finds only the root reached, so the connection is seen from there.
    subst hne
    have hroot : g.isReachable root = true := isReachable_iff.2 reaches_root
    have hother : g.isReachable 1 = false := by
      rw [← Bool.not_eq_true, isReachable_iff]
      exact fun hreach => h.ne_nil hreach rfl
    rw [if_pos rfl, hroot, hother]
    exact h.connect ⟨other, column⟩
  · -- Later ones find the connection, and their pair is turned as it is seen from the root.
    rw [if_neg hne]
    exact h.extend hne ⟨other, column⟩

end JoinGraph

/-! ## Walking a predicate -/

variable {s : Schema} {scope : Scope} {n m id target : Nat} {f : Flow} {d d' : Draft}
  {r : Resolved} {pairs : List FieldPair} {x y : String}

/-- The first two steps stand for the two nodes, of which the root is joined to the other one. -/
structure Draft.Joins (d : Draft) (pairs : List FieldPair) : Prop where
  joined : d.graph.JoinedOn pairs
  first : d.sources.lookup 0 = some (.rows JoinGraph.root none)
  second : d.sources.lookup 1 = some (.rows 1 none)

/-- Later notes hide neither of the first two. -/
theorem Draft.Joins.note (h : d.Joins pairs) (hn : 2 ≤ n) :
    Draft.Joins ⟨d.graph, (n, r) :: d.sources⟩ pairs := by
  have hkept : ∀ k < 2, List.lookup k ((n, r) :: d.sources) = d.sources.lookup k := by
    intro k hk
    rw [List.lookup_cons, beq_false_of_ne (by omega)]
  exact ⟨h.joined, (hkept 0 Nat.two_pos).trans h.first, (hkept 1 Nat.one_lt_two).trans h.second⟩

/-- A column of a parameter stands for the column of the node that the parameter stands for. -/
theorem Draft.Joins.column {column : String} (h : d.Joins pairs) (hn : 2 ≤ n)
    (hf : ((Expr.member (.param x) (.column column)).shape.flow scope).run n = .ok (f, m))
    (hx : scope.resolve? x = some target) (htarget : d.sources.lookup target = some (.rows id none))
    (hy : Yields (f.walk s) d r d') :
    2 ≤ m ∧ f.isFixed = false ∧ r = .field id column none ∧ d'.Joins pairs := by
  obtain ⟨p, hp, rfl⟩ := Shape.run_flow_chain.1 hf
  obtain ⟨q, k, hq, -, rfl, rfl⟩ := Chain.run_path_member.1 hp
  obtain ⟨_, htarget', rfl, rfl⟩ := Chain.run_path_param.1 hq
  obtain rfl := Option.some.inj (hx.symm.trans htarget')
  obtain ⟨_, _, _, hinit, htakes, rfl⟩ := Path.yields_walk_step.1 hy
  obtain ⟨_, hlookup, rfl, rfl⟩ := Path.yields_walk_reference.1 hinit
  obtain rfl := Option.some.inj (htarget.symm.trans hlookup)
  have hjoins := h.note (r := .rows id none) hn
  cases htakes with
  | read _ _ =>
    have hused : Draft.Joins ⟨d.graph.use id [column], (n, .rows id none) :: d.sources⟩ pairs :=
      ⟨hjoins.joined.use id [column], hjoins.first, hjoins.second⟩
    exact ⟨by omega, rfl, rfl, hused.note (by omega)⟩

/-- Walking the expression adds these pairs, wherever it is met after the first two steps. -/
def Expr.Adds (s : Schema) (scope : Scope) (e : Expr) (added : List FieldPair) : Prop :=
  ∀ {n m : Nat} {f : Flow} {d d' : Draft} {r : Resolved} {pairs : List FieldPair}, 2 ≤ n →
    (e.shape.flow scope).run n = .ok (f, m) → Yields (f.walk s) d r d' → d.Joins pairs →
    2 ≤ m ∧ d'.Joins (pairs ++ added)

variable {constant lhs rhs operand : Expr} {column other : String} {added added' : List FieldPair}

theorem Expr.adds_constant (h : constant.isConstant) : constant.Adds s scope [] := by
  intro n m f d d' r pairs hn hf hwalk hd
  have hfixed := constant.isFixed_shape h
  have hle := constant.shape.le_of_isFixed hfixed hf
  have hsame := f.yields_walk_of_isFixed s d ((constant.shape.isFixed_of_run_flow hf).trans hfixed)
  obtain ⟨-, rfl⟩ := hwalk.unique hsame
  rw [List.append_nil]
  exact ⟨Nat.le_trans hn hle, hd⟩

theorem Expr.adds_column (hy : scope.resolve? y = some 1) :
    (Expr.member (.param y) (.column column)).Adds s scope [] := by
  intro n m f d d' r pairs hn hf hwalk hd
  obtain ⟨hm, -, -, hjoins⟩ := hd.column hn hf hy hd.second hwalk
  rw [List.append_nil]
  exact ⟨hm, hjoins⟩

theorem Expr.adds_equality (hx : scope.resolve? x = some JoinGraph.root)
    (hy : scope.resolve? y = some 1) :
    (Expr.binary .eq (.member (.param y) (.column column))
      (.member (.param x) (.column other))).Adds s scope [⟨other, column⟩] := by
  intro n m f d d' r pairs hn hf hwalk hd
  obtain ⟨-, f₁, k₁, f₂, k₂, hleft, hright, rfl, rfl⟩ := Shape.run_flow_binary.1 hf
  obtain ⟨_, _, _, _, hwalk₁, hwalk₂, rfl, hjoin⟩ := Flow.yields_walk_binary.1 hwalk
  obtain ⟨hk₁, hfixed₁, rfl, h₁⟩ := hd.column hn hleft hy hd.second hwalk₁
  obtain ⟨hk₂, hfixed₂, rfl, h₂⟩ := h₁.column hk₁ hright hx h₁.first hwalk₂
  rcases hjoin with ⟨-, -, -, hequate⟩ | ⟨hfixed, -⟩
  · obtain ⟨_, _, _, _, hleft, hright, -, rfl⟩ := yields_equate.1 hequate
    cases hleft with
    | field _ =>
      cases hright with
      | field _ => exact ⟨Nat.le_succ_of_le hk₂, h₂.joined.equate, h₂.first, h₂.second⟩
  · rw [hfixed₁, hfixed₂, or_self] at hfixed
    exact absurd (hfixed rfl) Bool.false_ne_true

/-- An operation adds the pairs of its operands, unless it is an equality that joins them. -/
theorem Expr.Adds.binary {op : BinaryOp} (hl : lhs.Adds s scope added)
    (hr : rhs.Adds s scope added') (hop : op = .eq → lhs.isConstant ∨ rhs.isConstant) :
    (Expr.binary op lhs rhs).Adds s scope (added ++ added') := by
  intro n m f d d' r pairs hn hf hwalk hd
  obtain ⟨-, f₁, k₁, f₂, k₂, hleft, hright, rfl, rfl⟩ := Shape.run_flow_binary.1 hf
  obtain ⟨_, _, _, _, hwalk₁, hwalk₂, rfl, hjoin⟩ := Flow.yields_walk_binary.1 hwalk
  obtain ⟨hk₁, h₁⟩ := hl hn hleft hwalk₁ hd
  obtain ⟨hk₂, h₂⟩ := hr hk₁ hright hwalk₂ h₁
  rcases hjoin with ⟨heq, hfixed₁, hfixed₂, -⟩ | ⟨-, rfl⟩
  · -- A constant side is fixed, and then nothing is joined.
    rcases hop heq with hconstant | hconstant
    · have hfixed := (lhs.shape.isFixed_of_run_flow hleft).trans (lhs.isFixed_shape hconstant)
      exact absurd (hfixed₁.symm.trans hfixed) Bool.false_ne_true
    · have hfixed := (rhs.shape.isFixed_of_run_flow hright).trans (rhs.isFixed_shape hconstant)
      exact absurd (hfixed₂.symm.trans hfixed) Bool.false_ne_true
  · rw [← List.append_assoc]
    exact ⟨Nat.le_succ_of_le hk₂, h₂⟩

theorem Expr.Adds.unary {op : UnaryOp} (h : operand.Adds s scope added) :
    (Expr.unary op operand).Adds s scope added := by
  intro n m f d d' r pairs hn hf hwalk hd
  obtain ⟨-, f', k, hoperand, rfl, rfl⟩ := Shape.run_flow_unary.1 hf
  obtain ⟨_, hwalk', rfl⟩ := Flow.yields_walk_unary.1 hwalk
  obtain ⟨hk, hjoins⟩ := h hn hoperand hwalk' hd
  exact ⟨Nat.le_succ_of_le hk, hjoins⟩

/-- A join predicate adds the pairs of its equalities, whatever stands above them. -/
theorem JoinPredicate.adds (hx : scope.resolve? x = some JoinGraph.root)
    (hy : scope.resolve? y = some 1) (p : JoinPredicate) :
    (p.expr y x).Adds s scope p.equalities := by
  induction p with
  | joined column other => exact Expr.adds_equality hx hy
  | compared op column constant fixed =>
    exact Expr.Adds.binary (Expr.adds_column hy) (Expr.adds_constant fixed) fun _ => Or.inr fixed
  | comparing op constant column fixed =>
    exact Expr.Adds.binary (Expr.adds_constant fixed) (Expr.adds_column hy) fun _ => Or.inl fixed
  | and p q ihp ihq => exact ihp.binary ihq fun heq => BinaryOp.noConfusion heq
  | or p q ihp ihq => exact ihp.binary ihq fun heq => BinaryOp.noConfusion heq
  | not p ih => exact ih.unary

/-! ## The query -/

namespace JoinPredicate

variable {p : JoinPredicate} {relation joined : String} {flow : NumberedPath} {g : JoinGraph}

theorem shape_query : (p.query relation joined x y).shape =
    .chain (.narrow (.table relation) .filter x
      (.chain (.narrow (.table joined) .any y (p.expr y x).shape))) := rfl

theorem rowSources_expr {env : Bindings} {given : Meaning} :
    (p.expr y x).rowSources env given = [] := by
  induction p generalizing given with
  | joined column other => rfl
  | compared op column constant fixed => exact constant.rowSources_constant fixed
  | comparing op constant column fixed =>
    show constant.rowSources env .scalar ++ [] = []
    rw [constant.rowSources_constant fixed, List.append_nil]
  | and p q ihp ihq =>
    show (p.expr y x).rowSources env .scalar ++ (q.expr y x).rowSources env .scalar = []
    rw [ihp, ihq, List.append_nil]
  | or p q ihp ihq =>
    show (p.expr y x).rowSources env .scalar ++ (q.expr y x).rowSources env .scalar = []
    rw [ihp, ihq, List.append_nil]
  | not p ih => exact ih

/-- The row sources of the query are the two relations. -/
theorem rowSources_query :
    (p.query relation joined x y).rowSources [] .scalar = [.table relation, .table joined] := by
  show [.table relation] ++
    (([.table joined] ++ ((p.expr y x).rowSources _ .scalar ++ [])) ++ []) = _
  rw [rowSources_expr]
  rfl

/-- The two relations are steps zero and one, to which the parameters are bound. -/
theorem path_query (h : (p.query relation joined x y).toPath = .ok flow) :
    ∃ scope f k m, Scope.resolve? scope x = some 0 ∧ Scope.resolve? scope y = some 1 ∧
      ((p.expr y x).shape.flow scope).run 2 = .ok (f, k) ∧
      flow.path = .filter (.table 0 relation) m (.path (.filter (.table 1 joined) k f)) := by
  obtain ⟨c, hc, -, hp⟩ := Expr.toPath_eq_ok.1 h
  obtain rfl := Shape.chain.inj (shape_query.symm.trans hc)
  obtain ⟨q, _, _, _, _, hq, htarget, -, hbody, hpath, -⟩ := Chain.run_path_narrow.1 hp
  obtain ⟨rfl, rfl⟩ := Chain.run_path_table.1 hq
  obtain rfl := Option.some.inj htarget
  obtain ⟨p', hp', rfl⟩ := Shape.run_flow_chain.1 hbody
  obtain ⟨q', _, _, f, k, hq', htarget, hnew, hf, rfl, rfl⟩ := Chain.run_path_narrow.1 hp'
  obtain ⟨rfl, rfl⟩ := Chain.run_path_table.1 hq'
  obtain rfl := Option.some.inj htarget
  -- A parameter cannot be bound twice, so the inner one does not hide the outer one.
  have hne : (x == y) = false := by
    refine beq_false_of_ne fun heq => ?_
    rw [heq, Scope.resolve?, List.lookup_cons, beq_self_eq_true] at hnew
    exact absurd hnew (Option.some_ne_none 0)
  refine ⟨_, f, k, _, ?_, ?_, hf, hpath⟩
  · rw [Scope.resolve?, List.lookup_cons, hne, List.lookup_cons, beq_self_eq_true]
  · rw [Scope.resolve?, List.lookup_cons, beq_self_eq_true]

/-- The root is joined to the other relation on all equalities of the predicate. -/
theorem joinedOn_of_ofPath (hflow : (p.query relation joined x y).toPath = .ok flow)
    (h : (JoinGraph.ofPath s flow.path).result = .ok g) : g.JoinedOn p.equalities := by
  obtain ⟨draft, hdraft, rfl, -⟩ := JoinGraph.ofPath_eq_ok.1 h
  obtain ⟨relation', key, r, d, hrelation, -, hwalk, rfl⟩ := JoinGraph.draftOfPath_eq_ok.1 hdraft
  obtain ⟨scope, f, k, m, hx, hy, hf, hpath⟩ := path_query hflow
  rw [hpath] at hrelation hwalk
  obtain rfl := Option.some.inj hrelation
  obtain ⟨_, _, _, hroot, hinner, rfl⟩ := Path.yields_walk_filter.1 hwalk
  obtain ⟨_, _, _, hother, hpredicate, rfl⟩ := Path.yields_walk_filter.1 hinner
  obtain ⟨rfl, rfl⟩ := Path.yields_walk_root.1 hroot
  obtain ⟨_, -, rfl, rfl⟩ := (Path.yields_walk_table Nat.one_ne_zero).1 hother
  have hstart : Draft.Joins ⟨(JoinGraph.ofRoot relation).addNode joined,
      [(1, .rows 1 none), (0, .rows JoinGraph.root none)]⟩ [] :=
    ⟨JoinGraph.joinedOn_addNode, rfl, rfl⟩
  obtain ⟨-, hjoins⟩ := p.adds hx hy (Nat.le_refl 2) hf hpredicate hstart
  exact hjoins.joined.orient

end JoinPredicate
end FetchPlan
