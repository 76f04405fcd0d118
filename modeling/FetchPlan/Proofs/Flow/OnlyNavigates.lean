import FetchPlan.Proofs.Flow.Numbering
import FetchPlan.Proofs.Query.Shapes

/-!
# Queries that only navigate

Such a query reads no relation but the one it starts at, and in every equality one side is fixed.
All it does with rows is to follow associations and to read columns. The path it is resolved to
only navigates too (`Expr.OnlyNavigates.path`).
-/

namespace FetchPlan

/-! ## Expressions -/

mutual

/-- The expression and all expressions in it. -/
def Expr.parts : Expr → List Expr
  | .table relation => [.table relation]
  | .param name => [.param name]
  | .captured name => [.captured name]
  | .value v => [.value v]
  | .member base m => .member base m :: base.parts
  | .call type method args => .call type method args :: argumentParts args
  | .lambda params body => .lambda params body :: body.parts
  | .quote e => .quote e :: e.parts
  | .convert e method => .convert e method :: e.parts
  | .binary op lhs rhs => .binary op lhs rhs :: (lhs.parts ++ rhs.parts)
  | .unary op operand => .unary op operand :: operand.parts
  | .record fields => .record fields :: fieldParts fields

/-- All expressions in a list of arguments. -/
def argumentParts : List Expr → List Expr
  | [] => []
  | e :: es => e.parts ++ argumentParts es

/-- All expressions in the fields of a record. -/
def fieldParts : List (String × Expr) → List Expr
  | [] => []
  | (_, e) :: fields => e.parts ++ fieldParts fields

end

/-- The expression itself is a relation. -/
def Expr.isTable : Expr → Bool
  | .table _ => true
  | _ => false

/-- The value of the expression is the same for all rows: only literals and captured variables take
part. -/
def Expr.isConstant : Expr → Bool
  | .captured _ | .value _ => true
  | .quote e | .convert e none => e.isConstant
  | .binary _ lhs rhs => lhs.isConstant && rhs.isConstant
  | .unary _ operand => operand.isConstant
  | _ => false

/-- Only one relation is read, and every equality has a constant side. -/
structure Expr.OnlyNavigates (e : Expr) : Prop where
  tables : e.parts.countP Expr.isTable = 1
  equalities : ∀ lhs rhs, .binary .eq lhs rhs ∈ e.parts → lhs.isConstant ∨ rhs.isConstant

/-- If the expression itself is an equality, it has a constant side. -/
def Expr.isFixedIfEq : Expr → Bool
  | .binary .eq lhs rhs => lhs.isConstant || rhs.isConstant
  | _ => true

theorem Expr.onlyNavigates_iff {e : Expr} :
    e.OnlyNavigates ↔ e.parts.countP isTable = 1 ∧ ∀ e' ∈ e.parts, e'.isFixedIfEq = true := by
  constructor
  · intro h
    refine ⟨h.tables, ?_⟩
    intro e' he'
    unfold isFixedIfEq
    split
    · next lhs rhs =>
      rw [Bool.or_eq_true]
      exact h.equalities lhs rhs he'
    · rfl
  · intro h
    refine ⟨h.1, ?_⟩
    intro lhs rhs he'
    exact Bool.or_eq_true_iff.1 (h.2 _ he')

instance {e : Expr} : Decidable e.OnlyNavigates := decidable_of_iff _ Expr.onlyNavigates_iff.symm

/-- A query with one relation and without equalities only navigates. -/
theorem Expr.onlyNavigates_of_isEq {e : Expr} (ht : e.parts.countP isTable = 1)
    (he : ∀ e' ∈ e.parts, e'.isEq = false) : e.OnlyNavigates :=
  ⟨ht, fun _ _ h => absurd (he _ h) (by simp [isEq])⟩

/-! ## Shapes -/

mutual

/-- No relation is read, and every equality has a fixed side. -/
def Shape.OnlyNavigates : Shape → Prop
  | .binary op lhs rhs =>
    (op = .eq → lhs.isFixed ∨ rhs.isFixed) ∧ lhs.OnlyNavigates ∧ rhs.OnlyNavigates
  | .unary _ operand => operand.OnlyNavigates
  | .chain c => c.OnlyNavigates false
  | .lambda _ body => body.OnlyNavigates
  | .record fields => fields.OnlyNavigates
  | .literal | .captured | .converted _ | .broken _ => True

/-- See `Shape.OnlyNavigates`. The chain itself may start at a relation if it is the one that the
query starts at. -/
def Chain.OnlyNavigates (atRoot : Bool) : Chain → Prop
  | .table _ => atRoot
  | .param _ => True
  | .member source _ | .bare source _ => source.OnlyNavigates atRoot
  | .narrow source _ _ body | .project source _ _ body =>
    source.OnlyNavigates atRoot ∧ body.OnlyNavigates

/-- See `Shape.OnlyNavigates`. -/
def ShapeFields.OnlyNavigates : ShapeFields → Prop
  | .nil => True
  | .cons _ value rest => value.OnlyNavigates ∧ rest.OnlyNavigates

end

variable {atRoot : Bool} {c c' : Chain} {shape : Shape} {type method : String}

theorem Shape.onlyNavigates_ofChain {x : Except Unsupported Chain}
    (h : ∀ c, x = .ok c → c.OnlyNavigates false) : (Shape.ofChain x).OnlyNavigates := by
  cases x with
  | error reason => exact trivial
  | ok c => exact h c rfl

/-- A call navigates if its source and its lambda do. -/
theorem Chain.onlyNavigates_ofCall {args : List Shape}
    (hsource : ∀ source, args.head? = some (.chain source) → source.OnlyNavigates atRoot)
    (hrest : ∀ shape ∈ args.tail, shape.OnlyNavigates)
    (h : Chain.ofCall type method args = .ok c) : c.OnlyNavigates atRoot := by
  obtain ⟨source, rest, rfl, hcases⟩ := of_ofCall h
  have hs := hsource source rfl
  rcases hcases with ⟨op, rfl⟩ | ⟨x, body, rfl, hcases⟩
  · exact hs
  · have hbody : body.OnlyNavigates := hrest (.lambda [x] body) List.mem_cons_self
    rcases hcases with ⟨op, rfl⟩ | ⟨op, rfl⟩
    · exact ⟨hs, hbody⟩
    · exact ⟨hs, hbody⟩

/-! ## From expressions to shapes -/

theorem Expr.isFixed_shape : ∀ e : Expr, e.isConstant → e.shape.isFixed
  | .captured _, _ => rfl
  | .value _, _ => rfl
  | .quote e, h => e.isFixed_shape h
  | .convert e none, h => e.isFixed_shape h
  | .binary _ lhs rhs, h => by
    rw [isConstant, Bool.and_eq_true] at h
    rw [shape, Shape.isFixed, lhs.isFixed_shape h.1, rhs.isFixed_shape h.2]
    rfl
  | .unary _ operand, h => operand.isFixed_shape h

mutual

/-- The shape of an expression that reads no relation navigates, if its equalities allow it. -/
theorem Expr.onlyNavigates_shape : ∀ e : Expr, (∀ e' ∈ e.parts, e'.isTable = false) →
    (∀ lhs rhs, .binary .eq lhs rhs ∈ e.parts → lhs.isConstant ∨ rhs.isConstant) →
    e.shape.OnlyNavigates
  | .table relation, ht, _ => absurd (ht (.table relation) List.mem_cons_self) (by simp [Expr.isTable])
  | .param _, _, _ => trivial
  | .captured _, _, _ => trivial
  | .value _, _, _ => trivial
  | .member base m, ht, he => by
    apply Shape.onlyNavigates_ofChain
    intro c hc
    obtain ⟨c', hbase, hc⟩ := bind_eq_ok.1 hc
    obtain rfl := pure_eq_ok.1 hc
    have ih := base.onlyNavigates_shape (fun e' h => ht e' (List.mem_cons_of_mem _ h))
      fun lhs rhs h => he lhs rhs (List.mem_cons_of_mem _ h)
    rw [Shape.asChain_eq_ok.1 hbase] at ih
    exact ih
  | .call type method args, ht, he => by
    have ih := onlyNavigates_shapes args (fun e' h => ht e' (List.mem_cons_of_mem _ h))
      fun lhs rhs h => he lhs rhs (List.mem_cons_of_mem _ h)
    refine Shape.onlyNavigates_ofChain fun c hc => Chain.onlyNavigates_ofCall ?_ ?_ hc
    · intro source hsource
      exact ih _ (List.mem_of_head? hsource)
    · intro shape hshape
      exact ih shape (List.mem_of_mem_tail hshape)
  | .lambda _ body, ht, he =>
    body.onlyNavigates_shape (fun e' h => ht e' (List.mem_cons_of_mem _ h))
      fun lhs rhs h => he lhs rhs (List.mem_cons_of_mem _ h)
  | .quote e, ht, he =>
    e.onlyNavigates_shape (fun e' h => ht e' (List.mem_cons_of_mem _ h))
      fun lhs rhs h => he lhs rhs (List.mem_cons_of_mem _ h)
  | .convert e none, ht, he =>
    e.onlyNavigates_shape (fun e' h => ht e' (List.mem_cons_of_mem _ h))
      fun lhs rhs h => he lhs rhs (List.mem_cons_of_mem _ h)
  | .convert _ (some _), _, _ => trivial
  | .binary op lhs rhs, ht, he => by
    refine ⟨?_, ?_, ?_⟩
    · intro heq
      subst heq
      exact (he lhs rhs List.mem_cons_self).imp lhs.isFixed_shape rhs.isFixed_shape
    · exact lhs.onlyNavigates_shape
        (fun e' h => ht e' (List.mem_cons_of_mem _ (List.mem_append_left _ h)))
        fun l r h => he l r (List.mem_cons_of_mem _ (List.mem_append_left _ h))
    · exact rhs.onlyNavigates_shape
        (fun e' h => ht e' (List.mem_cons_of_mem _ (List.mem_append_right _ h)))
        fun l r h => he l r (List.mem_cons_of_mem _ (List.mem_append_right _ h))
  | .unary _ operand, ht, he =>
    operand.onlyNavigates_shape (fun e' h => ht e' (List.mem_cons_of_mem _ h))
      fun lhs rhs h => he lhs rhs (List.mem_cons_of_mem _ h)
  | .record fields, ht, he =>
    onlyNavigates_fieldShapes fields (fun e' h => ht e' (List.mem_cons_of_mem _ h))
      fun lhs rhs h => he lhs rhs (List.mem_cons_of_mem _ h)

/-- See `Expr.onlyNavigates_shape`. -/
theorem onlyNavigates_shapes : ∀ es : List Expr, (∀ e' ∈ argumentParts es, e'.isTable = false) →
    (∀ lhs rhs, .binary .eq lhs rhs ∈ argumentParts es → lhs.isConstant ∨ rhs.isConstant) →
    ∀ shape ∈ shapes es, shape.OnlyNavigates
  | [], _, _, shape, hshape => absurd hshape List.not_mem_nil
  | e :: es, ht, he, shape, hshape => by
    rcases List.mem_cons.1 hshape with rfl | hshape
    · exact e.onlyNavigates_shape (fun e' h => ht e' (List.mem_append_left _ h))
        fun lhs rhs h => he lhs rhs (List.mem_append_left _ h)
    · exact onlyNavigates_shapes es (fun e' h => ht e' (List.mem_append_right _ h))
        (fun lhs rhs h => he lhs rhs (List.mem_append_right _ h)) shape hshape

/-- See `Expr.onlyNavigates_shape`. -/
theorem onlyNavigates_fieldShapes : ∀ fields : List (String × Expr),
    (∀ e' ∈ fieldParts fields, e'.isTable = false) →
    (∀ lhs rhs, .binary .eq lhs rhs ∈ fieldParts fields → lhs.isConstant ∨ rhs.isConstant) →
    (fieldShapes fields).OnlyNavigates
  | [], _, _ => trivial
  | (_, e) :: fields, ht, he =>
    ⟨e.onlyNavigates_shape (fun e' h => ht e' (List.mem_append_left _ h))
        fun lhs rhs h => he lhs rhs (List.mem_append_left _ h),
      onlyNavigates_fieldShapes fields (fun e' h => ht e' (List.mem_append_right _ h))
        fun lhs rhs h => he lhs rhs (List.mem_append_right _ h)⟩

end

theorem Expr.forall_isTable_eq_false {es : List Expr} (h : es.countP isTable = 0) :
    ∀ e ∈ es, e.isTable = false := fun e he =>
  Bool.eq_false_iff.2 (List.countP_eq_zero.1 h e he)

/-- An expression whose chain starts at a relation reads this one; if it reads no other, the chain
navigates. -/
theorem Expr.onlyNavigates_chain : ∀ e : Expr, ∀ c, e.shape = .chain c → c.startsAtTable →
    (∀ lhs rhs, .binary .eq lhs rhs ∈ e.parts → lhs.isConstant ∨ rhs.isConstant) →
    0 < e.parts.countP isTable ∧ (e.parts.countP isTable ≤ 1 → c.OnlyNavigates true)
  | .table relation, c, hc, _, _ => by
    obtain rfl := Shape.chain.inj hc
    exact ⟨Nat.one_pos, fun _ => rfl⟩
  | .param _, c, hc, hstart, _ => by
    obtain rfl := Shape.chain.inj hc
    exact absurd hstart (by simp [Chain.startsAtTable])
  | .member base m, c, hc, hstart, he => by
    obtain ⟨c', hbase, h⟩ := bind_eq_ok.1 (Shape.of_ofChain hc)
    obtain rfl := pure_eq_ok.1 h
    exact base.onlyNavigates_chain c' (Shape.asChain_eq_ok.1 hbase) hstart
      fun lhs rhs h => he lhs rhs (List.mem_cons_of_mem _ h)
  | .call type method [], c, hc, _, _ => by
    obtain ⟨source, rest, hargs, -⟩ := Chain.of_ofCall (Shape.of_ofChain hc)
    exact absurd hargs (by simp [shapes])
  | .call type method (e :: es), c, hc, hstart, he => by
    have hcall := Shape.of_ofChain hc
    obtain ⟨source, rest, hargs, hcases⟩ := Chain.of_ofCall hcall
    obtain ⟨hsource, rfl⟩ := List.cons.inj hargs
    have hstart' : source.startsAtTable := by
      rcases hcases with ⟨op, rfl⟩ | ⟨x, body, -, ⟨op, rfl⟩ | ⟨op, rfl⟩⟩
      · exact hstart
      · exact hstart
      · exact hstart
    obtain ⟨hpos, hnav⟩ := e.onlyNavigates_chain source hsource hstart'
      fun lhs rhs h => he lhs rhs (List.mem_cons_of_mem _ (List.mem_append_left _ h))
    have hcount : (Expr.call type method (e :: es)).parts.countP isTable =
        e.parts.countP isTable + (argumentParts es).countP isTable := by
      rw [← List.countP_append]
      rfl
    rw [hcount]
    refine ⟨Nat.lt_of_lt_of_le hpos (Nat.le_add_right _ _), ?_⟩
    intro hle
    have hrest : (argumentParts es).countP isTable = 0 := by omega
    refine Chain.onlyNavigates_ofCall ?_ ?_ hcall
    · intro source' hsource'
      obtain rfl := Shape.chain.inj (hsource.symm.trans (Option.some.inj hsource'))
      exact hnav (by omega)
    · exact onlyNavigates_shapes es (forall_isTable_eq_false hrest)
        fun lhs rhs h => he lhs rhs (List.mem_cons_of_mem _ (List.mem_append_right _ h))
  | .quote e, c, hc, hstart, he =>
    e.onlyNavigates_chain c hc hstart fun lhs rhs h => he lhs rhs (List.mem_cons_of_mem _ h)
  | .convert e none, c, hc, hstart, he =>
    e.onlyNavigates_chain c hc hstart fun lhs rhs h => he lhs rhs (List.mem_cons_of_mem _ h)

/-! ## Flows -/

mutual

/-- No relation is read but the one the query starts at, and every equality has a fixed side. -/
def Flow.OnlyNavigates : Flow → Prop
  | .path p => p.OnlyNavigates
  | .binary _ op lhs rhs =>
    (op = .eq → lhs.isFixed ∨ rhs.isFixed) ∧ lhs.OnlyNavigates ∧ rhs.OnlyNavigates
  | .unary _ _ operand => operand.OnlyNavigates
  | .fixed _ => True

/-- See `Flow.OnlyNavigates`. The relation that the query starts at is step zero. -/
def Path.OnlyNavigates : Path → Prop
  | .table id _ => id = 0
  | .reference .. => True
  | .association init .. | .column init .. | .output init .. => init.OnlyNavigates
  | .select init _ outputs => init.OnlyNavigates ∧ outputs.OnlyNavigates
  | .filter init _ inner => init.OnlyNavigates ∧ inner.OnlyNavigates

/-- See `Flow.OnlyNavigates`. -/
def Outputs.OnlyNavigates : Outputs → Prop
  | .single inner => inner.OnlyNavigates
  | .record fields => fields.OnlyNavigates

/-- See `Flow.OnlyNavigates`. -/
def FlowFields.OnlyNavigates : FlowFields → Prop
  | .nil => True
  | .cons _ inner rest => inner.OnlyNavigates ∧ rest.OnlyNavigates

end

/-- An equality of two sides that are not fixed is not navigation. -/
theorem Flow.not_onlyNavigates_of_not_isFixed {id : Nat} {op : BinaryOp} {lhs rhs : Flow}
    (hop : op = .eq) (hl : lhs.isFixed = false) (hr : rhs.isFixed = false) :
    ¬ (Flow.binary id op lhs rhs).OnlyNavigates := by
  intro h
  rcases h.1 hop with hfixed | hfixed
  · exact absurd (hl.symm.trans hfixed) Bool.false_ne_true
  · exact absurd (hr.symm.trans hfixed) Bool.false_ne_true

/-! ## From shapes to flows -/

theorem Path.OnlyNavigates.step {p : Path} (h : p.OnlyNavigates) (id : Nat) (m : Member) :
    (p.step id m).OnlyNavigates := by
  cases m with
  | _ => exact h

mutual

/-- The flow of a shape that navigates does. -/
theorem Shape.onlyNavigates_flow : ∀ (shape : Shape) {scope : Scope} {n m : Nat} {f : Flow},
    shape.OnlyNavigates → (shape.flow scope).run n = .ok (f, m) → f.OnlyNavigates
  | .literal, scope, n, m, f, _, h => by
    obtain ⟨rfl, -⟩ := Shape.run_flow_literal.1 h
    exact trivial
  | .captured, scope, n, m, f, _, h => by
    obtain ⟨rfl, -⟩ := Shape.run_flow_captured.1 h
    exact trivial
  | .binary op lhs rhs, scope, n, m, f, hn, h => by
    obtain ⟨-, l, _, r, _, hl, hr, rfl, -⟩ := Shape.run_flow_binary.1 h
    have hnl : l.OnlyNavigates := lhs.onlyNavigates_flow hn.2.1 hl
    have hnr : r.OnlyNavigates := rhs.onlyNavigates_flow hn.2.2 hr
    refine ⟨?_, hnl, hnr⟩
    intro heq
    rw [lhs.isFixed_of_run_flow hl, rhs.isFixed_of_run_flow hr]
    exact hn.1 heq
  | .unary op operand, scope, n, m, f, hn, h => by
    obtain ⟨-, o, _, ho, rfl, -⟩ := Shape.run_flow_unary.1 h
    have hno : o.OnlyNavigates := operand.onlyNavigates_flow hn ho
    exact hno
  | .chain c, scope, n, m, f, hn, h => by
    obtain ⟨p, hp, rfl⟩ := Shape.run_flow_chain.1 h
    exact c.onlyNavigates_path hn (fun hroot => absurd hroot (by simp)) hp
  | .lambda _ _, scope, n, m, f, _, h => absurd h not_run_throw
  | .record _, scope, n, m, f, _, h => absurd h not_run_throw
  | .converted _, scope, n, m, f, _, h => absurd h not_run_throw
  | .broken _, scope, n, m, f, _, h => absurd h not_run_throw

/-- See `Shape.onlyNavigates_flow`. The relation that the query starts at is step zero. -/
theorem Chain.onlyNavigates_path {atRoot : Bool} : ∀ (c : Chain) {scope : Scope} {n m : Nat}
    {p : Path}, c.OnlyNavigates atRoot → (atRoot → n = 0) →
    (c.path scope).run n = .ok (p, m) → p.OnlyNavigates
  | .table relation, scope, n, m, p, hn, hzero, h => by
    obtain ⟨rfl, -⟩ := Chain.run_path_table.1 h
    exact hzero hn
  | .param name, scope, n, m, p, _, _, h => by
    obtain ⟨_, -, rfl, -⟩ := Chain.run_path_param.1 h
    exact trivial
  | .member source m', scope, n, m, p, hn, hzero, h => by
    obtain ⟨q, k, hq, -, rfl, -⟩ := Chain.run_path_member.1 h
    exact (source.onlyNavigates_path hn hzero hq).step k m'
  | .bare source _, scope, n, m, p, hn, hzero, h => source.onlyNavigates_path hn hzero h
  | .narrow source op param body, scope, n, m, p, hn, hzero, h => by
    obtain ⟨q, _, _, inner, _, hq, -, -, hinner, rfl, -⟩ := Chain.run_path_narrow.1 h
    exact ⟨source.onlyNavigates_path hn.1 hzero hq, body.onlyNavigates_flow hn.2 hinner⟩
  | .project source op param body, scope, n, m, p, hn, hzero, h => by
    obtain ⟨q, _, _, outputs, _, hq, -, -, houtputs, rfl, -⟩ := Chain.run_path_project.1 h
    have hnq := source.onlyNavigates_path hn.1 hzero hq
    cases houtputs with
    | single hinner => exact ⟨hnq, body.onlyNavigates_flow hn.2 hinner⟩
    | @record fields _ _ hfields => exact ⟨hnq, fields.onlyNavigates_flows hn.2 hfields⟩

/-- See `Shape.onlyNavigates_flow`. -/
theorem ShapeFields.onlyNavigates_flows : ∀ (fields : ShapeFields) {scope : Scope} {n m : Nat}
    {fs : FlowFields}, fields.OnlyNavigates → (fields.flows scope).run n = .ok (fs, m) →
    fs.OnlyNavigates
  | .nil, scope, n, m, fs, _, h => by
    obtain ⟨rfl, -⟩ := ShapeFields.run_flows_nil.1 h
    exact trivial
  | .cons name value rest, scope, n, m, fs, hn, h => by
    obtain ⟨inner, _, others, hinner, hothers, rfl⟩ := ShapeFields.run_flows_cons.1 h
    exact ⟨value.onlyNavigates_flow hn.1 hinner, rest.onlyNavigates_flows hn.2 hothers⟩

end

/-! ## Queries -/

/-- The path of a query that only navigates does. -/
theorem Expr.OnlyNavigates.path {e : Expr} {flow : NumberedPath} (he : e.OnlyNavigates)
    (h : e.toPath = .ok flow) : flow.path.OnlyNavigates := by
  obtain ⟨c, hc, hstart, hp⟩ := Expr.toPath_eq_ok.1 h
  have hnav := (e.onlyNavigates_chain c hc hstart he.equalities).2 (Nat.le_of_eq he.tables)
  exact c.onlyNavigates_path hnav (fun _ => rfl) hp

end FetchPlan
