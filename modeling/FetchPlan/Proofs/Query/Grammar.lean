import FetchPlan.Proofs.Flow.Numbering
import FetchPlan.Proofs.Query.Shapes

/-!
# The query language

The queries that have a path are those of a grammar (`Expr.exists_toPath_iff`). It is stated on
expressions alone: which calls a chain may go on with, which parameters are bound where, and where
quotes and plain conversions may stand.
-/

namespace FetchPlan

namespace Expr

/-- The expression leads back to a relation. -/
def startsAtTable : Expr → Bool
  | table _ => true
  | quote e | convert e none | member e _ | call _ _ (e :: _) => e.startsAtTable
  | _ => false

/-- The declaring types of calls. -/
def callTypes : List String := [queryable, enumerable]

/-- The methods of calls that keep the rows that satisfy a condition. -/
def conditionMethods : List String := ["Where", "Any", "Single"]

/-- The methods of calls that need no condition. -/
def existenceMethods : List String := ["Any", "Single"]

/-- The methods of calls that make something else out of a row. -/
def projectionMethods : List String := ["Select", "SelectMany"]

mutual

/-- A chain in which the parameters of `scope` are bound. It goes on from `rows`, or is a column of
them. -/
inductive IsChain : List String → Bool → Expr → Prop
  | quote {scope : List String} {rows : Bool} {e : Expr} (inner : IsChain scope rows e) :
      IsChain scope rows (.quote e)
  | convert {scope : List String} {rows : Bool} {e : Expr} (inner : IsChain scope rows e) :
      IsChain scope rows (.convert e none)
  | table {scope : List String} (relation : String) : IsChain scope true (.table relation)
  | param {scope : List String} {x : String} (bound : x ∈ scope) : IsChain scope true (.param x)
  | column {scope : List String} {base : Expr} (name : String) (source : IsChain scope true base) :
      IsChain scope false (.member base (.column name))
  | association {scope : List String} {base : Expr} (a : Association)
      (source : IsChain scope true base) : IsChain scope true (.member base (.association a))
  | projected {scope : List String} {base : Expr} (name : String)
      (source : IsChain scope true base) : IsChain scope true (.member base (.projected name))
  /-- Without a condition, a call may also follow a column. -/
  | existence {scope : List String} {rows : Bool} {type method : String} {base : Expr}
      (declared : type ∈ callTypes) (known : method ∈ existenceMethods)
      (source : IsChain scope rows base) : IsChain scope rows (.call type method [base])
  | condition {scope : List String} {type method x : String} {base lambda body : Expr}
      (declared : type ∈ callTypes) (known : method ∈ conditionMethods)
      (source : IsChain scope true base) (binder : lambda.unwrap = .lambda [x] body)
      (unbound : x ∉ scope) (inner : IsOperand (x :: scope) body) :
      IsChain scope true (.call type method [base, lambda])
  | projection {scope : List String} {type method x : String} {base lambda body : Expr}
      (declared : type ∈ callTypes) (known : method ∈ projectionMethods)
      (source : IsChain scope true base) (binder : lambda.unwrap = .lambda [x] body)
      (unbound : x ∉ scope) (inner : IsResult (x :: scope) body) :
      IsChain scope true (.call type method [base, lambda])

/-- An operand in which the parameters of `scope` are bound. -/
inductive IsOperand : List String → Expr → Prop
  | quote {scope : List String} {e : Expr} (inner : IsOperand scope e) : IsOperand scope (.quote e)
  | convert {scope : List String} {e : Expr} (inner : IsOperand scope e) :
      IsOperand scope (.convert e none)
  | chain {scope : List String} {rows : Bool} {e : Expr} (inner : IsChain scope rows e) :
      IsOperand scope e
  | value {scope : List String} (v : Value) : IsOperand scope (.value v)
  | captured {scope : List String} (name : String) : IsOperand scope (.captured name)
  | binary {scope : List String} {op : BinaryOp} {lhs rhs : Expr}
      (supported : op.isLogical ∨ op.isComparison ∨ op.isArithmetic) (left : IsOperand scope lhs)
      (right : IsOperand scope rhs) : IsOperand scope (.binary op lhs rhs)
  | unary {scope : List String} {op : UnaryOp} {operand : Expr}
      (supported : op = .not ∨ op = .negate) (inner : IsOperand scope operand) :
      IsOperand scope (.unary op operand)

/-- What a projection may make of a row: an operand, or a record of operands. -/
inductive IsResult : List String → Expr → Prop
  | operand {scope : List String} {e : Expr} (inner : IsOperand scope e) : IsResult scope e
  | record {scope : List String} {e : Expr} {fields : List (String × Expr)}
      (construction : e.unwrap = .record fields)
      (inner : ∀ field ∈ fields, IsOperand scope field.2) : IsResult scope e

end

/-- A query is a chain that leads back to a relation. -/
def IsQuery (e : Expr) : Prop := e.startsAtTable ∧ ∃ rows, e.IsChain [] rows

end Expr

variable {scope : Scope} {names : List String} {rows : Bool} {n m : Nat} {x type method : String}
  {base lambda body e lhs rhs arg : Expr}

/-! ## Methods -/

namespace ChainOp

theorem ofMethod?_eq_some {op : ChainOp} : ofMethod? method = some op ↔ (method, op) ∈
    [("Where", narrow .filter), ("Any", narrow .any), ("Single", narrow .single),
      ("Select", project .select), ("SelectMany", project .selectMany)] := by
  unfold ofMethod?
  split <;> simp_all [eq_comm]

theorem mem_callTypes : type ∈ Expr.callTypes ↔ type = Expr.queryable ∨ type = Expr.enumerable := by
  simp [Expr.callTypes]

/-- The calls with a condition are those that keep rows. -/
theorem exists_ofCall_condition : (∃ op, ofCall type method = .ok (.narrow op)) ↔
    type ∈ Expr.callTypes ∧ method ∈ Expr.conditionMethods := by
  simp only [ofCall_eq_ok, mem_callTypes, exists_and_left, ofMethod?_eq_some]
  refine and_congr_right fun _ => ?_
  simp [Expr.conditionMethods, exists_or]

/-- The calls that need no condition test for existence. -/
theorem exists_ofCall_existence :
    (∃ op : Narrowing, ofCall type method = .ok (.narrow op) ∧ op ≠ .filter) ↔
      type ∈ Expr.callTypes ∧ method ∈ Expr.existenceMethods := by
  simp only [ofCall_eq_ok, mem_callTypes, and_assoc, exists_and_left, ofMethod?_eq_some]
  refine and_congr_right fun _ => ?_
  simp [Expr.existenceMethods, or_and_right, exists_or, and_assoc]

theorem exists_ofCall_projection : (∃ op, ofCall type method = .ok (.project op)) ↔
    type ∈ Expr.callTypes ∧ method ∈ Expr.projectionMethods := by
  simp only [ofCall_eq_ok, mem_callTypes, exists_and_left, ofMethod?_eq_some]
  refine and_congr_right fun _ => ?_
  simp [Expr.projectionMethods, exists_or]

end ChainOp

theorem BinaryOp.isSupported_iff {op : BinaryOp} :
    op.isSupported ↔ op.isLogical ∨ op.isComparison ∨ op.isArithmetic := by
  rw [isSupported, Bool.or_eq_true, Bool.or_eq_true, or_assoc]

theorem UnaryOp.isSupported_iff {op : UnaryOp} : op.isSupported ↔ op = .not ∨ op = .negate := by
  cases op with
  | _ => decide

/-! ## Names in scope -/

/-- The bound parameters, the innermost first. -/
abbrev Scope.params (scope : Scope) : List String := scope.map Prod.fst

theorem Scope.resolve?_eq_none_iff : scope.resolve? x = none ↔ x ∉ scope.params := by
  rw [resolve?, List.lookup_eq_none_iff]
  simp only [bne_iff_ne, List.mem_map, not_exists, not_and, ne_comm, ne_eq]

/-! ## Queries of the grammar have a path -/

namespace Expr

/-- In every scope of these names, the expression is a chain that has a path. -/
def ChainRuns (names : List String) (rows : Bool) (e : Expr) : Prop :=
  ∀ (scope : Scope) (n : Nat), scope.params = names →
    ∃ c p m, e.shape = .chain c ∧ (c.path scope).run n = .ok (p, m) ∧ p.rowSource?.isSome = rows

/-- In every scope of these names, the expression is an operand that has a flow. -/
def OperandRuns (names : List String) (e : Expr) : Prop :=
  ∀ (scope : Scope) (n : Nat), scope.params = names →
    ∃ f m, (e.shape.flow scope).run n = .ok (f, m)

/-- In every scope of these names, the expression is the result of a projection. -/
def ResultRuns (names : List String) (e : Expr) : Prop :=
  ∀ (scope : Scope) (n : Nat), scope.params = names →
    ∃ outputs m, Chain.NumbersOutputs scope n e.shape outputs m

theorem chainRuns_table {relation : String} : ChainRuns names true (table relation) :=
  fun _ _ _ => ⟨_, _, _, rfl, Chain.run_path_table.2 ⟨rfl, rfl⟩, rfl⟩

theorem chainRuns_param (bound : x ∈ names) : ChainRuns names true (param x) := by
  rintro scope n rfl
  have hsome : scope.resolve? x ≠ none := fun hnone => Scope.resolve?_eq_none_iff.1 hnone bound
  obtain ⟨target, htarget⟩ := Option.ne_none_iff_exists'.1 hsome
  exact ⟨_, _, _, rfl, Chain.run_path_param.2 ⟨target, htarget, rfl, rfl⟩, rfl⟩

/-- A member may follow rows. -/
theorem ChainRuns.member (h : ChainRuns names true base) (m : Member)
    (hrows : ∀ p id, (Path.step p id m).rowSource?.isSome = rows) :
    ChainRuns names rows (.member base m) := by
  intro scope n hnames
  obtain ⟨c, p, k, hshape, hp, hsome⟩ := h scope n hnames
  have hmember : (Expr.member base m).shape = .chain (.member c m) := by
    rw [shape, hshape]
    rfl
  exact ⟨_, _, _, hmember, Chain.run_path_member.2 ⟨p, k, hp, hsome, rfl, rfl⟩, hrows p k⟩

theorem shape_call {c : Chain} {args : List Expr} (h : Chain.Calls type method (shapes args) c) :
    (call type method args).shape = .chain c := by
  rw [shape, Chain.ofCall_eq_ok_iff.2 h]
  rfl

/-- A test for existence may follow any chain. -/
theorem ChainRuns.existence (declared : type ∈ callTypes) (known : method ∈ existenceMethods)
    (h : ChainRuns names rows base) : ChainRuns names rows (call type method [base]) := by
  intro scope n hnames
  obtain ⟨c, p, m, hshape, hp, hrows⟩ := h scope n hnames
  obtain ⟨op, hop, hne⟩ := ChainOp.exists_ofCall_existence.2 ⟨declared, known⟩
  have hcalls : Chain.Calls type method (shapes [base]) (.bare c op) := by
    rw [shapes, shapes, hshape]
    exact .bare hop hne
  refine ⟨_, p, m, shape_call hcalls, ?_, hrows⟩
  rw [Chain.path]
  exact hp

/-- A wrapped lambda has the shape of a lambda. -/
theorem shape_of_unwrap_lambda (h : lambda.unwrap = .lambda [x] body) :
    lambda.shape = .lambda [x] body.shape := by
  rw [← shape_unwrap, h, shape]

/-- A condition may follow rows. -/
theorem ChainRuns.condition (declared : type ∈ callTypes) (known : method ∈ conditionMethods)
    (h : ChainRuns names true base) (binder : lambda.unwrap = .lambda [x] body)
    (unbound : x ∉ names) (hinner : OperandRuns (x :: names) body) :
    ChainRuns names true (call type method [base, lambda]) := by
  rintro scope n rfl
  obtain ⟨c, p, k, hshape, hp, hrows⟩ := h scope n rfl
  obtain ⟨target, htarget⟩ := Option.isSome_iff_exists.1 hrows
  obtain ⟨f, k', hf⟩ := hinner ((x, target) :: scope) k rfl
  obtain ⟨op, hop⟩ := ChainOp.exists_ofCall_condition.2 ⟨declared, known⟩
  have hcalls : Chain.Calls type method (shapes [base, lambda]) (.narrow c op x body.shape) := by
    rw [shapes, shapes, shapes, hshape, shape_of_unwrap_lambda binder]
    exact .narrow hop
  have hnew : scope.resolve? x = none := Scope.resolve?_eq_none_iff.2 unbound
  refine ⟨_, .filter p k' f, k' + 1, shape_call hcalls, ?_, hrows⟩
  exact Chain.run_path_narrow.2 ⟨p, k, target, f, k', hp, htarget, hnew, hf, rfl, rfl⟩

/-- A projection may follow rows. -/
theorem ChainRuns.projection (declared : type ∈ callTypes) (known : method ∈ projectionMethods)
    (h : ChainRuns names true base) (binder : lambda.unwrap = .lambda [x] body)
    (unbound : x ∉ names) (hinner : ResultRuns (x :: names) body) :
    ChainRuns names true (call type method [base, lambda]) := by
  rintro scope n rfl
  obtain ⟨c, p, k, hshape, hp, hrows⟩ := h scope n rfl
  obtain ⟨target, htarget⟩ := Option.isSome_iff_exists.1 hrows
  obtain ⟨outputs, k', houtputs⟩ := hinner ((x, target) :: scope) k rfl
  obtain ⟨op, hop⟩ := ChainOp.exists_ofCall_projection.2 ⟨declared, known⟩
  have hcalls : Chain.Calls type method (shapes [base, lambda]) (.project c op x body.shape) := by
    rw [shapes, shapes, shapes, hshape, shape_of_unwrap_lambda binder]
    exact .project hop
  have hnew : scope.resolve? x = none := Scope.resolve?_eq_none_iff.2 unbound
  refine ⟨_, .select p k' outputs, k' + 1, shape_call hcalls, ?_, rfl⟩
  exact Chain.run_path_project.2
    ⟨p, k, target, outputs, k', hp, htarget, hnew, houtputs, rfl, rfl⟩

theorem ChainRuns.operand (h : ChainRuns names rows e) : OperandRuns names e := by
  intro scope n hnames
  obtain ⟨c, p, m, hshape, hp, -⟩ := h scope n hnames
  rw [hshape]
  exact ⟨_, _, Shape.run_flow_chain.2 ⟨p, hp, rfl⟩⟩

theorem OperandRuns.binary {op : BinaryOp} (hop : op.isSupported) (hl : OperandRuns names lhs)
    (hr : OperandRuns names rhs) : OperandRuns names (binary op lhs rhs) := by
  intro scope n hnames
  obtain ⟨f₁, k₁, hf₁⟩ := hl scope n hnames
  obtain ⟨f₂, k₂, hf₂⟩ := hr scope k₁ hnames
  exact ⟨_, _, Shape.run_flow_binary.2 ⟨hop, f₁, k₁, f₂, k₂, hf₁, hf₂, rfl, rfl⟩⟩

theorem OperandRuns.unary {op : UnaryOp} (hop : op.isSupported) (h : OperandRuns names arg) :
    OperandRuns names (unary op arg) := by
  intro scope n hnames
  obtain ⟨f, k, hf⟩ := h scope n hnames
  exact ⟨_, _, Shape.run_flow_unary.2 ⟨hop, f, k, hf, rfl, rfl⟩⟩

theorem OperandRuns.result (h : OperandRuns names e) : ResultRuns names e := by
  intro scope n hnames
  obtain ⟨f, m, hf⟩ := h scope n hnames
  exact ⟨_, m, .single hf⟩

/-- The fields of a record are numbered one after the other. -/
theorem exists_run_flows : ∀ {fields : List (String × Expr)},
    (∀ field ∈ fields, OperandRuns scope.params field.2) → ∀ n,
    ∃ fs m, ((fieldShapes fields).flows scope).run n = .ok (fs, m)
  | [], _, n => ⟨_, n, ShapeFields.run_flows_nil.2 ⟨rfl, rfl⟩⟩
  | (name, e) :: fields, h, n => by
    obtain ⟨f, k, hf⟩ := h (name, e) List.mem_cons_self scope n rfl
    obtain ⟨fs, m, hfs⟩ := exists_run_flows
      (fun field hfield => h field (List.mem_cons_of_mem _ hfield)) k
    exact ⟨_, m, ShapeFields.run_flows_cons.2 ⟨f, k, fs, hf, hfs, rfl⟩⟩

theorem resultRuns_record {fields : List (String × Expr)} (construction : e.unwrap = .record fields)
    (h : ∀ field ∈ fields, OperandRuns names field.2) : ResultRuns names e := by
  rintro scope n rfl
  obtain ⟨fs, m, hfs⟩ := exists_run_flows h n
  rw [← shape_unwrap, construction]
  exact ⟨_, m, .record hfs⟩

mutual

theorem IsChain.runs : ∀ {names : List String} {rows : Bool} {e : Expr}, e.IsChain names rows →
    ChainRuns names rows e
  | _, _, _, .quote inner => inner.runs
  | _, _, _, .convert inner => inner.runs
  | _, _, _, .table _ => chainRuns_table
  | _, _, _, .param bound => chainRuns_param bound
  | _, _, _, .column name source => source.runs.member (.column name) fun _ _ => rfl
  | _, _, _, .association a source => source.runs.member (.association a) fun _ _ => rfl
  | _, _, _, .projected name source => source.runs.member (.projected name) fun _ _ => rfl
  | _, _, _, .existence declared known source => source.runs.existence declared known
  | _, _, _, .condition declared known source binder unbound inner =>
    source.runs.condition declared known binder unbound inner.runs
  | _, _, _, .projection declared known source binder unbound inner =>
    source.runs.projection declared known binder unbound inner.runs

theorem IsOperand.runs : ∀ {names : List String} {e : Expr}, e.IsOperand names →
    OperandRuns names e
  | _, _, .quote inner => inner.runs
  | _, _, .convert inner => inner.runs
  | _, _, .chain inner => inner.runs.operand
  | _, _, .value _ => fun _ _ _ => ⟨_, _, Shape.run_flow_literal.2 ⟨rfl, rfl⟩⟩
  | _, _, .captured _ => fun _ _ _ => ⟨_, _, Shape.run_flow_captured.2 ⟨rfl, rfl⟩⟩
  | _, _, .binary supported left right =>
    left.runs.binary (BinaryOp.isSupported_iff.2 supported) right.runs
  | _, _, .unary supported inner => inner.runs.unary (UnaryOp.isSupported_iff.2 supported)

theorem IsResult.runs : ∀ {names : List String} {e : Expr}, e.IsResult names → ResultRuns names e
  | _, _, .operand inner => inner.runs.result
  | _, _, .record construction inner =>
    resultRuns_record construction fun field hfield => (inner field hfield).runs

end

/-! ## Expressions that have a path are in the grammar -/

/-- Where the expression is a chain that has a path, it is one of the grammar. -/
def ChainSound (e : Expr) : Prop :=
  ∀ ⦃scope : Scope⦄ ⦃n m : Nat⦄ ⦃c : Chain⦄ ⦃p : Path⦄, e.shape = .chain c →
    (c.path scope).run n = .ok (p, m) → e.IsChain scope.params p.rowSource?.isSome

/-- Where the expression is an operand that has a flow, it is one of the grammar. -/
def OperandSound (e : Expr) : Prop :=
  ∀ ⦃scope : Scope⦄ ⦃n m : Nat⦄ ⦃f : Flow⦄, (e.shape.flow scope).run n = .ok (f, m) →
    e.IsOperand scope.params

/-- Where the fields have flows, they are operands of the grammar. -/
def FieldsSound (fields : List (String × Expr)) : Prop :=
  ∀ ⦃scope : Scope⦄ ⦃n m : Nat⦄ ⦃fs : FlowFields⦄,
    ((fieldShapes fields).flows scope).run n = .ok (fs, m) →
    ∀ field ∈ fields, field.2.IsOperand scope.params

/-! ### Chains -/

theorem chainSound_table {relation : String} : ChainSound (table relation) := by
  intro scope n m c p hc hp
  obtain rfl := Shape.chain.inj hc
  obtain ⟨rfl, -⟩ := Chain.run_path_table.1 hp
  exact .table relation

theorem chainSound_param : ChainSound (param x) := by
  intro scope n m c p hc hp
  obtain rfl := Shape.chain.inj hc
  obtain ⟨target, htarget, rfl, -⟩ := Chain.run_path_param.1 hp
  refine .param (Decidable.byContradiction fun hnot => ?_)
  rw [Scope.resolve?_eq_none_iff.2 hnot] at htarget
  exact absurd htarget (Option.some_ne_none target).symm

theorem ChainSound.member {m' : Member} (h : ChainSound base) : ChainSound (member base m') := by
  intro scope n m c p hc hp
  obtain ⟨source, hbase, hmember⟩ := bind_eq_ok.1 (Shape.of_ofChain hc)
  obtain rfl := pure_eq_ok.1 hmember
  obtain ⟨q, k, hq, hrows, rfl, -⟩ := Chain.run_path_member.1 hp
  have hsource := h (Shape.asChain_eq_ok.1 hbase) hq
  rw [hrows] at hsource
  cases m' with
  | column name => exact .column name hsource
  | association a => exact .association a hsource
  | projected name => exact .projected name hsource

theorem chainSound_of_ne (h : ∀ c, e.shape ≠ .chain c) : ChainSound e :=
  fun _ _ _ _ _ hc => absurd hc (h _)

/-- The condition of a call is in the grammar if its lambda is. -/
theorem ChainSound.condition {source : Chain} {op : Narrowing} {p : Path}
    (h : ChainSound base) (hbody : OperandSound body) (hshape : base.shape = .chain source)
    (binder : lambda.unwrap = .lambda [x] body)
    (hop : ChainOp.ofCall type method = .ok (.narrow op))
    (hp : ((Chain.narrow source op x body.shape).path scope).run n = .ok (p, m)) :
    IsChain scope.params p.rowSource?.isSome (call type method [base, lambda]) := by
  obtain ⟨q, k, target, f, k', hq, htarget, hnew, hf, rfl, -⟩ := Chain.run_path_narrow.1 hp
  obtain ⟨declared, known⟩ := ChainOp.exists_ofCall_condition.1 ⟨op, hop⟩
  have hrows : q.rowSource?.isSome = true := by rw [htarget, Option.isSome_some]
  have hsource := h hshape hq
  show IsChain scope.params q.rowSource?.isSome _
  rw [hrows] at hsource ⊢
  exact .condition declared known hsource binder (Scope.resolve?_eq_none_iff.1 hnew) (hbody hf)

/-- What a call makes of a row is in the grammar if its lambda is. -/
theorem ChainSound.projection {source : Chain} {op : Projecting} {p : Path}
    (h : ChainSound base) (hbody : OperandSound body)
    (hfields : ∀ fields, sizeOf fields < sizeOf body → FieldsSound fields)
    (hshape : base.shape = .chain source) (binder : lambda.unwrap = .lambda [x] body)
    (hop : ChainOp.ofCall type method = .ok (.project op))
    (hp : ((Chain.project source op x body.shape).path scope).run n = .ok (p, m)) :
    IsChain scope.params p.rowSource?.isSome (call type method [base, lambda]) := by
  obtain ⟨q, k, target, outputs, k', hq, htarget, hnew, houtputs, rfl, -⟩ :=
    Chain.run_path_project.1 hp
  obtain ⟨declared, known⟩ := ChainOp.exists_ofCall_projection.1 ⟨op, hop⟩
  have hsource := h hshape hq
  rw [htarget, Option.isSome_some] at hsource
  refine .projection declared known hsource binder (Scope.resolve?_eq_none_iff.1 hnew) ?_
  generalize hbshape : body.shape = shape at houtputs
  cases houtputs with
  | single hf =>
    rw [← hbshape] at hf
    exact .operand (hbody hf)
  | record hfs =>
    obtain ⟨fields, hunwrap, rfl⟩ := body.unwrap_of_shape_record hbshape
    exact .record hunwrap (hfields fields (sizeOf_fields_lt hunwrap) hfs)

theorem chainSound_call {args : List Expr} (hchain : ∀ e ∈ args, ChainSound e)
    (hoperand : ∀ e ∈ args, ∀ b : Expr, sizeOf b < sizeOf e → OperandSound b)
    (hfields : ∀ e ∈ args, ∀ fields : List (String × Expr), sizeOf fields < sizeOf e →
      FieldsSound fields) : ChainSound (call type method args) := by
  intro scope n m c p hc hp
  have hcalls := Chain.ofCall_eq_ok_iff.1 (Shape.of_ofChain hc)
  generalize hargs : shapes args = ss at hcalls
  cases hcalls with
  | bare hop hne =>
    obtain ⟨base, es, rfl, hbase, hrest⟩ := shapes_eq_cons hargs
    obtain rfl := shapes_eq_nil hrest
    obtain ⟨declared, known⟩ := ChainOp.exists_ofCall_existence.1 ⟨_, hop, hne⟩
    rw [Chain.path] at hp
    exact .existence declared known (hchain base List.mem_cons_self hbase hp)
  | narrow hop =>
    obtain ⟨base, es, rfl, hbase, hrest⟩ := shapes_eq_cons hargs
    obtain ⟨e, es, rfl, hlambda, hrest⟩ := shapes_eq_cons hrest
    obtain rfl := shapes_eq_nil hrest
    obtain ⟨b, hunwrap, rfl⟩ := e.unwrap_of_shape_lambda hlambda
    have he : e ∈ [base, e] := List.mem_cons_of_mem base List.mem_cons_self
    exact (hchain base List.mem_cons_self).condition (hoperand e he b (sizeOf_body_lt hunwrap))
      hbase hunwrap hop hp
  | project hop =>
    obtain ⟨base, es, rfl, hbase, hrest⟩ := shapes_eq_cons hargs
    obtain ⟨e, es, rfl, hlambda, hrest⟩ := shapes_eq_cons hrest
    obtain rfl := shapes_eq_nil hrest
    obtain ⟨b, hunwrap, rfl⟩ := e.unwrap_of_shape_lambda hlambda
    have he : e ∈ [base, e] := List.mem_cons_of_mem base List.mem_cons_self
    have hsize := sizeOf_body_lt hunwrap
    exact (hchain base List.mem_cons_self).projection (hoperand e he b hsize)
      (fun fields hlt => hfields e he fields (Nat.lt_trans hlt hsize)) hbase hunwrap hop hp

/-! ### Operands -/

/-- A chain is an operand if it has a path. -/
theorem ChainSound.operand {x : Except Unsupported Chain} (h : ChainSound e)
    (hshape : e.shape = .ofChain x) : OperandSound e := by
  intro scope n m f hf
  cases x with
  | error reason =>
    rw [hshape] at hf
    exact absurd hf not_run_throw
  | ok c =>
    rw [hshape] at hf
    obtain ⟨p, hp, -⟩ := Shape.run_flow_chain.1 hf
    exact .chain (h hshape hp)

/-- What is refused as an operand has no flow. -/
theorem operandSound_of_refused
    (h : ∀ (scope : Scope) n f m, (e.shape.flow scope).run n ≠ .ok (f, m)) : OperandSound e :=
  fun _ _ _ _ hf => absurd hf (h _ _ _ _)

theorem OperandSound.binary {op : BinaryOp} (hl : OperandSound lhs) (hr : OperandSound rhs) :
    OperandSound (binary op lhs rhs) := by
  intro scope n m f hf
  obtain ⟨hop, f₁, k₁, f₂, k₂, hleft, hright, -, -⟩ := Shape.run_flow_binary.1 hf
  exact .binary (BinaryOp.isSupported_iff.1 hop) (hl hleft) (hr hright)

theorem OperandSound.unary {op : UnaryOp} (h : OperandSound arg) :
    OperandSound (unary op arg) := by
  intro scope n m f hf
  obtain ⟨hop, f', k, harg, -, -⟩ := Shape.run_flow_unary.1 hf
  exact .unary (UnaryOp.isSupported_iff.1 hop) (h harg)

theorem FieldsSound.cons {name : String} {fields : List (String × Expr)} (h : OperandSound e)
    (hrest : FieldsSound fields) : FieldsSound ((name, e) :: fields) := by
  intro scope n m fs hfs
  obtain ⟨f, k, fs', hf, hfs', -⟩ := ShapeFields.run_flows_cons.1 hfs
  exact List.forall_mem_cons.2 ⟨h hf, hrest hfs'⟩

/-! ### All expressions -/

mutual

theorem chainSound : ∀ e : Expr, ChainSound e
  | .table _ => chainSound_table
  | .param _ => chainSound_param
  | .member base _ => base.chainSound.member
  | .call type method args => by
    refine chainSound_call ?_ ?_ ?_
    · intro e he
      have hsize : sizeOf e < sizeOf args := List.sizeOf_lt_of_mem he
      exact e.chainSound
    · intro e he b hb
      have hsize : sizeOf b < sizeOf args := Nat.lt_trans hb (List.sizeOf_lt_of_mem he)
      exact b.operandSound
    · intro e he fields hlt
      have hsize : sizeOf fields < sizeOf args := Nat.lt_trans hlt (List.sizeOf_lt_of_mem he)
      exact fieldsSound fields
  | .quote e => fun _ _ _ _ _ hc hp => .quote (e.chainSound hc hp)
  | .convert e none => fun _ _ _ _ _ hc hp => .convert (e.chainSound hc hp)
  | .convert _ (some _) => chainSound_of_ne fun _ => Shape.noConfusion
  | .captured _ => chainSound_of_ne fun _ => Shape.noConfusion
  | .value _ => chainSound_of_ne fun _ => Shape.noConfusion
  | .lambda .. => chainSound_of_ne fun _ => Shape.noConfusion
  | .binary .. => chainSound_of_ne fun _ => Shape.noConfusion
  | .unary .. => chainSound_of_ne fun _ => Shape.noConfusion
  | .record _ => chainSound_of_ne fun _ => Shape.noConfusion
termination_by e => (sizeOf e, 0)

theorem operandSound : ∀ e : Expr, OperandSound e
  | .table relation => (chainSound (.table relation)).operand (x := .ok _) rfl
  | .param name => (chainSound (.param name)).operand (x := .ok _) rfl
  | .member base m => (chainSound (.member base m)).operand rfl
  | .call type method args => (chainSound (.call type method args)).operand rfl
  | .quote e => fun _ _ _ _ hf => .quote (e.operandSound hf)
  | .convert e none => fun _ _ _ _ hf => .convert (e.operandSound hf)
  | .binary _ lhs rhs => lhs.operandSound.binary rhs.operandSound
  | .unary _ arg => arg.operandSound.unary
  | .captured name => fun _ _ _ _ _ => .captured name
  | .value v => fun _ _ _ _ _ => .value v
  | .convert _ (some _) => operandSound_of_refused fun _ _ _ _ => not_run_throw
  | .lambda .. => operandSound_of_refused fun _ _ _ _ => not_run_throw
  | .record _ => operandSound_of_refused fun _ _ _ _ => not_run_throw
termination_by e => (sizeOf e, 1)

theorem fieldsSound : ∀ fields : List (String × Expr), FieldsSound fields
  | [] => fun _ _ _ _ _ _ hfield => absurd hfield List.not_mem_nil
  | (_, e) :: fields => .cons e.operandSound (fieldsSound fields)
termination_by fields => (sizeOf fields, 0)

end

/-! ## Queries -/

/-- A chain starts where its expression leads back to. -/
theorem startsAtTable_of_shape : ∀ (e : Expr) {c : Chain}, e.shape = .chain c →
    c.startsAtTable = e.startsAtTable
  | .table _, c, hc => by
    obtain rfl := Shape.chain.inj hc
    rfl
  | .param _, c, hc => by
    obtain rfl := Shape.chain.inj hc
    rfl
  | .quote e, c, hc => e.startsAtTable_of_shape hc
  | .convert e none, c, hc => e.startsAtTable_of_shape hc
  | .member base m, c, hc => by
    obtain ⟨source, hbase, hmember⟩ := bind_eq_ok.1 (Shape.of_ofChain hc)
    obtain rfl := pure_eq_ok.1 hmember
    show source.startsAtTable = base.startsAtTable
    exact base.startsAtTable_of_shape (Shape.asChain_eq_ok.1 hbase)
  | .call type method [], c, hc => by
    obtain ⟨source, rest, hargs, -⟩ := Chain.of_ofCall (Shape.of_ofChain hc)
    exact absurd hargs (by simp [shapes])
  | .call type method (e :: es), c, hc => by
    obtain ⟨source, rest, hargs, hcases⟩ := Chain.of_ofCall (Shape.of_ofChain hc)
    have hsource := e.startsAtTable_of_shape (List.cons.inj hargs).1
    rcases hcases with ⟨op, rfl⟩ | ⟨x, body, -, ⟨op, rfl⟩ | ⟨op, rfl⟩⟩
    · exact hsource
    · exact hsource
    · exact hsource

/-- The queries that have a path are those of the grammar. -/
theorem exists_toPath_iff : (∃ flow, e.toPath = .ok flow) ↔ e.IsQuery := by
  constructor
  · rintro ⟨flow, h⟩
    obtain ⟨c, hc, hstart, hp⟩ := toPath_eq_ok.1 h
    refine ⟨?_, _, e.chainSound hc hp⟩
    rw [← e.startsAtTable_of_shape hc]
    exact hstart
  · rintro ⟨hstart, rows, hchain⟩
    obtain ⟨c, p, m, hc, hp, -⟩ := hchain.runs [] 0 rfl
    rw [← e.startsAtTable_of_shape hc] at hstart
    exact ⟨⟨p, m⟩, toPath_eq_ok.2 ⟨c, hc, hstart, hp⟩⟩

end Expr
end FetchPlan
