import FetchPlan.Planner
import FetchPlan.Proofs.Query.Respelled

/-!
# The spelling of a query

A path has no names of parameters, no values and nothing of a test for existence. So queries that
differ in spelling only have the same path, or none, and the same plan
(`Planner.toOption_plan_of_sameUpToSpelling`).
-/

namespace FetchPlan

variable {f : String → String} {shape shape' : Shape} {c c' : Chain} {n m : Nat} {scope : Scope}
  {e e' : Expr}

/-! ## Renamed scopes -/

/-- The scope with other names for the parameters. -/
def Scope.rename (scope : Scope) (f : String → String) : Scope := scope.map fun p => (f p.1, p.2)

theorem Scope.rename_cons {x : String} {target : Nat} :
    Scope.rename ((x, target) :: scope) f = (f x, target) :: scope.rename f := rfl

theorem Scope.resolve?_rename (hf : f.Injective) (x : String) :
    (scope.rename f).resolve? (f x) = scope.resolve? x := by
  induction scope with
  | nil => rfl
  | cons p scope ih =>
    obtain ⟨y, target⟩ := p
    rw [rename_cons, resolve?, resolve?, List.lookup_cons, List.lookup_cons]
    by_cases hxy : x = y
    · subst hxy
      rw [beq_self_eq_true, beq_self_eq_true]
    · rw [beq_false_of_ne hxy, beq_false_of_ne (hf.ne hxy)]
      exact ih

/-! ## Numbering -/

theorem Shape.run_flow_of_isValue {fl : Flow} (h : shape.isValue) :
    (shape.flow scope).run n = .ok (fl, m) ↔ fl = .fixed n ∧ m = n + 1 := by
  cases shape with
  | literal => exact run_flow_literal
  | captured => exact run_flow_captured
  | _ => exact absurd h Bool.false_ne_true

/-- What a call makes of a row is numbered as an operand, or as a record. -/
theorem Chain.numbersOutputs_iff {outputs : Outputs} : NumbersOutputs scope n shape outputs m ↔
    (∃ fl, (shape.flow scope).run n = .ok (fl, m) ∧ outputs = .single fl) ∨
      ∃ fields fs, shape = .record fields ∧ (fields.flows scope).run n = .ok (fs, m) ∧
        outputs = .record fs := by
  constructor
  · intro h
    cases h with
    | single hf => exact Or.inl ⟨_, hf, rfl⟩
    | record hfs => exact Or.inr ⟨_, _, rfl, hfs, rfl⟩
  · rintro (⟨fl, hf, rfl⟩ | ⟨fields, fs, rfl, hfs, rfl⟩)
    · exact .single hf
    · exact .record hfs

/-- The shapes are numbered alike, once the parameters are renamed, both as operands and as what a
call makes of a row. -/
structure Shape.SameRuns (f : String → String) (shape shape' : Shape) : Prop where
  flow : ∀ (scope : Scope) n fl m, (shape.flow scope).run n = .ok (fl, m) ↔
    (shape'.flow (scope.rename f)).run n = .ok (fl, m)
  outputs : ∀ (scope : Scope) n outputs m, Chain.NumbersOutputs scope n shape outputs m ↔
    Chain.NumbersOutputs (scope.rename f) n shape' outputs m

/-- See `Shape.SameRuns`. -/
def Chain.SameRuns (f : String → String) (c c' : Chain) : Prop :=
  ∀ (scope : Scope) n p m, (c.path scope).run n = .ok (p, m) ↔
    (c'.path (scope.rename f)).run n = .ok (p, m)

/-- See `Shape.SameRuns`. -/
def ShapeFields.SameRuns (f : String → String) (fields fields' : ShapeFields) : Prop :=
  ∀ (scope : Scope) n fs m, (fields.flows scope).run n = .ok (fs, m) ↔
    (fields'.flows (scope.rename f)).run n = .ok (fs, m)

/-- Shapes that are no records are numbered only as operands. -/
theorem Shape.sameRuns_of_flow (hne : ∀ fields, shape ≠ .record fields)
    (hne' : ∀ fields, shape' ≠ .record fields)
    (h : ∀ (scope : Scope) n fl m, (shape.flow scope).run n = .ok (fl, m) ↔
      (shape'.flow (scope.rename f)).run n = .ok (fl, m)) : SameRuns f shape shape' := by
  refine ⟨h, ?_⟩
  intro scope n outputs m
  simp only [Chain.numbersOutputs_iff, h, hne, hne', false_and, exists_false, or_false]

theorem Shape.not_record_of_isValue (h : shape.isValue) (fields : ShapeFields) :
    shape ≠ .record fields := by
  rintro rfl
  exact absurd h Bool.false_ne_true

theorem Shape.sameRuns_value (h : shape.isValue) (h' : shape'.isValue) :
    SameRuns f shape shape' := by
  refine sameRuns_of_flow (not_record_of_isValue h) (not_record_of_isValue h') ?_
  intro scope n fl m
  rw [run_flow_of_isValue h, run_flow_of_isValue h']

/-- Neither shape is an operand. -/
theorem Shape.sameRuns_of_refused (hne : ∀ fields, shape ≠ .record fields)
    (hne' : ∀ fields, shape' ≠ .record fields)
    (h : ∀ (scope : Scope) n fl m, (shape.flow scope).run n ≠ .ok (fl, m))
    (h' : ∀ (scope : Scope) n fl m, (shape'.flow scope).run n ≠ .ok (fl, m)) :
    SameRuns f shape shape' :=
  sameRuns_of_flow hne hne' fun _ _ _ _ => iff_of_false (h _ _ _ _) (h' _ _ _ _)

namespace Shape.SameRuns

variable {lhs lhs' rhs rhs' operand operand' : Shape}

theorem binary {op : BinaryOp} (hl : SameRuns f lhs lhs') (hr : SameRuns f rhs rhs') :
    SameRuns f (.binary op lhs rhs) (.binary op lhs' rhs') := by
  refine sameRuns_of_flow (fun _ => Shape.noConfusion) (fun _ => Shape.noConfusion) ?_
  intro scope n fl m
  simp only [run_flow_binary, hl.flow, hr.flow]

theorem unary {op : UnaryOp} (h : SameRuns f operand operand') :
    SameRuns f (.unary op operand) (.unary op operand') := by
  refine sameRuns_of_flow (fun _ => Shape.noConfusion) (fun _ => Shape.noConfusion) ?_
  intro scope n fl m
  simp only [run_flow_unary, h.flow]

theorem chain (h : c.SameRuns f c') : SameRuns f (.chain c) (.chain c') := by
  refine sameRuns_of_flow (fun _ => Shape.noConfusion) (fun _ => Shape.noConfusion) ?_
  intro scope n fl m
  simp only [run_flow_chain, h scope]

theorem record {fields fields' : ShapeFields} (h : fields.SameRuns f fields') :
    SameRuns f (.record fields) (.record fields') := by
  have hflow : ∀ (scope : Scope) (gs : ShapeFields) n fl m,
      ((Shape.record gs).flow scope).run n ≠ .ok (fl, m) := fun _ _ _ _ _ => not_run_throw
  refine ⟨fun _ _ _ _ => iff_of_false (hflow _ _ _ _ _) (hflow _ _ _ _ _), ?_⟩
  intro scope n outputs m
  simp [Chain.numbersOutputs_iff, hflow, h scope]

end Shape.SameRuns

namespace Chain.SameRuns

variable {source source' : Chain} {x : String} {body body' : Shape}

theorem member {m' : Member} (h : source.SameRuns f source') :
    SameRuns f (.member source m') (.member source' m') := by
  intro scope n p m
  simp only [run_path_member, h scope]

theorem narrow (hf : f.Injective) {op op' : Narrowing} (h : source.SameRuns f source')
    (hbody : body.SameRuns f body') :
    SameRuns f (.narrow source op x body) (.narrow source' op' (f x) body') := by
  intro scope n p m
  simp only [run_path_narrow, h scope, hbody.flow, Scope.rename_cons, Scope.resolve?_rename hf]

theorem project (hf : f.Injective) {op op' : Projecting} (h : source.SameRuns f source')
    (hbody : body.SameRuns f body') :
    SameRuns f (.project source op x body) (.project source' op' (f x) body') := by
  intro scope n p m
  simp only [run_path_project, h scope, hbody.outputs, Scope.rename_cons, Scope.resolve?_rename hf]

end Chain.SameRuns

mutual

/-- Shapes that differ in spelling are numbered alike. -/
theorem Shape.Respelled.sameRuns (hf : f.Injective) : ∀ {shape shape' : Shape},
    shape.Respelled f shape' → shape.SameRuns f shape'
  | _, _, .value left right => Shape.sameRuns_value left right
  | _, _, .binary left right => (left.sameRuns hf).binary (right.sameRuns hf)
  | _, _, .unary inner => (inner.sameRuns hf).unary
  | _, _, .chain inner => .chain (inner.sameRuns hf)
  | _, _, .lambda _ => Shape.sameRuns_of_refused (fun _ => Shape.noConfusion)
    (fun _ => Shape.noConfusion) (fun _ _ _ _ => not_run_throw) fun _ _ _ _ => not_run_throw
  | _, _, .record inner => .record (inner.sameRuns hf)
  | _, _, .converted _ => Shape.sameRuns_of_refused (fun _ => Shape.noConfusion)
    (fun _ => Shape.noConfusion) (fun _ _ _ _ => not_run_throw) fun _ _ _ _ => not_run_throw
  | _, _, .broken _ _ => Shape.sameRuns_of_refused (fun _ => Shape.noConfusion)
    (fun _ => Shape.noConfusion) (fun _ _ _ _ => not_run_throw) fun _ _ _ _ => not_run_throw

theorem Chain.Respelled.sameRuns (hf : f.Injective) : ∀ {c c' : Chain}, c.Respelled f c' →
    c.SameRuns f c'
  | _, _, .table _ => fun _ _ _ _ => by rw [Chain.run_path_table, Chain.run_path_table]
  | _, _, .param name => fun _ _ _ _ => by
    simp only [Chain.run_path_param, Scope.resolve?_rename hf]
  | _, _, .member inner => (inner.sameRuns hf).member
  | _, _, .bareLeft inner => fun scope n p m => by
    rw [Chain.path]
    exact inner.sameRuns hf scope n p m
  | _, _, .bareRight inner => fun scope n p m => by
    rw [Chain.path]
    exact inner.sameRuns hf scope n p m
  | _, _, .narrow inner condition => (inner.sameRuns hf).narrow hf (condition.sameRuns hf)
  | _, _, .project inner result => (inner.sameRuns hf).project hf (result.sameRuns hf)

theorem ShapeFields.Respelled.sameRuns (hf : f.Injective) : ∀ {fields fields' : ShapeFields},
    fields.Respelled f fields' → fields.SameRuns f fields'
  | _, _, .nil => fun _ _ _ _ => by
    rw [ShapeFields.run_flows_nil, ShapeFields.run_flows_nil]
  | _, _, .cons head tail => fun scope _ _ _ => by
    simp only [ShapeFields.run_flows_cons, (head.sameRuns hf).flow, tail.sameRuns hf scope]

end

/-! ## Queries -/

theorem Chain.Respelled.startsAtTable : ∀ {c c' : Chain}, c.Respelled f c' →
    c'.startsAtTable = c.startsAtTable
  | _, _, .table _ => rfl
  | _, _, .param _ => rfl
  | _, _, .member inner => inner.startsAtTable
  | _, _, .bareLeft inner => inner.startsAtTable
  | _, _, .bareRight inner => inner.startsAtTable
  | _, _, .narrow inner _ => inner.startsAtTable
  | _, _, .project inner _ => inner.startsAtTable

/-- Queries that differ in spelling have the same path. -/
theorem Expr.Respelled.toPath_eq_ok_iff (hf : f.Injective) (h : e.Respelled f e')
    (flow : NumberedPath) : e.toPath = .ok flow ↔ e'.toPath = .ok flow := by
  rw [toPath_eq_ok, toPath_eq_ok]
  have hshape := h.shape
  constructor
  · rintro ⟨c, hc, hstart, hp⟩
    rw [hc] at hshape
    generalize e'.shape = shape' at hshape ⊢
    cases hshape with
    | value left _ => exact absurd left Bool.false_ne_true
    | @chain _ c' inner =>
      exact ⟨c', rfl, inner.startsAtTable ▸ hstart, (inner.sameRuns hf [] 0 _ _).1 hp⟩
  · rintro ⟨c', hc', hstart, hp⟩
    rw [hc'] at hshape
    generalize e.shape = shape at hshape ⊢
    cases hshape with
    | value _ right => exact absurd right Bool.false_ne_true
    | @chain c _ inner =>
      exact ⟨c, rfl, inner.startsAtTable ▸ hstart, (inner.sameRuns hf [] 0 _ _).2 hp⟩

section Outcomes

variable {ε α β : Type} {x y : Except ε α}

theorem toOption_eq_of_iff (h : ∀ a, x = .ok a ↔ y = .ok a) : x.toOption = y.toOption := by
  cases x with
  | ok a => rw [(h a).1 rfl]
  | error reason =>
    cases y with
    | ok a => exact absurd ((h a).2 rfl) (by simp)
    | error reason' => rfl

/-- What follows a computation depends on its result only. -/
theorem toOption_bind_congr (h : x.toOption = y.toOption) (g : α → Except ε β) :
    (x >>= g).toOption = (y >>= g).toOption := by
  cases x with
  | ok a =>
    cases y with
    | ok b =>
      obtain rfl := Option.some.inj h
      rfl
    | error reason' => exact absurd h (Option.some_ne_none a)
  | error reason =>
    cases y with
    | ok b => exact absurd h (Option.some_ne_none b).symm
    | error reason' => rfl

end Outcomes

theorem Expr.SameUpToSpelling.toOption_toPath (h : e.SameUpToSpelling e') :
    e.toPath.toOption = e'.toPath.toOption := by
  induction h with
  | refl => rfl
  | tail _ hstep ih =>
    obtain ⟨f, hf, hrespelled⟩ := hstep
    exact ih.trans (toOption_eq_of_iff (hrespelled.toPath_eq_ok_iff hf))

namespace Planner

/-- The path is all that a plan has of the query. -/
theorem toOption_plan_congr (h : e.toPath.toOption = e'.toPath.toOption) (p : Planner) :
    (p.plan e).result.toOption = (p.plan e').result.toOption := by
  unfold plan
  rw [Traced.result_bind, Traced.result_bind]
  exact toOption_bind_congr h _

/-- Queries that differ in spelling only have the same path, the same batch and the same text, or
none. -/
theorem plan_respelled (h : e.SameUpToSpelling e') : e.toPath.toOption = e'.toPath.toOption ∧
    ∀ p : Planner, (p.plan e).result.toOption = (p.plan e').result.toOption ∧
      (p.sql e).result.toOption = (p.sql e').result.toOption := by
  have hpath := h.toOption_toPath
  refine ⟨hpath, fun p => ?_⟩
  have hplan := toOption_plan_congr hpath p
  refine ⟨hplan, ?_⟩
  unfold sql
  rw [Traced.result_bind, Traced.result_bind]
  exact toOption_bind_congr hplan _

/-- The customers of a name that is given. -/
def namedCustomers : Expr :=
  .filter (.table "Customer") (.lambda ["c"]
    (.binary .eq (.member (.param "c") (.column "Name")) (.captured "name")))

/-- The same query with a literal, another parameter, other calls and more around it. -/
def namedCustomersRespelled : Expr :=
  .call Expr.enumerable "Single" [.call Expr.queryable "Any" [.quote (.table "Customer")],
    .lambda ["_c"] (.binary .eq (.convert (.member (.param "_c") (.column "Name")) none)
      (.value (.string "Ann")))]

theorem plan_namedCustomers : namedCustomers.SameUpToSpelling namedCustomersRespelled ∧
    (∃ flow, namedCustomers.toPath = .ok flow) ∧
    namedCustomers.toPath.toOption = namedCustomersRespelled.toPath.toOption ∧
    ∀ p : Planner,
      (p.plan namedCustomers).result.toOption = (p.plan namedCustomersRespelled).result.toOption ∧
        (p.sql namedCustomers).result.toOption =
          (p.sql namedCustomersRespelled).result.toOption := by
  have hinjective : Function.Injective ("_" ++ · : String → String) := fun _ _ h =>
    (String.append_right_inj "_").1 h
  have hbody : (Expr.binary .eq (.member (.param "c") (.column "Name")) (.captured "name")).Respelled
      ("_" ++ ·) (.binary .eq (.convert (.member (.param "_c") (.column "Name")) none)
        (.value (.string "Ann"))) :=
    .binary (.convertRight (.member (.param "c"))) (.fixed rfl rfl)
  have hsource : (Expr.table "Customer").Respelled ("_" ++ ·)
      (.call Expr.queryable "Any" [.quote (.table "Customer")]) :=
    .existenceRight (by decide) (by decide) rfl (.quoteRight (.table "Customer"))
  have hrespelled : namedCustomers.Respelled ("_" ++ ·) namedCustomersRespelled :=
    .call (Or.inr (by decide)) (Or.inr (Or.inr (by decide)))
      (.cons hsource (.cons (.quoteLeft (.lambda hbody)) .nil))
  have hspelling : namedCustomers.SameUpToSpelling namedCustomersRespelled :=
    .single ⟨_, hinjective, hrespelled⟩
  exact ⟨hspelling, ⟨_, rfl⟩, plan_respelled hspelling⟩

end Planner

end FetchPlan
