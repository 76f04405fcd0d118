import FetchPlan.Flow.OfQuery
import FetchPlan.Proofs.Yields

/-!
# How steps are numbered

A numbering succeeds exactly if the numberings of its parts do, one after the other. The lemmas
below say so for every kind of operand and of step.
-/

namespace FetchPlan

variable {n m k target : Nat} {scope scope' : Scope} {x : String} {f : Flow} {p q : Path}

/-! ## Single operations -/

section Operations

variable {α β : Type} {a b : α} {c : β}

/-- A part of a numbering that succeeds succeeds. -/
theorem run_bind_eq_ok {x : Numbering α} {f : α → Numbering β} :
    (x >>= f).run n = .ok (c, m) ↔ ∃ a k, x.run n = .ok (a, k) ∧ (f a).run k = .ok (c, m) := by
  rw [StateT.run_bind, bind_eq_ok, Prod.exists]

theorem run_pure_eq_ok : (pure a : Numbering α).run n = .ok (b, m) ↔ a = b ∧ n = m := by
  rw [StateT.run_pure, pure_eq_ok, Prod.mk.injEq]

/-- A step is numbered with the state. -/
theorem run_fresh_bind {f : Nat → Numbering β} :
    (Numbering.fresh >>= f).run n = .ok (c, m) ↔ (f n).run (n + 1) = .ok (c, m) := Iff.rfl

/-- The last step is numbered with the state. -/
theorem run_fresh_pure {f : Nat → α} :
    (Numbering.fresh >>= fun id => pure (f id)).run n = .ok (b, m) ↔ b = f n ∧ m = n + 1 := by
  rw [run_fresh_bind, run_pure_eq_ok, eq_comm, eq_comm (a := n + 1)]

theorem not_run_throw {e : Error} : ¬ (throw e : Numbering α).run n = .ok (a, m) := by
  intro h
  exact absurd h (by simp [throw, throwThe, MonadExceptOf.throw, StateT.run, StateT.lift, bind,
    Except.bind])

theorem run_lift_bind {x : Except Error α} {f : α → Numbering β} :
    ((liftM x : Numbering α) >>= f).run n = .ok (c, m) ↔
      ∃ a, x = .ok a ∧ (f a).run n = .ok (c, m) := by
  have hrun : ((liftM x : Numbering α) >>= f).run n = x >>= fun a => (f a).run n := by
    cases x with
    | error e => rfl
    | ok a => rfl
  rw [hrun, bind_eq_ok]

/-- A check lets the numbering go on or ends it. -/
theorem run_check {P : Prop} [Decidable P] {e : Error} {f : PUnit → Numbering α} {y : Numbering α} :
    (if P then y else throw e >>= f).run n = .ok (a, m) ↔ P ∧ y.run n = .ok (a, m) := by
  split
  · next h => rw [and_iff_right h]
  · next h =>
    refine iff_of_false ?_ fun hand => h hand.1
    intro hrun
    obtain ⟨_, _, hthrow, -⟩ := run_bind_eq_ok.1 hrun
    exact not_run_throw hthrow

end Operations

/-! ## Operands -/

namespace Shape

/-- Only literals and captured variables take part. -/
def isFixed : Shape → Bool
  | .literal | .captured => true
  | .binary _ lhs rhs => lhs.isFixed && rhs.isFixed
  | .unary _ operand => operand.isFixed
  | _ => false

variable {lhs rhs operand : Shape}

theorem run_flow_literal : (Shape.literal.flow scope).run n = .ok (f, m) ↔
    f = .fixed n ∧ m = n + 1 := by
  rw [flow]
  exact run_fresh_pure

theorem run_flow_captured : (Shape.captured.flow scope).run n = .ok (f, m) ↔
    f = .fixed n ∧ m = n + 1 := by
  rw [flow]
  exact run_fresh_pure

/-- The operands of an operation are numbered before it. -/
theorem run_flow_binary {op : BinaryOp} :
    ((Shape.binary op lhs rhs).flow scope).run n = .ok (f, m) ↔ op.isSupported ∧
      ∃ f₁ k₁ f₂ k₂, (lhs.flow scope).run n = .ok (f₁, k₁) ∧ (rhs.flow scope).run k₁ = .ok (f₂, k₂) ∧
        f = .binary k₂ op f₁ f₂ ∧ m = k₂ + 1 := by
  rw [flow]
  refine run_check.trans (and_congr_right fun _ => ⟨?_, ?_⟩)
  · intro h
    obtain ⟨f₁, k₁, hl, h⟩ := run_bind_eq_ok.1 h
    obtain ⟨f₂, k₂, hr, h⟩ := run_bind_eq_ok.1 h
    obtain ⟨rfl, rfl⟩ := run_fresh_pure.1 h
    exact ⟨f₁, k₁, f₂, k₂, hl, hr, rfl, rfl⟩
  · rintro ⟨f₁, k₁, f₂, k₂, hl, hr, rfl, rfl⟩
    exact run_bind_eq_ok.2 ⟨f₁, k₁, hl, run_bind_eq_ok.2 ⟨f₂, k₂, hr, run_fresh_pure.2 ⟨rfl, rfl⟩⟩⟩

/-- The operand of an operation is numbered before it. -/
theorem run_flow_unary {op : UnaryOp} :
    ((Shape.unary op operand).flow scope).run n = .ok (f, m) ↔ op.isSupported ∧
      ∃ f' k, (operand.flow scope).run n = .ok (f', k) ∧ f = .unary k op f' ∧ m = k + 1 := by
  rw [flow]
  refine run_check.trans (and_congr_right fun _ => ⟨?_, ?_⟩)
  · intro h
    obtain ⟨f', k, ho, h⟩ := run_bind_eq_ok.1 h
    obtain ⟨rfl, rfl⟩ := run_fresh_pure.1 h
    exact ⟨f', k, ho, rfl, rfl⟩
  · rintro ⟨f', k, ho, rfl, rfl⟩
    exact run_bind_eq_ok.2 ⟨f', k, ho, run_fresh_pure.2 ⟨rfl, rfl⟩⟩

theorem run_flow_chain {c : Chain} : ((Shape.chain c).flow scope).run n = .ok (f, m) ↔
    ∃ p, (c.path scope).run n = .ok (p, m) ∧ f = .path p := by
  rw [flow]
  constructor
  · intro h
    obtain ⟨p, k, hp, h⟩ := run_bind_eq_ok.1 h
    obtain ⟨rfl, rfl⟩ := run_pure_eq_ok.1 h
    exact ⟨p, hp, rfl⟩
  · rintro ⟨p, hp, rfl⟩
    exact run_bind_eq_ok.2 ⟨p, m, hp, run_pure_eq_ok.2 ⟨rfl, rfl⟩⟩

/-- A flow is fixed if its shape is. -/
theorem isFixed_of_run_flow : ∀ (shape : Shape) {n m : Nat} {f : Flow},
    (shape.flow scope).run n = .ok (f, m) → f.isFixed = shape.isFixed
  | .literal, n, m, f, h => by
    obtain ⟨rfl, -⟩ := run_flow_literal.1 h
    rfl
  | .captured, n, m, f, h => by
    obtain ⟨rfl, -⟩ := run_flow_captured.1 h
    rfl
  | .binary op lhs rhs, n, m, f, h => by
    obtain ⟨-, f₁, k₁, f₂, k₂, hl, hr, rfl, -⟩ := run_flow_binary.1 h
    rw [isFixed, Flow.isFixed, lhs.isFixed_of_run_flow hl, rhs.isFixed_of_run_flow hr]
  | .unary op operand, n, m, f, h => by
    obtain ⟨-, f', k, ho, rfl, -⟩ := run_flow_unary.1 h
    exact (operand.isFixed_of_run_flow ho : f'.isFixed = operand.isFixed)
  | .chain c, n, m, f, h => by
    obtain ⟨p, -, rfl⟩ := run_flow_chain.1 h
    rfl
  | .lambda _ _, n, m, f, h => absurd h not_run_throw
  | .record _, n, m, f, h => absurd h not_run_throw
  | .converted _, n, m, f, h => absurd h not_run_throw
  | .broken _, n, m, f, h => absurd h not_run_throw

/-- Numbers grow. -/
theorem le_of_isFixed : ∀ (shape : Shape) {n m : Nat} {f : Flow}, shape.isFixed →
    (shape.flow scope).run n = .ok (f, m) → n ≤ m
  | .literal, n, m, f, _, h => by
    obtain ⟨-, rfl⟩ := run_flow_literal.1 h
    exact Nat.le_succ n
  | .captured, n, m, f, _, h => by
    obtain ⟨-, rfl⟩ := run_flow_captured.1 h
    exact Nat.le_succ n
  | .binary op lhs rhs, n, m, f, hfixed, h => by
    obtain ⟨-, f₁, k₁, f₂, k₂, hl, hr, -, rfl⟩ := run_flow_binary.1 h
    rw [isFixed, Bool.and_eq_true] at hfixed
    have hle₁ := lhs.le_of_isFixed hfixed.1 hl
    have hle₂ := rhs.le_of_isFixed hfixed.2 hr
    omega
  | .unary op operand, n, m, f, hfixed, h => by
    obtain ⟨-, f', k, ho, -, rfl⟩ := run_flow_unary.1 h
    exact Nat.le_succ_of_le (operand.le_of_isFixed hfixed ho)

end Shape

theorem ShapeFields.run_flows_nil {fs : FlowFields} :
    (ShapeFields.nil.flows scope).run n = .ok (fs, m) ↔ fs = .nil ∧ m = n := by
  rw [flows, run_pure_eq_ok, eq_comm, eq_comm (a := n)]

/-- The fields of a record are numbered in order. -/
theorem ShapeFields.run_flows_cons {name : String} {value : Shape} {rest : ShapeFields}
    {fs : FlowFields} : ((ShapeFields.cons name value rest).flows scope).run n = .ok (fs, m) ↔
      ∃ f k fs', (value.flow scope).run n = .ok (f, k) ∧ (rest.flows scope).run k = .ok (fs', m) ∧
        fs = .cons name f fs' := by
  rw [flows]
  constructor
  · intro h
    obtain ⟨f, k, hf, h⟩ := run_bind_eq_ok.1 h
    obtain ⟨fs', _, hfs, h⟩ := run_bind_eq_ok.1 h
    obtain ⟨rfl, rfl⟩ := run_pure_eq_ok.1 h
    exact ⟨f, k, fs', hf, hfs, rfl⟩
  · rintro ⟨f, k, fs', hf, hfs, rfl⟩
    exact run_bind_eq_ok.2 ⟨f, k, hf, run_bind_eq_ok.2 ⟨fs', m, hfs, run_pure_eq_ok.2 ⟨rfl, rfl⟩⟩⟩

/-! ## Steps -/

theorem Scope.bind_eq_ok : scope.bind x target = .ok scope' ↔
    scope.resolve? x = none ∧ scope' = (x, target) :: scope := by
  unfold Scope.bind
  cases scope.resolve? x with
  | none => simp [eq_comm]
  | some target' => simp

theorem Path.binding_eq_ok {call : String} : p.binding call = .ok target ↔
    p.rowSource? = some target := by
  unfold binding
  cases p.rowSource? with
  | none => simp
  | some target' => simp

/-- The step that a member access takes. -/
def Path.step (p : Path) (id : Nat) : Member → Path
  | .column name => .column p id name
  | .projected name => .output p id name
  | .association a => .association p id a.thisKey a.otherRelation a.otherKey

/-- A member access takes a step on from rows. -/
theorem Path.run_access {m : Member} : (p.access m).run n = .ok (q, k) ↔
    p.rowSource?.isSome ∧ q = p.step n m ∧ k = n + 1 := by
  unfold access
  dsimp only
  split
  · next hnone =>
    have hnot : ¬ p.rowSource?.isSome := by
      rw [Option.isNone_iff_eq_none.1 hnone]
      exact Bool.false_ne_true
    refine iff_of_false ?_ fun h => hnot h.1
    intro h
    obtain ⟨_, _, hthrow, -⟩ := run_bind_eq_ok.1 h
    exact not_run_throw hthrow
  · next hsome =>
    rw [Bool.not_eq_true, Option.isNone_eq_false_iff] at hsome
    rw [and_iff_right hsome]
    cases m with
    | _ => exact run_fresh_pure

namespace Chain

variable {source : Chain} {body : Shape}

theorem run_path_table {relation : String} :
    ((Chain.table relation).path scope).run n = .ok (p, m) ↔ p = .table n relation ∧ m = n + 1 := by
  rw [path]
  exact run_fresh_pure

theorem run_path_param : ((Chain.param x).path scope).run n = .ok (p, m) ↔
    ∃ target, scope.resolve? x = some target ∧ p = .reference n target ∧ m = n + 1 := by
  rw [path]
  cases scope.resolve? x with
  | none =>
    refine iff_of_false not_run_throw ?_
    rintro ⟨target, h, -⟩
    exact absurd h (by simp)
  | some target =>
    refine run_fresh_pure.trans ⟨fun h => ⟨target, rfl, h⟩, ?_⟩
    rintro ⟨target', h, hrest⟩
    obtain rfl := Option.some.inj h
    exact hrest

theorem run_path_member {m' : Member} :
    ((Chain.member source m').path scope).run n = .ok (p, m) ↔
      ∃ q k, (source.path scope).run n = .ok (q, k) ∧ q.rowSource?.isSome ∧ p = q.step k m' ∧
        m = k + 1 := by
  rw [path, run_bind_eq_ok]
  simp only [Path.run_access]

/-- The condition of a call is numbered after its source, with the parameter bound to the rows of
the source. -/
theorem run_path_narrow {op : Narrowing} :
    ((Chain.narrow source op x body).path scope).run n = .ok (p, m) ↔
      ∃ q k target f k', (source.path scope).run n = .ok (q, k) ∧ q.rowSource? = some target ∧
        scope.resolve? x = none ∧ (body.flow ((x, target) :: scope)).run k = .ok (f, k') ∧
        p = .filter q k' f ∧ m = k' + 1 := by
  rw [path]
  constructor
  · intro h
    obtain ⟨q, k, hq, h⟩ := run_bind_eq_ok.1 h
    obtain ⟨target, htarget, h⟩ := run_lift_bind.1 h
    obtain ⟨scope', hscope, h⟩ := run_lift_bind.1 h
    obtain ⟨hnew, rfl⟩ := Scope.bind_eq_ok.1 hscope
    obtain ⟨f, k', hf, h⟩ := run_bind_eq_ok.1 h
    obtain ⟨rfl, rfl⟩ := run_fresh_pure.1 h
    exact ⟨q, k, target, f, k', hq, Path.binding_eq_ok.1 htarget, hnew, hf, rfl, rfl⟩
  · rintro ⟨q, k, target, f, k', hq, htarget, hnew, hf, rfl, rfl⟩
    exact run_bind_eq_ok.2 ⟨q, k, hq, run_lift_bind.2 ⟨target, Path.binding_eq_ok.2 htarget,
      run_lift_bind.2 ⟨_, Scope.bind_eq_ok.2 ⟨hnew, rfl⟩,
        run_bind_eq_ok.2 ⟨f, k', hf, run_fresh_pure.2 ⟨rfl, rfl⟩⟩⟩⟩⟩

/-- What a call makes of a row is numbered all at once, or field by field. -/
inductive NumbersOutputs (scope : Scope) (n : Nat) : Shape → Outputs → Nat → Prop
  | single {body : Shape} {f : Flow} {m : Nat} (h : (body.flow scope).run n = .ok (f, m)) :
      NumbersOutputs scope n body (.single f) m
  | record {fields : ShapeFields} {fs : FlowFields} {m : Nat}
      (h : (fields.flows scope).run n = .ok (fs, m)) :
      NumbersOutputs scope n (.record fields) (.record fs) m

/-- What a call makes of a row is numbered in the same way as a condition. -/
theorem run_path_project {op : Projecting} :
    ((Chain.project source op x body).path scope).run n = .ok (p, m) ↔
      ∃ q k target outputs k', (source.path scope).run n = .ok (q, k) ∧
        q.rowSource? = some target ∧ scope.resolve? x = none ∧
        NumbersOutputs ((x, target) :: scope) k body outputs k' ∧ p = .select q k' outputs ∧
        m = k' + 1 := by
  constructor
  · intro h
    cases body with
    | record fields =>
      rw [path] at h
      obtain ⟨q, k, hq, h⟩ := run_bind_eq_ok.1 h
      obtain ⟨target, htarget, h⟩ := run_lift_bind.1 h
      obtain ⟨scope', hscope, h⟩ := run_lift_bind.1 h
      obtain ⟨hnew, rfl⟩ := Scope.bind_eq_ok.1 hscope
      obtain ⟨fs, k', hfs, h⟩ := run_bind_eq_ok.1 h
      obtain ⟨rfl, rfl⟩ := run_fresh_pure.1 h
      exact ⟨q, k, target, _, k', hq, Path.binding_eq_ok.1 htarget, hnew, .record hfs, rfl, rfl⟩
    | _ =>
      rw [path] at h
      · obtain ⟨q, k, hq, h⟩ := run_bind_eq_ok.1 h
        obtain ⟨target, htarget, h⟩ := run_lift_bind.1 h
        obtain ⟨scope', hscope, h⟩ := run_lift_bind.1 h
        obtain ⟨hnew, rfl⟩ := Scope.bind_eq_ok.1 hscope
        obtain ⟨f, k', hf, h⟩ := run_bind_eq_ok.1 h
        obtain ⟨rfl, rfl⟩ := run_fresh_pure.1 h
        exact ⟨q, k, target, _, k', hq, Path.binding_eq_ok.1 htarget, hnew, .single hf, rfl, rfl⟩
      · intro fields heq
        exact Shape.noConfusion heq
  · rintro ⟨q, k, target, outputs, k', hq, htarget, hnew, houtputs, rfl, rfl⟩
    have hbinding : q.binding op.name = .ok target := Path.binding_eq_ok.2 htarget
    have hbind : scope.bind x target = .ok ((x, target) :: scope) :=
      Scope.bind_eq_ok.2 ⟨hnew, rfl⟩
    cases houtputs with
    | record hfs =>
      rw [path]
      exact run_bind_eq_ok.2 ⟨q, k, hq, run_lift_bind.2 ⟨target, hbinding, run_lift_bind.2 ⟨_, hbind,
        run_bind_eq_ok.2 ⟨_, k', hfs, run_fresh_pure.2 ⟨rfl, rfl⟩⟩⟩⟩⟩
    | single hf =>
      rw [path]
      · exact run_bind_eq_ok.2 ⟨q, k, hq, run_lift_bind.2 ⟨target, hbinding, run_lift_bind.2 ⟨_, hbind,
          run_bind_eq_ok.2 ⟨_, k', hf, run_fresh_pure.2 ⟨rfl, rfl⟩⟩⟩⟩⟩
      · -- A record on its own is no operand.
        rintro fields rfl
        exact not_run_throw hf

end Chain

/-! ## Queries -/

/-- The path of a query is that of its chain, with the steps numbered from zero. -/
theorem Expr.toPath_eq_ok {e : Expr} {flow : NumberedPath} : e.toPath = .ok flow ↔
    ∃ c, e.shape = .chain c ∧ c.startsAtTable ∧
      (c.path []).run 0 = .ok (flow.path, flow.count) := by
  have hthrow : ∀ {err : Error} {f : PUnit → Except Error NumberedPath},
      (throw err >>= f) ≠ .ok flow := by
    intro err f
    simp [throw, throwThe, MonadExceptOf.throw, bind, Except.bind]
  unfold Expr.toPath
  dsimp only
  constructor
  · intro h
    split at h
    · exact absurd h hthrow
    · split at h
      · next c hc =>
        split at h
        · next hstart =>
          obtain ⟨⟨p, count⟩, hp, h⟩ := bind_eq_ok.1 h
          obtain rfl := pure_eq_ok.1 h
          exact ⟨c, hc, hstart, hp⟩
        · exact absurd h hthrow
      · exact absurd h (by simp [throw, throwThe, MonadExceptOf.throw])
  · rintro ⟨c, hc, hstart, hp⟩
    -- A chain is no operand that is refused.
    rw [hc]
    simp only [Shape.refusal?, if_pos hstart, hp]
    rfl

end FetchPlan
