import FetchPlan.Query.Shape
import FetchPlan.Proofs.Yields

/-!
# What has which shape

The chains, lambdas and records among shapes, and the expressions that have them: quotes and plain
conversions around an expression do not count (`Expr.unwrap`), and a call is a chain only with the
arguments that its method takes (`Chain.ofCall_eq_ok_iff`).
-/

namespace FetchPlan

variable {c : Chain} {shape : Shape} {type method x : String}

/-! ## Chains and lambdas -/

theorem Shape.asChain_eq_ok : shape.asChain = .ok c ↔ shape = .chain c := by
  cases shape with
  | chain c => simp [asChain]
  | _ => simp [asChain]

theorem Shape.of_asLambda {x : String} {body : Shape}
    (h : shape.asLambda method = .ok (x, body)) : shape = .lambda [x] body := by
  unfold asLambda at h
  split at h
  · obtain ⟨rfl, rfl⟩ := Prod.mk.inj (Except.ok.inj h)
    rfl
  · exact absurd h (by simp)
  · exact absurd h (by simp)
  · exact absurd h (by simp)

theorem Shape.of_ofChain {x : Except Unsupported Chain} (h : Shape.ofChain x = .chain c) :
    x = .ok c := by
  cases x with
  | error reason => exact absurd h (by simp [Shape.ofChain])
  | ok c' => rw [Shape.chain.inj h]

theorem Shape.ofChain_ne_lambda {params : List String} {body : Shape}
    (x : Except Unsupported Chain) : Shape.ofChain x ≠ .lambda params body := by
  cases x with
  | error reason => exact Shape.noConfusion
  | ok c => exact Shape.noConfusion

theorem Shape.ofChain_ne_record {fields : ShapeFields} (x : Except Unsupported Chain) :
    Shape.ofChain x ≠ .record fields := by
  cases x with
  | error reason => exact Shape.noConfusion
  | ok c => exact Shape.noConfusion

/-! ## Calls -/

/-- Both declaring types have the same methods. -/
theorem ChainOp.ofCall_eq_ok {op : ChainOp} : ChainOp.ofCall type method = .ok op ↔
    (type = Expr.queryable ∨ type = Expr.enumerable) ∧ ofMethod? method = some op := by
  unfold ofCall
  split
  · next h => exact iff_of_false (by simp) fun hand => hand.1.elim h.1 h.2
  · next h =>
    rw [and_iff_right (Decidable.or_iff_not_not_and_not.2 h)]
    cases ofMethod? method with
    | none => simp
    | some op' => simp

/-- The chain that a call on these arguments is. Only a test for existence may leave out the
lambda. -/
inductive Chain.Calls (type method : String) : List Shape → Chain → Prop
  | bare {source : Chain} {op : Narrowing} (known : ChainOp.ofCall type method = .ok (.narrow op))
      (existence : op ≠ .filter) : Calls type method [.chain source] (.bare source op)
  | narrow {source : Chain} {op : Narrowing} {x : String} {body : Shape}
      (known : ChainOp.ofCall type method = .ok (.narrow op)) :
      Calls type method [.chain source, .lambda [x] body] (.narrow source op x body)
  | project {source : Chain} {op : Projecting} {x : String} {body : Shape}
      (known : ChainOp.ofCall type method = .ok (.project op)) :
      Calls type method [.chain source, .lambda [x] body] (.project source op x body)

theorem Chain.ofCall_eq_ok_iff {args : List Shape} :
    Chain.ofCall type method args = .ok c ↔ Calls type method args c := by
  constructor
  · intro h
    unfold Chain.ofCall at h
    obtain ⟨op, hop, h⟩ := bind_eq_ok.1 h
    split at h
    · exact absurd h (by simp)
    · next shape rest h =>
      obtain ⟨source, hsource, h⟩ := bind_eq_ok.1 h
      rw [Shape.asChain_eq_ok.1 hsource]
      split at h
      · exact absurd h (by simp)
      · next hne _ _ =>
        obtain rfl := pure_eq_ok.1 h
        exact .bare hop hne
      · exact absurd h (by simp)
      · obtain ⟨⟨x, body⟩, hlambda, h⟩ := bind_eq_ok.1 h
        obtain rfl := pure_eq_ok.1 h
        rw [Shape.of_asLambda hlambda]
        exact .narrow hop
      · obtain ⟨⟨x, body⟩, hlambda, h⟩ := bind_eq_ok.1 h
        obtain rfl := pure_eq_ok.1 h
        rw [Shape.of_asLambda hlambda]
        exact .project hop
      · exact absurd h (by simp)
  · intro h
    unfold Chain.ofCall
    cases h with
    | @bare source op known existence =>
      rw [known]
      cases op with
      | filter => exact absurd rfl existence
      | any => rfl
      | single => rfl
    | narrow known =>
      rw [known]
      rfl
    | project known =>
      rw [known]
      rfl

/-- The calls that are chains: the chain of the first argument goes on, without a lambda or with the
one that is the second argument. -/
theorem Chain.ofCall_eq_ok {args : List Shape} (h : Chain.ofCall type method args = .ok c) :
    (∃ source op, args = [.chain source] ∧ ChainOp.ofMethod? method = some (.narrow op) ∧
        c = .bare source op) ∨
      (∃ source op x body, args = [.chain source, .lambda [x] body] ∧
        ChainOp.ofMethod? method = some (.narrow op) ∧ c = .narrow source op x body) ∨
      ∃ source op x body, args = [.chain source, .lambda [x] body] ∧
        ChainOp.ofMethod? method = some (.project op) ∧ c = .project source op x body := by
  cases Chain.ofCall_eq_ok_iff.1 h with
  | bare known _ => exact Or.inl ⟨_, _, rfl, (ChainOp.ofCall_eq_ok.1 known).2, rfl⟩
  | narrow known =>
    exact Or.inr (Or.inl ⟨_, _, _, _, rfl, (ChainOp.ofCall_eq_ok.1 known).2, rfl⟩)
  | project known =>
    exact Or.inr (Or.inr ⟨_, _, _, _, rfl, (ChainOp.ofCall_eq_ok.1 known).2, rfl⟩)

/-- The chain of a call goes on from the chain of its first argument. A lambda is its second. -/
theorem Chain.of_ofCall {args : List Shape} (h : Chain.ofCall type method args = .ok c) :
    ∃ source rest, args = .chain source :: rest ∧
      ((∃ op, c = .bare source op) ∨ ∃ x body, rest = [.lambda [x] body] ∧
        ((∃ op, c = .narrow source op x body) ∨ ∃ op, c = .project source op x body)) := by
  cases Chain.ofCall_eq_ok_iff.1 h with
  | @bare source op => exact ⟨source, [], rfl, Or.inl ⟨op, rfl⟩⟩
  | @narrow source op x body => exact ⟨source, _, rfl, Or.inr ⟨x, body, rfl, Or.inl ⟨op, rfl⟩⟩⟩
  | @project source op x body => exact ⟨source, _, rfl, Or.inr ⟨x, body, rfl, Or.inr ⟨op, rfl⟩⟩⟩

/-! ## Expressions with these shapes -/

theorem shapes_eq_nil {es : List Expr} (h : shapes es = []) : es = [] := by
  cases es with
  | nil => rfl
  | cons e es => exact absurd h (List.cons_ne_nil _ _)

theorem shapes_eq_cons {es : List Expr} {shape : Shape} {rest : List Shape}
    (h : shapes es = shape :: rest) :
    ∃ e es', es = e :: es' ∧ e.shape = shape ∧ shapes es' = rest := by
  cases es with
  | nil => exact absurd h (List.cons_ne_nil _ _).symm
  | cons e es => exact ⟨e, es, rfl, List.cons.inj h⟩

namespace Expr

/-- The expression without the quotes and plain conversions around it. -/
def unwrap : Expr → Expr
  | quote e | convert e none => e.unwrap
  | e => e

theorem shape_unwrap : ∀ e : Expr, e.unwrap.shape = e.shape
  | quote e => e.shape_unwrap
  | convert e none => e.shape_unwrap
  | convert _ (some _) | table _ | param _ | captured _ | value _ | member .. | call .. | lambda ..
  | binary .. | unary .. | record _ => rfl

theorem sizeOf_unwrap_le : ∀ e : Expr, sizeOf e.unwrap ≤ sizeOf e
  | quote e => by
    have hle := e.sizeOf_unwrap_le
    rw [unwrap, quote.sizeOf_spec]
    omega
  | convert e none => by
    have hle := e.sizeOf_unwrap_le
    rw [unwrap, convert.sizeOf_spec]
    omega
  | convert _ (some _) | table _ | param _ | captured _ | value _ | member .. | call .. | lambda ..
  | binary .. | unary .. | record _ => Nat.le_refl _

/-- An expression with the shape of a lambda is one, if need be wrapped. -/
theorem unwrap_of_shape_lambda {params : List String} {body : Shape} : ∀ e : Expr,
    e.shape = .lambda params body → ∃ b, e.unwrap = .lambda params b ∧ b.shape = body
  | lambda ps b, h => by
    obtain ⟨rfl, rfl⟩ := Shape.lambda.inj h
    exact ⟨b, rfl, rfl⟩
  | quote e, h => e.unwrap_of_shape_lambda h
  | convert e none, h => e.unwrap_of_shape_lambda h
  | member .., h => absurd h (Shape.ofChain_ne_lambda _)
  | call .., h => absurd h (Shape.ofChain_ne_lambda _)

/-- An expression with the shape of a record is one, if need be wrapped. -/
theorem unwrap_of_shape_record {fields : ShapeFields} : ∀ e : Expr, e.shape = .record fields →
    ∃ es, e.unwrap = .record es ∧ fieldShapes es = fields
  | record es, h => ⟨es, rfl, Shape.record.inj h⟩
  | quote e, h => e.unwrap_of_shape_record h
  | convert e none, h => e.unwrap_of_shape_record h
  | member .., h => absurd h (Shape.ofChain_ne_record _)
  | call .., h => absurd h (Shape.ofChain_ne_record _)

/-- What a wrapped lambda binds its parameter in is a smaller expression. -/
theorem sizeOf_body_lt {e b : Expr} {params : List String} (h : e.unwrap = .lambda params b) :
    sizeOf b < sizeOf e := by
  have hle := e.sizeOf_unwrap_le
  rw [h, lambda.sizeOf_spec] at hle
  omega

/-- The fields of a wrapped record are smaller. -/
theorem sizeOf_fields_lt {e : Expr} {es : List (String × Expr)} (h : e.unwrap = .record es) :
    sizeOf es < sizeOf e := by
  have hle := e.sizeOf_unwrap_le
  rw [h, record.sizeOf_spec] at hle
  omega

end Expr
end FetchPlan
