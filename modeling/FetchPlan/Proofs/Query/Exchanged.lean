import FetchPlan.Query.Shape
import FetchPlan.Proofs.Flow.Numbering
import Mathlib.Data.List.Forall2

/-!
# Queries with operands exchanged

Two queries that differ only in the order of the operands of some operations, at any depth
(`Expr.Exchanged`). Their shapes differ in the same way, or neither of them is a chain
(`Expr.Exchanged.shape`).
-/

namespace FetchPlan

mutual

/-- The operands of some operations are exchanged. -/
inductive Expr.Exchanged : Expr → Expr → Prop
  | table (relation : String) : Expr.Exchanged (.table relation) (.table relation)
  | param (name : String) : Expr.Exchanged (.param name) (.param name)
  | captured (name : String) : Expr.Exchanged (.captured name) (.captured name)
  | value (v : Value) : Expr.Exchanged (.value v) (.value v)
  | member {base base' : Expr} {m : Member} (inner : Expr.Exchanged base base') :
      Expr.Exchanged (.member base m) (.member base' m)
  | call {type method : String} {args args' : List Expr} (inner : Expr.ArgsExchanged args args') :
      Expr.Exchanged (.call type method args) (.call type method args')
  | lambda {params : List String} {body body' : Expr} (inner : Expr.Exchanged body body') :
      Expr.Exchanged (.lambda params body) (.lambda params body')
  | quote {e e' : Expr} (inner : Expr.Exchanged e e') : Expr.Exchanged (.quote e) (.quote e')
  | convert {e e' : Expr} {method : Option String} (inner : Expr.Exchanged e e') :
      Expr.Exchanged (.convert e method) (.convert e' method)
  | binary {op : BinaryOp} {lhs lhs' rhs rhs' : Expr} (left : Expr.Exchanged lhs lhs')
      (right : Expr.Exchanged rhs rhs') :
      Expr.Exchanged (.binary op lhs rhs) (.binary op lhs' rhs')
  | swapped {op : BinaryOp} {lhs lhs' rhs rhs' : Expr} (left : Expr.Exchanged lhs lhs')
      (right : Expr.Exchanged rhs rhs') :
      Expr.Exchanged (.binary op lhs rhs) (.binary op rhs' lhs')
  | unary {op : UnaryOp} {operand operand' : Expr} (inner : Expr.Exchanged operand operand') :
      Expr.Exchanged (.unary op operand) (.unary op operand')
  | record {fields fields' : List (String × Expr)} (inner : Expr.FieldsExchanged fields fields') :
      Expr.Exchanged (.record fields) (.record fields')

/-- See `Expr.Exchanged`. -/
inductive Expr.ArgsExchanged : List Expr → List Expr → Prop
  | nil : Expr.ArgsExchanged [] []
  | cons {e e' : Expr} {es es' : List Expr} (head : Expr.Exchanged e e')
      (tail : Expr.ArgsExchanged es es') : Expr.ArgsExchanged (e :: es) (e' :: es')

/-- See `Expr.Exchanged`. -/
inductive Expr.FieldsExchanged : List (String × Expr) → List (String × Expr) → Prop
  | nil : Expr.FieldsExchanged [] []
  | cons {name : String} {e e' : Expr} {es es' : List (String × Expr)}
      (head : Expr.Exchanged e e') (tail : Expr.FieldsExchanged es es') :
      Expr.FieldsExchanged ((name, e) :: es) ((name, e') :: es')

end

mutual

/-- The operands of some operations are exchanged. -/
inductive Shape.Exchanged : Shape → Shape → Prop
  | literal : Shape.Exchanged .literal .literal
  | captured : Shape.Exchanged .captured .captured
  | binary {op : BinaryOp} {lhs lhs' rhs rhs' : Shape} (left : Shape.Exchanged lhs lhs')
      (right : Shape.Exchanged rhs rhs') :
      Shape.Exchanged (.binary op lhs rhs) (.binary op lhs' rhs')
  | swapped {op : BinaryOp} {lhs lhs' rhs rhs' : Shape} (left : Shape.Exchanged lhs lhs')
      (right : Shape.Exchanged rhs rhs') :
      Shape.Exchanged (.binary op lhs rhs) (.binary op rhs' lhs')
  | unary {op : UnaryOp} {operand operand' : Shape} (inner : Shape.Exchanged operand operand') :
      Shape.Exchanged (.unary op operand) (.unary op operand')
  | chain {c c' : Chain} (inner : Chain.Exchanged c c') : Shape.Exchanged (.chain c) (.chain c')
  | lambda {params : List String} {body body' : Shape} (inner : Shape.Exchanged body body') :
      Shape.Exchanged (.lambda params body) (.lambda params body')
  | record {fields fields' : ShapeFields} (inner : ShapeFields.Exchanged fields fields') :
      Shape.Exchanged (.record fields) (.record fields')
  | converted (method : String) : Shape.Exchanged (.converted method) (.converted method)
  | broken (reason : Unsupported) : Shape.Exchanged (.broken reason) (.broken reason)

/-- See `Shape.Exchanged`. -/
inductive Chain.Exchanged : Chain → Chain → Prop
  | table (relation : String) : Chain.Exchanged (.table relation) (.table relation)
  | param (name : String) : Chain.Exchanged (.param name) (.param name)
  | member {source source' : Chain} {m : Member} (inner : Chain.Exchanged source source') :
      Chain.Exchanged (.member source m) (.member source' m)
  | bare {source source' : Chain} {op : Narrowing} (inner : Chain.Exchanged source source') :
      Chain.Exchanged (.bare source op) (.bare source' op)
  | narrow {source source' : Chain} {op : Narrowing} {x : String} {body body' : Shape}
      (inner : Chain.Exchanged source source') (condition : Shape.Exchanged body body') :
      Chain.Exchanged (.narrow source op x body) (.narrow source' op x body')
  | project {source source' : Chain} {op : Projecting} {x : String} {body body' : Shape}
      (inner : Chain.Exchanged source source') (result : Shape.Exchanged body body') :
      Chain.Exchanged (.project source op x body) (.project source' op x body')

/-- See `Shape.Exchanged`. -/
inductive ShapeFields.Exchanged : ShapeFields → ShapeFields → Prop
  | nil : ShapeFields.Exchanged .nil .nil
  | cons {name : String} {value value' : Shape} {rest rest' : ShapeFields}
      (head : Shape.Exchanged value value') (tail : ShapeFields.Exchanged rest rest') :
      ShapeFields.Exchanged (.cons name value rest) (.cons name value' rest')

end

mutual

/-- Nothing has to be exchanged. -/
theorem Expr.exchanged_self : ∀ e : Expr, e.Exchanged e
  | .table relation => .table relation
  | .param name => .param name
  | .captured name => .captured name
  | .value v => .value v
  | .member base _ => .member base.exchanged_self
  | .call _ _ args => .call (Expr.argsExchanged_self args)
  | .lambda _ body => .lambda body.exchanged_self
  | .quote e => .quote e.exchanged_self
  | .convert e _ => .convert e.exchanged_self
  | .binary _ lhs rhs => .binary lhs.exchanged_self rhs.exchanged_self
  | .unary _ operand => .unary operand.exchanged_self
  | .record fields => .record (Expr.fieldsExchanged_self fields)

theorem Expr.argsExchanged_self : ∀ es : List Expr, Expr.ArgsExchanged es es
  | [] => .nil
  | e :: es => .cons e.exchanged_self (Expr.argsExchanged_self es)

theorem Expr.fieldsExchanged_self : ∀ es : List (String × Expr), Expr.FieldsExchanged es es
  | [] => .nil
  | (_, e) :: es => .cons e.exchanged_self (Expr.fieldsExchanged_self es)

end

/-! ## Shapes -/

mutual

/-- Operands can be exchanged back. -/
theorem Shape.Exchanged.symm : ∀ {shape shape' : Shape}, shape.Exchanged shape' →
    shape'.Exchanged shape
  | .literal, _, .literal => .literal
  | .captured, _, .captured => .captured
  | .binary .., _, .binary left right => .binary left.symm right.symm
  | .binary .., _, .swapped left right => .swapped right.symm left.symm
  | .unary .., _, .unary inner => .unary inner.symm
  | .chain _, _, .chain inner => .chain inner.symm
  | .lambda .., _, .lambda inner => .lambda inner.symm
  | .record _, _, .record inner => .record inner.symm
  | .converted _, _, .converted method => .converted method
  | .broken _, _, .broken reason => .broken reason

theorem Chain.Exchanged.symm : ∀ {c c' : Chain}, c.Exchanged c' → c'.Exchanged c
  | .table _, _, .table relation => .table relation
  | .param _, _, .param name => .param name
  | .member .., _, .member inner => .member inner.symm
  | .bare .., _, .bare inner => .bare inner.symm
  | .narrow .., _, .narrow inner condition => .narrow inner.symm condition.symm
  | .project .., _, .project inner result => .project inner.symm result.symm

theorem ShapeFields.Exchanged.symm : ∀ {fields fields' : ShapeFields}, fields.Exchanged fields' →
    fields'.Exchanged fields
  | .nil, _, .nil => .nil
  | .cons .., _, .cons head tail => .cons head.symm tail.symm

end

/-- The same operands are fixed. -/
theorem Shape.Exchanged.isFixed : ∀ {shape shape' : Shape}, shape.Exchanged shape' →
    shape'.isFixed = shape.isFixed := by
  intro shape shape' h
  cases h with
  | binary left right => rw [Shape.isFixed, Shape.isFixed, left.isFixed, right.isFixed]
  | swapped left right =>
    rw [Shape.isFixed, Shape.isFixed, left.isFixed, right.isFixed, Bool.and_comm]
  | unary inner => exact inner.isFixed
  | _ => rfl

theorem Chain.Exchanged.startsAtTable : ∀ {c c' : Chain}, c.Exchanged c' →
    c'.startsAtTable = c.startsAtTable
  | .table _, _, .table _ => rfl
  | .param _, _, .param _ => rfl
  | .member .., _, .member inner => inner.startsAtTable
  | .bare .., _, .bare inner => inner.startsAtTable
  | .narrow .., _, .narrow inner _ => inner.startsAtTable
  | .project .., _, .project inner _ => inner.startsAtTable

/-! ## Results that agree -/

/-- Two results that are both errors, and the same, or both not. -/
inductive Agree {ε α : Type} (R : α → α → Prop) : Except ε α → Except ε α → Prop
  | ok {a b : α} (related : R a b) : Agree R (.ok a) (.ok b)
  | error (e : ε) : Agree R (.error e) (.error e)

theorem Agree.bind {ε α β : Type} {R : α → α → Prop} {S : β → β → Prop} {x y : Except ε α}
    {f f' : α → Except ε β} (h : Agree R x y) (hf : ∀ a b, R a b → Agree S (f a) (f' b)) :
    Agree S (x >>= f) (y >>= f') := by
  cases h with
  | ok related => exact hf _ _ related
  | error e => exact .error e

variable {shape shape' : Shape} {type method : String}

theorem Shape.Exchanged.asChain (h : shape.Exchanged shape') :
    Agree Chain.Exchanged shape.asChain shape'.asChain := by
  cases h with
  | chain inner => exact .ok inner
  | _ => exact .error _

/-- The parameter and the body of a lambda. -/
theorem Shape.Exchanged.asLambda (h : shape.Exchanged shape') :
    Agree (fun l l' => l.1 = l'.1 ∧ l.2.Exchanged l'.2) (shape.asLambda method)
      (shape'.asLambda method) := by
  cases h with
  | @lambda params _ _ inner =>
    match params with
    | [] => exact .error _
    | [_] => exact .ok ⟨rfl, inner⟩
    | _ :: _ :: _ => exact .error _
  | _ => exact .error _

theorem Shape.exchanged_ofChain {x y : Except Unsupported Chain} (h : Agree Chain.Exchanged x y) :
    (Shape.ofChain x).Exchanged (Shape.ofChain y) := by
  cases h with
  | ok related => exact .chain related
  | error e => exact .broken e

theorem Chain.exchanged_ofMember {m : Member} (h : shape.Exchanged shape') :
    Agree Chain.Exchanged (Chain.ofMember shape m) (Chain.ofMember shape' m) :=
  h.asChain.bind fun _ _ hc => .ok (.member hc)

theorem Chain.exchanged_ofCall {args args' : List Shape}
    (h : List.Forall₂ Shape.Exchanged args args') :
    Agree Chain.Exchanged (Chain.ofCall type method args) (Chain.ofCall type method args') := by
  unfold Chain.ofCall
  cases ChainOp.ofCall type method with
  | error e => exact .error e
  | ok op =>
    cases h with
    | nil => exact .error _
    | cons hsource hrest =>
      refine hsource.asChain.bind fun c c' hc => ?_
      cases hrest with
      | nil =>
        match op with
        | .narrow .filter => exact .error _
        | .narrow .any => exact .ok (.bare hc)
        | .narrow .single => exact .ok (.bare hc)
        | .project _ => exact .error _
      | cons hlambda hrest =>
        cases hrest with
        | nil =>
          cases op with
          | narrow op =>
            refine hlambda.asLambda.bind ?_
            rintro ⟨x, body⟩ ⟨_, body'⟩ ⟨rfl, hbody⟩
            exact .ok (.narrow hc hbody)
          | project op =>
            refine hlambda.asLambda.bind ?_
            rintro ⟨x, body⟩ ⟨_, body'⟩ ⟨rfl, hbody⟩
            exact .ok (.project hc hbody)
        | cons _ hrest =>
          -- Only the number of arguments matters.
          simp only [List.length_cons, hrest.length_eq]
          cases op with
          | _ => exact .error _

mutual

/-- Exchanging operands exchanges those of the shape. -/
theorem Expr.Exchanged.shape : ∀ {e e' : Expr}, e.Exchanged e' → e.shape.Exchanged e'.shape
  | .table _, _, .table relation => .chain (.table relation)
  | .param _, _, .param name => .chain (.param name)
  | .captured _, _, .captured _ => .captured
  | .value _, _, .value _ => .literal
  | .member .., _, .member inner => Shape.exchanged_ofChain (Chain.exchanged_ofMember inner.shape)
  | .call .., _, .call inner => Shape.exchanged_ofChain (Chain.exchanged_ofCall inner.shapes)
  | .lambda .., _, .lambda inner => .lambda inner.shape
  | .quote _, _, .quote inner => inner.shape
  | .convert _ none, _, .convert inner => inner.shape
  | .convert _ (some _), _, .convert _ => .converted _
  | .binary .., _, .binary left right => .binary left.shape right.shape
  | .binary .., _, .swapped left right => .swapped left.shape right.shape
  | .unary .., _, .unary inner => .unary inner.shape
  | .record _, _, .record inner => .record inner.fieldShapes

theorem Expr.ArgsExchanged.shapes : ∀ {es es' : List Expr}, Expr.ArgsExchanged es es' →
    List.Forall₂ Shape.Exchanged (shapes es) (shapes es')
  | [], _, .nil => .nil
  | _ :: _, _, .cons head tail => .cons head.shape tail.shapes

theorem Expr.FieldsExchanged.fieldShapes : ∀ {es es' : List (String × Expr)},
    Expr.FieldsExchanged es es' → (fieldShapes es).Exchanged (fieldShapes es')
  | [], _, .nil => .nil
  | _ :: _, _, .cons head tail => .cons head.shape tail.fieldShapes

end

end FetchPlan
