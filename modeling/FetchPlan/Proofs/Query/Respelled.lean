import FetchPlan.Proofs.Query.Grammar
import Mathlib.Data.List.Forall2
import Mathlib.Logic.Relation

/-!
# Queries that are spelled differently

Two queries differ in spelling if quotes, plain conversions and tests for existence are added or
left out, fixed values replaced, parameters renamed and calls of one kind exchanged
(`Expr.Respelled`). Their shapes differ in the names of parameters and in the tests for existence,
or are of no use in both (`Expr.Respelled.shape`).
-/

namespace FetchPlan

namespace Expr

/-- The expression itself, without what is around it, is a relation, a parameter, a member access or
a call. -/
def formsChain (e : Expr) : Bool :=
  match e.unwrap with
  | table _ | param _ | member .. | call .. => true
  | _ => false

/-- The declaring types are the same, or do not matter. -/
def SameType (type type' : String) : Prop :=
  type = type' ∨ type ∈ callTypes ∧ type' ∈ callTypes

/-- The methods are the same, or stand for the same on this number of arguments. Only with a lambda
do all conditions. -/
def SameMethod (count : Nat) (method method' : String) : Prop :=
  method = method' ∨ (method ∈ projectionMethods ∧ method' ∈ projectionMethods) ∨
    2 ≤ count ∧ method ∈ conditionMethods ∧ method' ∈ conditionMethods

mutual

/-- The expressions differ in spelling, and parameters are renamed by `f`. -/
inductive Respelled (f : String → String) : Expr → Expr → Prop
  | table (relation : String) : Respelled f (.table relation) (.table relation)
  | param (name : String) : Respelled f (.param name) (.param (f name))
  | fixed {e e' : Expr} (left : e.isFixed) (right : e'.isFixed) : Respelled f e e'
  | member {base base' : Expr} {m : Member} (inner : Respelled f base base') :
      Respelled f (.member base m) (.member base' m)
  | call {type type' method method' : String} {args args' : List Expr}
      (declared : SameType type type') (named : SameMethod args.length method method')
      (inner : ArgsRespelled f args args') :
      Respelled f (.call type method args) (.call type' method' args')
  | lambda {params : List String} {body body' : Expr} (inner : Respelled f body body') :
      Respelled f (.lambda params body) (.lambda (params.map f) body')
  | converted {e e' : Expr} {method : String} (inner : Respelled f e e') :
      Respelled f (.convert e (some method)) (.convert e' (some method))
  | binary {op : BinaryOp} {lhs lhs' rhs rhs' : Expr} (left : Respelled f lhs lhs')
      (right : Respelled f rhs rhs') : Respelled f (.binary op lhs rhs) (.binary op lhs' rhs')
  | unary {op : UnaryOp} {operand operand' : Expr} (inner : Respelled f operand operand') :
      Respelled f (.unary op operand) (.unary op operand')
  | record {fields fields' : List (String × Expr)} (inner : FieldsRespelled f fields fields') :
      Respelled f (.record fields) (.record fields')
  | quoteLeft {e e' : Expr} (inner : Respelled f e e') : Respelled f (.quote e) e'
  | quoteRight {e e' : Expr} (inner : Respelled f e e') : Respelled f e (.quote e')
  | convertLeft {e e' : Expr} (inner : Respelled f e e') : Respelled f (.convert e none) e'
  | convertRight {e e' : Expr} (inner : Respelled f e e') : Respelled f e (.convert e' none)
  /-- A test for existence on a chain. -/
  | existenceLeft {type method : String} {e e' : Expr} (declared : type ∈ callTypes)
      (named : method ∈ existenceMethods) (chain : e.formsChain) (inner : Respelled f e e') :
      Respelled f (.call type method [e]) e'
  | existenceRight {type method : String} {e e' : Expr} (declared : type ∈ callTypes)
      (named : method ∈ existenceMethods) (chain : e'.formsChain) (inner : Respelled f e e') :
      Respelled f e (.call type method [e'])

/-- See `Expr.Respelled`. -/
inductive ArgsRespelled (f : String → String) : List Expr → List Expr → Prop
  | nil : ArgsRespelled f [] []
  | cons {e e' : Expr} {es es' : List Expr} (head : Respelled f e e')
      (tail : ArgsRespelled f es es') : ArgsRespelled f (e :: es) (e' :: es')

/-- See `Expr.Respelled`. -/
inductive FieldsRespelled (f : String → String) :
    List (String × Expr) → List (String × Expr) → Prop
  | nil : FieldsRespelled f [] []
  | cons {name : String} {e e' : Expr} {es es' : List (String × Expr)} (head : Respelled f e e')
      (tail : FieldsRespelled f es es') : FieldsRespelled f ((name, e) :: es) ((name, e') :: es')

end

/-- The expressions differ in spelling any number of times. -/
def SameUpToSpelling : Expr → Expr → Prop :=
  Relation.ReflTransGen fun e e' => ∃ f : String → String, f.Injective ∧ e.Respelled f e'

end Expr

/-- The shape of a literal or a captured variable. -/
def Shape.isValue : Shape → Bool
  | .literal | .captured => true
  | _ => false

mutual

/-- The shapes differ in the names of parameters, which are renamed by `f`, in tests for existence
and in the reasons why there is no chain. -/
inductive Shape.Respelled (f : String → String) : Shape → Shape → Prop
  | value {shape shape' : Shape} (left : shape.isValue) (right : shape'.isValue) :
      Shape.Respelled f shape shape'
  | binary {op : BinaryOp} {lhs lhs' rhs rhs' : Shape} (left : Shape.Respelled f lhs lhs')
      (right : Shape.Respelled f rhs rhs') :
      Shape.Respelled f (.binary op lhs rhs) (.binary op lhs' rhs')
  | unary {op : UnaryOp} {operand operand' : Shape} (inner : Shape.Respelled f operand operand') :
      Shape.Respelled f (.unary op operand) (.unary op operand')
  | chain {c c' : Chain} (inner : Chain.Respelled f c c') : Shape.Respelled f (.chain c) (.chain c')
  | lambda {params : List String} {body body' : Shape} (inner : Shape.Respelled f body body') :
      Shape.Respelled f (.lambda params body) (.lambda (params.map f) body')
  | record {fields fields' : ShapeFields} (inner : ShapeFields.Respelled f fields fields') :
      Shape.Respelled f (.record fields) (.record fields')
  | converted (method : String) : Shape.Respelled f (.converted method) (.converted method)
  | broken (reason reason' : Unsupported) : Shape.Respelled f (.broken reason) (.broken reason')

/-- See `Shape.Respelled`. -/
inductive Chain.Respelled (f : String → String) : Chain → Chain → Prop
  | table (relation : String) : Chain.Respelled f (.table relation) (.table relation)
  | param (name : String) : Chain.Respelled f (.param name) (.param (f name))
  | member {source source' : Chain} {m : Member} (inner : Chain.Respelled f source source') :
      Chain.Respelled f (.member source m) (.member source' m)
  | bareLeft {source c : Chain} {op : Narrowing} (inner : Chain.Respelled f source c) :
      Chain.Respelled f (.bare source op) c
  | bareRight {source c : Chain} {op : Narrowing} (inner : Chain.Respelled f c source) :
      Chain.Respelled f c (.bare source op)
  | narrow {source source' : Chain} {op op' : Narrowing} {x : String} {body body' : Shape}
      (inner : Chain.Respelled f source source') (condition : Shape.Respelled f body body') :
      Chain.Respelled f (.narrow source op x body) (.narrow source' op' (f x) body')
  | project {source source' : Chain} {op op' : Projecting} {x : String} {body body' : Shape}
      (inner : Chain.Respelled f source source') (result : Shape.Respelled f body body') :
      Chain.Respelled f (.project source op x body) (.project source' op' (f x) body')

/-- See `Shape.Respelled`. -/
inductive ShapeFields.Respelled (f : String → String) : ShapeFields → ShapeFields → Prop
  | nil : ShapeFields.Respelled f .nil .nil
  | cons {name : String} {value value' : Shape} {rest rest' : ShapeFields}
      (head : Shape.Respelled f value value') (tail : ShapeFields.Respelled f rest rest') :
      ShapeFields.Respelled f (.cons name value rest) (.cons name value' rest')

end

variable {f : String → String} {shape shape' : Shape} {type type' method method' : String}

/-! ## Results of which none or both are errors -/

/-- Two results that are both errors, or related. -/
inductive SameOutcome {ε α : Type} (R : α → α → Prop) : Except ε α → Except ε α → Prop
  | ok {a b : α} (related : R a b) : SameOutcome R (.ok a) (.ok b)
  | error (e e' : ε) : SameOutcome R (.error e) (.error e')

theorem SameOutcome.bind {ε α β : Type} {R : α → α → Prop} {S : β → β → Prop} {x y : Except ε α}
    {g g' : α → Except ε β} (h : SameOutcome R x y)
    (hg : ∀ a b, R a b → SameOutcome S (g a) (g' b)) : SameOutcome S (x >>= g) (y >>= g') := by
  cases h with
  | ok related => exact hg _ _ related
  | error e e' => exact .error e e'

/-- A value is no chain. -/
theorem Shape.asChain_of_isValue (h : shape.isValue) : ∃ reason, shape.asChain = .error reason := by
  cases shape with
  | literal => exact ⟨_, rfl⟩
  | captured => exact ⟨_, rfl⟩
  | _ => exact absurd h Bool.false_ne_true

/-- A value is no lambda. -/
theorem Shape.asLambda_of_isValue (h : shape.isValue) :
    ∃ reason, shape.asLambda method = .error reason := by
  cases shape with
  | literal => exact ⟨_, rfl⟩
  | captured => exact ⟨_, rfl⟩
  | _ => exact absurd h Bool.false_ne_true

theorem Shape.Respelled.asChain (h : shape.Respelled f shape') :
    SameOutcome (Chain.Respelled f) shape.asChain shape'.asChain := by
  cases h with
  | chain inner => exact .ok inner
  | value left right =>
    obtain ⟨reason, hleft⟩ := Shape.asChain_of_isValue left
    obtain ⟨reason', hright⟩ := Shape.asChain_of_isValue right
    rw [hleft, hright]
    exact .error reason reason'
  | _ => exact .error _ _

/-- The parameter and the body of a lambda. -/
theorem Shape.Respelled.asLambda (h : shape.Respelled f shape') :
    SameOutcome (fun l l' => l'.1 = f l.1 ∧ l.2.Respelled f l'.2) (shape.asLambda method)
      (shape'.asLambda method') := by
  cases h with
  | value left right =>
    obtain ⟨reason, hleft⟩ := Shape.asLambda_of_isValue left
    obtain ⟨reason', hright⟩ := Shape.asLambda_of_isValue right
    rw [hleft, hright]
    exact .error reason reason'
  | @lambda params _ _ inner =>
    match params with
    | [] => exact .error _ _
    | [_] => exact .ok ⟨rfl, inner⟩
    | _ :: _ :: _ => exact .error _ _
  | _ => exact .error _ _

theorem Shape.respelled_ofChain {x y : Except Unsupported Chain}
    (h : SameOutcome (Chain.Respelled f) x y) :
    (Shape.ofChain x).Respelled f (Shape.ofChain y) := by
  cases h with
  | ok related => exact .chain related
  | error e e' => exact .broken e e'

/-! ## Calls -/

/-- Calls that do the same on this number of arguments. -/
inductive ChainOp.Respelled (count : Nat) : ChainOp → ChainOp → Prop
  | same (op : ChainOp) : Respelled count op op
  | narrow (op op' : Narrowing) (h : 2 ≤ count) : Respelled count (.narrow op) (.narrow op')
  | project (op op' : Projecting) : Respelled count (.project op) (.project op')

theorem ChainOp.ofCall_of_not_mem (h : type ∉ Expr.callTypes) (method : String) :
    ∃ reason, ofCall type method = .error reason := by
  rw [mem_callTypes, not_or] at h
  exact ⟨_, if_pos h⟩

/-- Both declaring types have the same methods. -/
theorem ChainOp.sameOutcome_ofCall_types (h : type ∈ Expr.callTypes) (h' : type' ∈ Expr.callTypes)
    {count : Nat} :
    SameOutcome (Respelled count) (ofCall type method) (ofCall type' method) := by
  cases hop : ofMethod? method with
  | some op =>
    have heq : ofCall type method = .ok op := ofCall_eq_ok.2 ⟨mem_callTypes.1 h, hop⟩
    have heq' : ofCall type' method = .ok op := ofCall_eq_ok.2 ⟨mem_callTypes.1 h', hop⟩
    rw [heq, heq']
    exact .ok (.same op)
  | none =>
    have hnot : ∀ {t}, ∃ reason, ofCall t method = .error reason := by
      intro t
      cases heq : ofCall t method with
      | error reason => exact ⟨reason, rfl⟩
      | ok op =>
        rw [ofCall_eq_ok, hop] at heq
        exact absurd heq.2 (Option.some_ne_none op).symm
    obtain ⟨reason, heq⟩ := hnot (t := type)
    obtain ⟨reason', heq'⟩ := hnot (t := type')
    rw [heq, heq']
    exact .error reason reason'

theorem ChainOp.sameOutcome_ofCall {count : Nat} (declared : Expr.SameType type type')
    (named : Expr.SameMethod count method method') :
    SameOutcome (Respelled count) (ofCall type method) (ofCall type' method') := by
  by_cases h : type ∈ Expr.callTypes
  · have h' : type' ∈ Expr.callTypes := by
      rcases declared with rfl | ⟨-, h'⟩
      · exact h
      · exact h'
    rcases named with rfl | ⟨hm, hm'⟩ | ⟨hcount, hm, hm'⟩
    · exact sameOutcome_ofCall_types h h'
    · obtain ⟨op, hop⟩ := exists_ofCall_projection.2 ⟨h, hm⟩
      obtain ⟨op', hop'⟩ := exists_ofCall_projection.2 ⟨h', hm'⟩
      rw [hop, hop']
      exact .ok (.project op op')
    · obtain ⟨op, hop⟩ := exists_ofCall_condition.2 ⟨h, hm⟩
      obtain ⟨op', hop'⟩ := exists_ofCall_condition.2 ⟨h', hm'⟩
      rw [hop, hop']
      exact .ok (.narrow op op' hcount)
  · obtain rfl | ⟨h', -⟩ := declared
    · obtain ⟨reason, heq⟩ := ofCall_of_not_mem h method
      obtain ⟨reason', heq'⟩ := ofCall_of_not_mem h method'
      rw [heq, heq']
      exact .error reason reason'
    · exact absurd h' h

theorem Chain.sameOutcome_ofMember {m : Member} (h : shape.Respelled f shape') :
    SameOutcome (Chain.Respelled f) (Chain.ofMember shape m) (Chain.ofMember shape' m) :=
  h.asChain.bind fun _ _ hc => .ok (.member hc)

section Lambdas

variable {c c' : Chain} (hc : c.Respelled f c')

include hc

/-- Calls with a lambda to keep rows by. -/
theorem Shape.Respelled.narrow {op op' : Narrowing} (h : shape.Respelled f shape') :
    SameOutcome (Chain.Respelled f)
      (shape.asLambda method >>= fun l => pure (.narrow c op l.1 l.2))
      (shape'.asLambda method' >>= fun l => pure (.narrow c' op' l.1 l.2)) := by
  refine h.asLambda.bind ?_
  rintro ⟨x, body⟩ ⟨_, body'⟩ ⟨rfl, hbody⟩
  exact .ok (.narrow hc hbody)

/-- Calls with a lambda to make something else of a row by. -/
theorem Shape.Respelled.project {op op' : Projecting} (h : shape.Respelled f shape') :
    SameOutcome (Chain.Respelled f)
      (shape.asLambda method >>= fun l => pure (.project c op l.1 l.2))
      (shape'.asLambda method' >>= fun l => pure (.project c' op' l.1 l.2)) := by
  refine h.asLambda.bind ?_
  rintro ⟨x, body⟩ ⟨_, body'⟩ ⟨rfl, hbody⟩
  exact .ok (.project hc hbody)

end Lambdas

/-- Calls of one kind on arguments that differ in spelling are both chains or both none. -/
theorem Chain.sameOutcome_ofCall {args args' : List Shape}
    (hop : SameOutcome (ChainOp.Respelled args.length) (ChainOp.ofCall type method)
      (ChainOp.ofCall type' method'))
    (hargs : List.Forall₂ (Shape.Respelled f) args args') :
    SameOutcome (Chain.Respelled f) (Chain.ofCall type method args)
      (Chain.ofCall type' method' args') := by
  unfold Chain.ofCall
  refine hop.bind fun op op' hsame => ?_
  cases hargs with
  | nil => exact .error _ _
  | cons hsource hrest =>
    refine hsource.asChain.bind fun c c' hc => ?_
    cases hrest with
    | nil =>
      cases hsame with
      | same op =>
        match op with
        | .narrow .filter => exact .error _ _
        | .narrow .any => exact .ok (.bareLeft (.bareRight hc))
        | .narrow .single => exact .ok (.bareLeft (.bareRight hc))
        | .project _ => exact .error _ _
      | narrow _ _ h => exact absurd h (by simp)
      | project _ _ => exact .error _ _
    | cons hlambda hrest =>
      cases hrest with
      | nil =>
        cases hsame with
        | same op =>
          cases op with
          | narrow op => exact hlambda.narrow hc
          | project op => exact hlambda.project hc
        | narrow op op' _ => exact hlambda.narrow hc
        | project op op' => exact hlambda.project hc
      | cons _ _ =>
        -- Too many arguments are refused for every method.
        cases op <;> cases op' <;> exact .error _ _

/-! ## From expressions to shapes -/

/-- What forms a chain has the shape of one, or is broken. -/
theorem Expr.exists_shape_of_formsChain {e : Expr} (h : e.formsChain) :
    ∃ x, e.shape = .ofChain x := by
  rw [← shape_unwrap]
  unfold formsChain at h
  cases hunwrap : e.unwrap with
  | table relation => exact ⟨.ok _, rfl⟩
  | param name => exact ⟨.ok _, rfl⟩
  | member base m => exact ⟨_, rfl⟩
  | call type method args => exact ⟨_, rfl⟩
  | _ =>
    rw [hunwrap] at h
    exact absurd h Bool.false_ne_true

/-- A test for existence on a chain is the chain and the test, and broken if the chain is. -/
theorem Expr.shape_existence {e : Expr} (declared : type ∈ callTypes)
    (named : method ∈ existenceMethods) {x : Except Unsupported Chain} (h : e.shape = .ofChain x) :
    ∃ op, (Expr.call type method [e]).shape = .ofChain (x >>= fun c => pure (.bare c op)) := by
  obtain ⟨op, hop, hne⟩ := ChainOp.exists_ofCall_existence.2 ⟨declared, named⟩
  refine ⟨op, ?_⟩
  rw [Expr.shape, shapes, shapes, h]
  cases x with
  | error reason =>
    rw [Chain.ofCall, hop]
    rfl
  | ok c =>
    have hcalls : Chain.Calls type method [.chain c] (.bare c op) := .bare hop hne
    rw [Shape.ofChain, Chain.ofCall_eq_ok_iff.2 hcalls]
    rfl

theorem Expr.respelled_existence_left {e e' : Expr} (declared : type ∈ callTypes)
    (named : method ∈ existenceMethods) (chain : e.formsChain) (h : e.shape.Respelled f e'.shape) :
    (Expr.call type method [e]).shape.Respelled f e'.shape := by
  obtain ⟨x, hx⟩ := exists_shape_of_formsChain chain
  obtain ⟨op, hcall⟩ := shape_existence declared named hx
  rw [hx] at h
  rw [hcall]
  generalize e'.shape = shape' at h ⊢
  cases x with
  | error reason =>
    cases h with
    | broken _ reason' => exact .broken _ _
    | value left _ => exact absurd left Bool.false_ne_true
  | ok c =>
    cases h with
    | chain inner => exact .chain (.bareLeft inner)
    | value left _ => exact absurd left Bool.false_ne_true

theorem Expr.respelled_existence_right {e e' : Expr} (declared : type ∈ callTypes)
    (named : method ∈ existenceMethods) (chain : e'.formsChain) (h : e.shape.Respelled f e'.shape) :
    e.shape.Respelled f (Expr.call type method [e']).shape := by
  obtain ⟨x, hx⟩ := exists_shape_of_formsChain chain
  obtain ⟨op, hcall⟩ := shape_existence declared named hx
  rw [hx] at h
  rw [hcall]
  generalize e.shape = shape at h ⊢
  cases x with
  | error reason =>
    cases h with
    | broken reason' _ => exact .broken _ _
    | value _ right => exact absurd right Bool.false_ne_true
  | ok c =>
    cases h with
    | chain inner => exact .chain (.bareRight inner)
    | value _ right => exact absurd right Bool.false_ne_true

theorem length_shapes (es : List Expr) : (shapes es).length = es.length := by
  induction es with
  | nil => rfl
  | cons e es ih => exact congrArg Nat.succ ih

theorem Expr.isValue_shape {e : Expr} (h : e.isFixed) : e.shape.isValue := by
  cases e with
  | value v => rfl
  | captured name => rfl
  | _ => exact absurd h Bool.false_ne_true

mutual

/-- Queries that differ in spelling have shapes that do. -/
theorem Expr.Respelled.shape : ∀ {e e' : Expr}, e.Respelled f e' → e.shape.Respelled f e'.shape
  | _, _, .table relation => .chain (.table relation)
  | _, _, .param name => .chain (.param name)
  | _, _, .fixed left right => .value (Expr.isValue_shape left) (Expr.isValue_shape right)
  | _, _, .member inner => Shape.respelled_ofChain (Chain.sameOutcome_ofMember inner.shape)
  | _, _, .call declared named inner => by
    have hop := ChainOp.sameOutcome_ofCall declared named
    rw [← length_shapes] at hop
    exact Shape.respelled_ofChain (Chain.sameOutcome_ofCall hop inner.shapes)
  | _, _, .lambda inner => .lambda inner.shape
  | _, _, .converted _ => .converted _
  | _, _, .binary left right => .binary left.shape right.shape
  | _, _, .unary inner => .unary inner.shape
  | _, _, .record inner => .record inner.fieldShapes
  | _, _, .quoteLeft inner => inner.shape
  | _, _, .quoteRight inner => inner.shape
  | _, _, .convertLeft inner => inner.shape
  | _, _, .convertRight inner => inner.shape
  | _, _, .existenceLeft declared named chain inner =>
    Expr.respelled_existence_left declared named chain inner.shape
  | _, _, .existenceRight declared named chain inner =>
    Expr.respelled_existence_right declared named chain inner.shape

theorem Expr.ArgsRespelled.shapes : ∀ {es es' : List Expr}, Expr.ArgsRespelled f es es' →
    List.Forall₂ (Shape.Respelled f) (shapes es) (shapes es')
  | _, _, .nil => .nil
  | _, _, .cons head tail => .cons head.shape tail.shapes

theorem Expr.FieldsRespelled.fieldShapes : ∀ {es es' : List (String × Expr)},
    Expr.FieldsRespelled f es es' → (fieldShapes es).Respelled f (fieldShapes es')
  | _, _, .nil => .nil
  | _, _, .cons head tail => .cons head.shape tail.fieldShapes

end

end FetchPlan
