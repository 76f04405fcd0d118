import FetchPlan.Flow.Listing
import FetchPlan.Flow.OfQuery

/-!
# Listings as they are built

The steps and operations of a query are stored one after the other, straight from its shape, and
each is linked with those that are there already. A chain that is being built is known by its
cursor: by its two ends, and by the step whose rows the next call is applied to. Nothing about the
slots keeps this from getting stuck: a slot may be missing, or may be a part of another already.
-/

namespace FetchPlan

/-- A step or an operation, with the links written so far. -/
structure Slot where
  kind : EntryKind
  previous : Option Nat := none
  next : Option Nat := none
  parent : Option Nat := none
deriving DecidableEq, Repr

/-- What is stored of an entry: what else it says follows from the kinds. -/
def Entry.slot (entry : Entry) : Slot :=
  { kind := entry.kind, previous := entry.previous, next := entry.next, parent := entry.parent }

/-- What a parameter bound to a step of this kind, numbered `id`, stands for: the step itself, but
never a reference. -/
def EntryKind.referent (id : Nat) : EntryKind → Nat
  | .reference target => target
  | _ => id

/-- Computations that store slots, or get stuck. -/
abbrev Storing := StateT (List Slot) (OptionT (Except Error))

namespace Storing

/-- Refuses the query. -/
def fail {α : Type} (e : Error) : Storing α := (.error e : Except Error α)

/-- Where a slot is missing, or would become a part of two others. -/
def stuck {α : Type} : Storing α := failure

/-- Stores a step or an operation that is not linked yet, and returns its number. -/
def push (kind : EntryKind) : Storing Nat :=
  modifyGet fun slots => (slots.length, slots ++ [{ kind := kind }])

/-- The slot of a number. -/
def slotAt (id : Nat) : Storing Slot := do
  match (← get)[id]? with
  | some slot => return slot
  | none => stuck

/-- The step that a parameter bound to the step `id` stands for. -/
def resolveSource (id : Nat) : Storing Nat := return (← slotAt id).kind.referent id

/-- Changes a stored slot. -/
def update (id : Nat) (f : Slot → Slot) : Storing Unit := do
  let slot ← slotAt id
  modify fun slots => slots.set id (f slot)

/-- Makes a stored slot, so far a part of nothing, a part of another. -/
def setParent (child parent : Nat) : Storing Unit := do
  if (← slotAt child).parent.isSome then stuck
  update child fun slot => { slot with parent := some parent }

/-- Stores a binary operation after its operands. -/
def binary (op : BinaryOp) (lhs rhs : Nat) : Storing Nat := do
  let id ← push (.binary op lhs rhs)
  setParent lhs id
  setParent rhs id
  return id

/-- Stores a unary operation after its operand. -/
def unary (op : UnaryOp) (operand : Nat) : Storing Nat := do
  let id ← push (.unary op operand)
  setParent operand id
  return id

end Storing

/-- How far a chain is built. -/
structure Cursor where
  head : Option Nat := none
  tail : Option Nat := none
  /-- The step that a call or a member access is applied to. A scalar has none. -/
  rowSource : Option Nat := none

namespace Cursor

open Storing

/-- Stores the next step of a chain and links it with the step before. -/
def append (cursor : Cursor) (kind : EntryKind) : Storing (Nat × Cursor) := do
  let id ← push kind
  match cursor.tail with
  | some tail =>
    update tail fun slot => { slot with next := some id }
    update id fun slot => { slot with previous := some tail }
    return (id, { cursor with tail := some id })
  | none => return (id, { cursor with head := some id, tail := some id })

/-- Stores the first step of a chain, a relation or a parameter. -/
def start (kind : EntryKind) : Storing Cursor := do
  let (id, cursor) ← append {} kind
  return { cursor with rowSource := some id }

/-- Stores a member access. A column ends the rows. -/
def access (cursor : Cursor) (m : Member) : Storing Cursor := do
  if cursor.rowSource.isNone then fail (Unresolved.memberOfScalar m.name).error
  let (id, cursor) ← cursor.append (Path.stepKind m)
  match m with
  | .column _ => return { cursor with rowSource := none }
  | .projected _ | .association _ => return { cursor with rowSource := some id }

/-- The step that a lambda called `call` binds its parameter to. -/
def binding (cursor : Cursor) (call : String) : Storing Nat :=
  match cursor.rowSource with
  | some id => resolveSource id
  | none => fail (Unresolved.callOnScalar call).error

/-- Stores a condition after its operand. The rows stay the same. -/
def filter (cursor : Cursor) (inner : Nat) : Storing Cursor := do
  let (id, cursor) ← cursor.append (.filter inner)
  setParent inner id
  return cursor

/-- Stores a projection after its outputs. -/
def select (cursor : Cursor) (outputs : List (Option String × Nat)) : Storing Cursor := do
  let (id, cursor) ← cursor.append (.select outputs)
  outputs.forM fun output => setParent output.2 id
  return { cursor with rowSource := some id }

/-- The number by which a chain is referred to. -/
def first (cursor : Cursor) : Storing Nat :=
  match cursor.head with
  | some id => return id
  | none => fail (Unsupported.described "empty chain").error

end Cursor

open Storing

mutual

/-- Stores an operand and returns the number by which it is referred to. -/
def Shape.store (scope : Scope) : Shape → Storing Nat
  | .literal | .captured => push .fixed
  | .binary op lhs rhs => do
    unless op.isSupported do fail (Unsupported.binaryOperator op).error
    let lhs ← lhs.store scope
    let rhs ← rhs.store scope
    Storing.binary op lhs rhs
  | .unary op operand => do
    unless op.isSupported do fail (Unsupported.unaryOperator op).error
    let operand ← operand.store scope
    Storing.unary op operand
  | .chain c => do (← c.store scope).first
  | .lambda .. => fail Unsupported.looseLambda.error
  | .record _ => fail Unsupported.looseRecord.error
  | .converted method => fail (Unsupported.conversion method).error
  | .broken reason => fail reason.error

/-- Stores the steps of a chain. -/
def Chain.store (scope : Scope) : Chain → Storing Cursor
  | .table relation => Cursor.start (.table relation)
  | .param name =>
    match scope.resolve? name with
    | some target => Cursor.start (.reference target)
    | none => fail (Unresolved.unbound name).error
  | .member source m => do (← source.store scope).access m
  | .bare source _ => source.store scope
  | .narrow source op param body => do
    let cursor ← source.store scope
    let scope ← scope.bind param (← cursor.binding op.name)
    cursor.filter (← body.store scope)
  | .project source op param (.record fields) => do
    let cursor ← source.store scope
    let scope ← scope.bind param (← cursor.binding op.name)
    cursor.select (← fields.store scope)
  | .project source op param body => do
    let cursor ← source.store scope
    let scope ← scope.bind param (← cursor.binding op.name)
    cursor.select [(none, ← body.store scope)]

/-- Stores the fields of a record, in order, and returns their names with their numbers. -/
def ShapeFields.store (scope : Scope) : ShapeFields → Storing (List (Option String × Nat))
  | .nil => return []
  | .cons name value rest => do
    let inner ← value.store scope
    return (some name, inner) :: (← rest.store scope)

end

/-- The stored steps and operations of a query, and the number of its first step. -/
structure Arena where
  slots : List Slot
  root : Nat
deriving DecidableEq, Repr

/-- The arena of a query. -/
def Expr.toArena (e : Expr) : OptionT (Except Error) Arena := do
  let shape := e.shape
  if let some reason := shape.refusal? then throwThe Error reason.error
  match shape with
  | .chain c =>
    unless c.startsAtTable do throwThe Error Unsupported.notAChain.error
    let (root, slots) ← (shape.store []).run []
    return ⟨slots, root⟩
  | _ => throwThe Error Unsupported.notAChain.error

end FetchPlan
