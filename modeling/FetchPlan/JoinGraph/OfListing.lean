import FetchPlan.Flow.Listing
import FetchPlan.JoinGraph.OfFlow

/-!
# From listings to join graphs

The graph of a query, built from the list of its entries: a path is followed from entry to entry,
and parts are looked up by their numbers. Nothing about the entries keeps the walk from getting
stuck: an entry may be missing, an operation may stand in the middle of a path, and links may lead
in a circle.
-/

namespace FetchPlan

open Building

/-- Computations that build a graph, or get stuck. -/
abbrev Visiting := OptionT Building

/-- Whether it is an operation or a fixed value. -/
def EntryKind.isTree : EntryKind → Bool
  | .binary .. | .unary .. | .fixed => true
  | _ => false

namespace Listing

/-- Where an entry is met that cannot be there. -/
def stuck {α : Type} : Visiting α := failure

/-- The entry of a number. -/
def entryAt (entries : List Entry) (id : Nat) : Visiting Entry :=
  match entries[id]? with
  | some entry => return entry
  | none => stuck

/-- Whether only fixed values take part in an entry. The fuel bounds how far links are followed. -/
def isFixed (entries : List Entry) : Nat → Nat → Visiting Bool
  | 0, _ => stuck
  | fuel + 1, id => do
    let entry ← entryAt entries id
    match entry.kind with
    | .fixed => return true
    | .binary _ lhs rhs => return (← isFixed entries fuel lhs) && (← isFixed entries fuel rhs)
    | .unary _ operand => isFixed entries fuel operand
    | _ => return false

/-- Walks the outputs of a projection, in order. One output without a name stands for itself. -/
def project (operand : Nat → Visiting Resolved) (outputs : List (Option String × Nat)) :
    Visiting Resolved := do
  let values ← outputs.mapM fun output => return (output.1.getD "", ← operand output.2)
  match outputs, values with
  | [(none, _)], [(_, r)] => return r
  | _, _ => return .record values

/-- Takes the step of an entry of a path, with `operand` for its parts. -/
def visit (s : Schema) (operand : Nat → Visiting Resolved) (id : Nat) (current : Resolved) :
    EntryKind → Visiting Resolved
  | .table relation => do
    if id = 0 then return .rows JoinGraph.root none
    else
      discard <| s.primaryKey relation
      return .rows (← addNode relation) none
  | .reference target => do
    match (← get).sources.lookup target with
    | some r => return r.bound
    | none => Building.fail Unresolved.neverBuilt.error
  | .association column relation key => follow s current column relation key
  | .column name => read s current name
  | .select outputs => project operand outputs
  | .filter inner => do
    discard <| operand inner
    return current
  | .binary .. | .unary .. | .fixed => stuck

/-- Walks an operation, with `fixed` and `operand` for its operands. -/
def operate (s : Schema) (fixed : Nat → Visiting Bool) (operand : Nat → Visiting Resolved) :
    EntryKind → Visiting Unit
  | .binary op lhs rhs => do
    let leftFixed ← fixed lhs
    let rightFixed ← fixed rhs
    if op = .eq && !leftFixed && !rightFixed then
      let l ← operand lhs
      let r ← operand rhs
      equate s l r
    else
      unless leftFixed do discard <| operand lhs
      unless rightFixed do discard <| operand rhs
  | .unary _ inner => discard <| operand inner
  | .fixed => return ()
  | _ => stuck

mutual

/-- Walks an operand. The fuel bounds how far links are followed. -/
def operand (s : Schema) (entries : List Entry) : Nat → Nat → Visiting Resolved
  | 0, _ => stuck
  | fuel + 1, id => do
    let entry ← entryAt entries id
    if entry.kind.isTree then
      operate s (isFixed entries fuel) (operand s entries fuel) entry.kind
      return .scalar
    else chain s entries fuel id .scalar

/-- Follows a path on from an entry. -/
def chain (s : Schema) (entries : List Entry) : Nat → Nat → Resolved → Visiting Resolved
  | 0, _, _ => stuck
  | fuel + 1, id, current => do
    let entry ← entryAt entries id
    let r ← visit s (operand s entries fuel) id current entry.kind
    let r ← note id r
    match entry.next with
    | some next => chain s entries fuel next r
    | none => return r

end

end Listing

namespace JoinGraph

/-- The graph of a listing before its connections are oriented. An operand and the path that it may
be are two links, so that the fuel is enough for all of them. -/
def draftOfListing (s : Schema) (entries : List Entry) : OptionT Traced JoinGraph := do
  match (entries[0]?).map Entry.kind with
  | some (.table relation) =>
    discard <| s.primaryKey relation
    let walk := Listing.chain s entries (2 * entries.length) 0 .scalar
    match ← walk.run.run { graph := ofRoot relation } with
    | (some _, draft) => return draft.graph
    | (none, _) => failure
  | _ => Traced.fail (α := JoinGraph) Unsupported.notAChain.error

/-- The graph of a listing. -/
def ofListing (s : Schema) (entries : List Entry) : OptionT Traced JoinGraph := do
  let draft ← draftOfListing s entries
  draft.finish

end JoinGraph
end FetchPlan
