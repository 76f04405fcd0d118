import FetchPlan.JoinGraph.FieldPairs
import FetchPlan.Text.ByteOrder

/-!
# Field pairs in an array

The field pairs of a connection in an array, with nothing about the array that keeps it in order.
A pair is looked for by halving, the pairs seen from the other end are sorted anew, and fields that
are repeated are dropped where they stand side by side. This finds the pairs, and lists the fields
once, only as long as the array is in order.
-/

namespace FetchPlan

/-! ## Looking for a place -/

/-- Where an entry of an array of this size stands, or the place that it would be put at. -/
inductive Spot (size : Nat)
  | taken (index : Fin size)
  | free (index : Fin (size + 1))

/-- Looks between two places of an array for an entry that `order` finds equal, by halving. An entry
that it finds less stands before it. -/
def bisect {α : Type} (order : α → Ordering) (entries : Array α) (low high : Nat)
    (hlow : low ≤ high) (hhigh : high ≤ entries.size) : Spot entries.size :=
  if hlt : low < high then
    let middle := (low + high) / 2
    have hmiddle : middle < entries.size := by omega
    match order entries[middle] with
    | .eq => .taken ⟨middle, hmiddle⟩
    | .lt => bisect order entries (middle + 1) high (by omega) hhigh
    | .gt => bisect order entries low middle (by omega) (by omega)
  else .free ⟨low, by omega⟩
termination_by high - low

/-! ## Arrays of pairs -/

/-- Pairs are compared by the bytes of their source fields, then by those of their target fields. -/
def FieldPair.byteOrder (p q : FieldPair) : Ordering :=
  (compareBytes p.source q.source).then (compareBytes p.target q.target)

/-- The field pairs of a connection, in the order of their bytes. -/
structure PairArray where
  pairs : Array FieldPair
deriving DecidableEq

namespace PairArray

instance : EmptyCollection PairArray := ⟨⟨#[]⟩⟩

/-- The pairs in a list. -/
def toList (t : PairArray) : List FieldPair := t.pairs.toList

/-- Where a pair stands, or would be put. -/
def spot (t : PairArray) (p : FieldPair) : Spot t.pairs.size :=
  bisect (fun q => q.byteOrder p) t.pairs 0 t.pairs.size (Nat.zero_le _) (Nat.le_refl _)

/-- Puts a pair in its place, unless it is there already. Tells whether it was put there. -/
def insert (t : PairArray) (p : FieldPair) : Bool × PairArray :=
  match t.spot p with
  | .taken _ => (false, t)
  | .free index => (true, ⟨t.pairs.insertIdx index p (Nat.le_of_lt_succ index.isLt)⟩)

/-- The pairs of two lists of fields, put in one after the other. -/
def ofFields (sources targets : List String) : PairArray :=
  (List.zipWith FieldPair.mk sources targets).foldl (fun t p => (t.insert p).2) ∅

/-- The same pairs seen from the other end, sorted. -/
def reversed (t : PairArray) : PairArray :=
  ⟨((t.toList.map FieldPair.swap).mergeSort fun p q => (p.byteOrder q).isLE).toArray⟩

/-- Whether `other` are the same pairs, walked back the other way. -/
def isReverseOf (t other : PairArray) : Bool := t = other.reversed

/-- The source fields. They are not sorted again: the order of the pairs puts equal ones side by
side. -/
def sources (t : PairArray) : List String := (t.toList.map FieldPair.source).eraseReps

/-- The target fields. -/
def targets (t : PairArray) : List String :=
  ((t.toList.map FieldPair.target).mergeSort fun x y => (compareBytes x y).isLE).eraseReps

end PairArray
end FetchPlan
