import FetchPlan.OrderedSet

/-!
# Joined fields

The pairs of fields that two relations are joined on, as a set in order. Seen from the other
end the pairs are swapped, and swapping twice gives the same set back.
-/

namespace FetchPlan

open Std

/-- A field of the relation a connection leaves, joined with one of the relation it reaches. -/
structure FieldPair where
  source : String
  target : String
deriving DecidableEq, Repr

namespace FieldPair

/-- Pairs are ordered by their source fields, then by their target fields. -/
instance : Ord FieldPair := ⟨compareLex (compareOn source) (compareOn target)⟩

instance : TransOrd FieldPair :=
  inferInstanceAs (TransCmp (compareLex (compareOn source) (compareOn target)))

instance : LawfulEqOrd FieldPair where
  eq_of_compare {a b} h := by
    have h : (compare a.source b.source).then (compare a.target b.target) = .eq := h
    obtain ⟨hs, ht⟩ := Ordering.then_eq_eq.1 h
    cases a; cases b
    simp_all

/-- The pair seen from the other end. -/
def swap (p : FieldPair) : FieldPair := ⟨p.target, p.source⟩

@[simp] theorem swap_swap (p : FieldPair) : p.swap.swap = p := rfl

end FieldPair

/-- A set of field names, in order. -/
abbrev FieldSet := OrderedSet String

/-- The field pairs of a connection, in order. -/
abbrev FieldPairs := OrderedSet FieldPair

namespace FieldPairs

/-- The pairs of two lists of fields, position by position. -/
def zip (sources targets : List String) : FieldPairs :=
  .ofList (List.zipWith FieldPair.mk sources targets)

/-- The same pairs seen from the other end. -/
def reversed (ps : FieldPairs) : FieldPairs := .ofList (ps.toList.map FieldPair.swap)

/-- Whether `other` are the same pairs, walked back the other way. -/
def isReverseOf (ps other : FieldPairs) : Bool := ps = other.reversed

/-- The source fields. -/
def sources (ps : FieldPairs) : FieldSet := .ofList (ps.toList.map FieldPair.source)

/-- The target fields. -/
def targets (ps : FieldPairs) : FieldSet := .ofList (ps.toList.map FieldPair.target)

/-- The pairs as they are written in a log. -/
def text (ps : FieldPairs) : String :=
  let list := ", ".intercalate (ps.toList.map fun p => s!"{p.source} = {p.target}")
  s!"[{list}]"

theorem mem_reversed {ps : FieldPairs} {p : FieldPair} : p ∈ ps.reversed ↔ p.swap ∈ ps := by
  simp only [reversed, OrderedSet.mem_ofList, List.mem_map, OrderedSet.mem_toList]
  constructor
  · rintro ⟨q, hq, rfl⟩
    exact hq
  · exact fun h => ⟨p.swap, h, rfl⟩

@[simp] theorem reversed_reversed (ps : FieldPairs) : ps.reversed.reversed = ps :=
  OrderedSet.ext_mem fun p => by simp [mem_reversed]

end FieldPairs
end FetchPlan
