import FetchPlan.Error.Basic

/-!
# Errors held in several places

A cause may be part of several errors at once. Every cause carries a mark that tells it from all
others, and two errors share it if both have its mark. An error in use as context is extended in
place only while no one else holds its outermost cause; `Shelf` keeps the errors that count as
holders.
-/

namespace FetchPlan

/-- An error with the marks of its causes. -/
structure Held where
  error : Error
  /-- The mark of the outermost cause. -/
  mark : Nat
  /-- The marks of the other causes. -/
  behind : List Nat := []
deriving DecidableEq

/-- The marks of all causes, the outermost first. -/
def Held.marks (h : Held) : List Nat := h.mark :: h.behind

/-- Errors in numbered slots. A slot is empty once its error has been taken out of it. -/
structure Shelf where
  slots : List (Option Held) := []
  /-- A mark that no cause carries yet, like all greater ones. -/
  nextMark : Nat := 0

namespace Shelf

/-- The error in a slot. -/
def slot? (s : Shelf) (i : Nat) : Option Held := s.slots[i]?.join

/-- Puts an error of one new cause into the next slot. -/
def add (s : Shelf) (c : Cause) : Shelf :=
  { slots := s.slots ++ [some ⟨c, s.nextMark, []⟩], nextMark := s.nextMark + 1 }

/-- Whether an error in a slot other than `i` has the outermost cause of `h`. -/
def isHeldElsewhere (s : Shelf) (i : Nat) (h : Held) : Bool :=
  (s.slots.set i none).any fun
    | some other => h.mark ∈ other.marks
    | none => false

/-- Puts into the next slot the error `e` behind the context `c`, which others hold if it is
shared. A context that is not extended gives way to a new cause. -/
def addContext (s : Shelf) (e c : Held) (shared : Bool) : Shelf :=
  let mark := if c.error.isOpen shared then c.mark else s.nextMark
  { slots := s.slots ++ [some ⟨e.error.context c.error shared, mark, e.marks⟩]
    nextMark := s.nextMark + 1 }

/-- Puts into the next slot the error of slot `cause` behind a new context. -/
def within? (s : Shelf) (cause : Nat) (context : Cause) : Option Shelf := do
  let e ← s.slot? cause
  return s.addContext e ⟨context, s.nextMark, []⟩ false

/-- Puts into the next slot the error of slot `cause` behind the one of slot `context`, which
stays where it is and so is shared. -/
def withinShared? (s : Shelf) (cause context : Nat) : Option Shelf := do
  let e ← s.slot? cause
  let c ← s.slot? context
  return s.addContext e c true

/-- Puts into the next slot the error of slot `cause` behind the one of slot `context`, which is
taken out of its slot. -/
def withinTaken? (s : Shelf) (cause context : Nat) : Option Shelf := do
  let e ← s.slot? cause
  let c ← s.slot? context
  -- An error that is put behind itself holds its own context.
  let shared := cause = context || s.isHeldElsewhere context c
  return { s with slots := s.slots.set context none }.addContext e c shared

/-- The error of the last slot. -/
def last? (s : Shelf) : Option Error := return (← s.slots.getLast?.join).error

end Shelf
end FetchPlan
