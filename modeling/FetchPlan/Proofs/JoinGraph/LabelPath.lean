import FetchPlan.JoinGraph.FieldPairs
import Mathlib.Logic.Relation

/-!
# Label paths

The way from the root of a join graph to a node, told by what its connections join: a list of
steps, each with its fields and the relation it leads to. The last step comes first. A step that
is walked back at once cancels out (`Cancels`). Cancelling in any order ends in the same path,
which `reduce` computes (`reducesTo_iff`).
-/

namespace FetchPlan

/-- A step of a label path: the fields that are joined, and the relation it leads to. -/
structure Label where
  fields : FieldPairs
  relation : String
deriving DecidableEq

namespace LabelPath

variable {start : String} {l step back : Label} {p q r : List Label}

/-- The relation that a path from the relation `start` ends at. -/
def endsAt (start : String) : List Label → String
  | [] => start
  | l :: _ => l.relation

/-- Two adjacent steps cancel out: the second one is on the fields of the first one reversed, and
leads back to the relation before it. -/
inductive Cancels (start : String) : List Label → List Label → Prop
  | here {step back : Label} {p : List Label} (fields : back.fields = step.fields.reversed)
      (relation : back.relation = endsAt start p) : Cancels start (back :: step :: p) p
  | later {l : Label} {p q : List Label} (h : Cancels start p q) : Cancels start (l :: p) (l :: q)

/-- Nothing cancels out. -/
def Irreducible (start : String) (p : List Label) : Prop := ∀ q, ¬ Cancels start p q

/-- Cancelling leads from `p` to `q`, in which nothing is left to cancel. -/
def ReducesTo (start : String) (p q : List Label) : Prop :=
  Relation.ReflTransGen (Cancels start) p q ∧ Irreducible start q

/-- A reduced path with one step more, which may cancel its last one out. -/
def extend (start : String) (l : Label) : List Label → List Label
  | [] => [l]
  | step :: p =>
    if l.fields = step.fields.reversed ∧ l.relation = endsAt start p then p else l :: step :: p

/-- The path in which everything has cancelled out. -/
def reduce (start : String) : List Label → List Label
  | [] => []
  | l :: p => extend start l (reduce start p)

/-! ## Irreducible paths -/

theorem Irreducible.tail (h : Irreducible start (l :: p)) : Irreducible start p :=
  fun q hq => h (l :: q) (.later hq)

theorem irreducible_nil : Irreducible start [] := fun _ h => nomatch h

theorem irreducible_extend (h : Irreducible start p) : Irreducible start (extend start l p) := by
  cases p with
  | nil =>
    intro q hq
    cases hq with
    | later hq => exact irreducible_nil _ hq
  | cons step p =>
    rw [extend]
    split
    · exact h.tail
    · next hne =>
      intro q hq
      cases hq with
      | here fields relation => exact hne ⟨fields, relation⟩
      | later hq => exact h _ hq

/-- A step that does not cancel is just added. -/
theorem extend_eq_cons (h : Irreducible start (l :: p)) : extend start l p = l :: p := by
  cases p with
  | nil => rfl
  | cons step p =>
    rw [extend, if_neg]
    intro hback
    exact h p (.here hback.1 hback.2)

/-- A step and the step back leave an irreducible path as it is. -/
theorem extend_extend (h : Irreducible start p) (hfields : back.fields = step.fields.reversed)
    (hrelation : back.relation = endsAt start p) :
    extend start back (extend start step p) = p := by
  cases p with
  | nil =>
    rw [extend, extend, if_pos ⟨hfields, hrelation⟩]
  | cons last p =>
    rw [extend]
    split
    · next hcancel =>
      -- The step cancels the last one out, so the step back is the last one.
      have hback : back = last := by
        obtain ⟨fields, relation⟩ := back
        obtain ⟨lastFields, lastRelation⟩ := last
        rw [hcancel.1, FieldPairs.reversed_reversed] at hfields
        exact Label.mk.injEq _ _ _ _ ▸ ⟨hfields, hrelation⟩
      rw [hback]
      exact extend_eq_cons h
    · rw [extend, if_pos ⟨hfields, hrelation⟩]

/-! ## Reduced paths -/

theorem irreducible_reduce : Irreducible start (reduce start p) := by
  induction p with
  | nil => exact irreducible_nil
  | cons l p ih => exact irreducible_extend ih

theorem reduce_eq_self (h : Irreducible start p) : reduce start p = p := by
  induction p with
  | nil => rfl
  | cons l p ih =>
    rw [reduce, ih h.tail]
    exact extend_eq_cons h

theorem endsAt_extend : endsAt start (extend start l p) = l.relation := by
  cases p with
  | nil => rfl
  | cons step p =>
    rw [extend]
    split
    · next h => exact h.2.symm
    · rfl

theorem endsAt_reduce : endsAt start (reduce start p) = endsAt start p := by
  cases p with
  | nil => rfl
  | cons l p => exact endsAt_extend

/-- What cancels out makes no difference to the reduced path. -/
theorem reduce_eq_of_cancels (h : Cancels start p q) : reduce start p = reduce start q := by
  induction h with
  | here fields relation =>
    exact extend_extend irreducible_reduce fields (relation.trans endsAt_reduce.symm)
  | @later l p q _ ih => exact congrArg (extend start l) ih

theorem cancels_extend : extend start l p = l :: p ∨ Cancels start (l :: p) (extend start l p) := by
  cases p with
  | nil => exact Or.inl rfl
  | cons step p =>
    rw [extend]
    split
    · next h => exact Or.inr (.here h.1 h.2)
    · exact Or.inl rfl

theorem cancels_reduce : Relation.ReflTransGen (Cancels start) p (reduce start p) := by
  induction p with
  | nil => exact .refl
  | cons l p ih =>
    have hlater : Relation.ReflTransGen (Cancels start) (l :: p) (l :: reduce start p) :=
      Relation.ReflTransGen.lift (l :: ·) (fun _ _ => Cancels.later) _ _ ih
    rcases cancels_extend (l := l) (p := reduce start p) with heq | hcancel
    · rw [reduce, heq]
      exact hlater
    · exact hlater.tail hcancel

/-- Cancelling for as long as possible ends in the reduced path, in whatever order. -/
theorem reducesTo_iff : ReducesTo start p q ↔ reduce start p = q := by
  constructor
  · intro h
    obtain ⟨hrun, hq⟩ := h
    have hsame : reduce start p = reduce start q := by
      clear hq
      induction hrun with
      | refl => rfl
      | tail _ hlast ih => exact ih.trans (reduce_eq_of_cancels hlast)
    rw [hsame, reduce_eq_self hq]
  · intro h
    rw [← h]
    exact ⟨cancels_reduce, irreducible_reduce⟩

end LabelPath
end FetchPlan
