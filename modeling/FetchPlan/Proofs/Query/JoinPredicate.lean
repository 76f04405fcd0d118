import FetchPlan.Proofs.Batch.Execution
import FetchPlan.Proofs.Flow.OnlyNavigates

/-!
# Join predicates

A relation can be joined to the rows of another one by a predicate, a combination of equalities
between their columns and of comparisons with constants. Rows for which the predicate holds do not
have to agree on all of its equalities; they do if the predicate forces them
(`JoinPredicate.Forces`).
-/

namespace FetchPlan

/-- A condition on a row that is joined and the row that it is joined to. -/
inductive JoinPredicate
  /-- A column of the joined row equals one of the other row. -/
  | joined (column other : String)
  /-- A column of the joined row is compared with a constant. -/
  | compared (op : BinaryOp) (column : String) (constant : Expr) (fixed : constant.isConstant)
  /-- A constant is compared with a column of the joined row. -/
  | comparing (op : BinaryOp) (constant : Expr) (column : String) (fixed : constant.isConstant)
  | and (p q : JoinPredicate)
  | or (p q : JoinPredicate)
  | not (p : JoinPredicate)

namespace JoinPredicate

/-- The predicate as an expression over the parameters `y` for the joined row and `x` for the
other one. -/
def expr (y x : String) : JoinPredicate → Expr
  | joined column other =>
    .binary .eq (.member (.param y) (.column column)) (.member (.param x) (.column other))
  | compared op column constant _ => .binary op (.member (.param y) (.column column)) constant
  | comparing op constant column _ => .binary op constant (.member (.param y) (.column column))
  | and p q => .binary .and (p.expr y x) (q.expr y x)
  | or p q => .binary .or (p.expr y x) (q.expr y x)
  | not p => .unary .not (p.expr y x)

/-- The rows of `relation` to which a row of `joined` is joined by the predicate. -/
def query (p : JoinPredicate) (relation joined x y : String) : Expr :=
  .filter (.table relation) (.lambda [x]
    (.any (.table joined) (.lambda [y] (p.expr y x))))

/-- The equalities between columns, those of the joined row as the targets. -/
def equalities : JoinPredicate → List FieldPair
  | joined column other => [⟨other, column⟩]
  | compared .. => []
  | comparing .. => []
  | and p q => p.equalities ++ q.equalities
  | or p q => p.equalities ++ q.equalities
  | not p => p.equalities

variable {V : Type} {value : Expr → V} {compare : BinaryOp → V → V → Prop} {r r' : Row V}

/-- The predicate holds for the joined row `r` and the row `r'`, with these values of constants and
this meaning of comparisons. -/
def Holds (value : Expr → V) (compare : BinaryOp → V → V → Prop) (r r' : Row V) :
    JoinPredicate → Prop
  | joined column other => r column = r' other
  | compared op column constant _ => compare op (r column) (value constant)
  | comparing op constant column _ => compare op (value constant) (r column)
  | and p q => p.Holds value compare r r' ∧ q.Holds value compare r r'
  | or p q => p.Holds value compare r r' ∨ q.Holds value compare r r'
  | not p => ¬ p.Holds value compare r r'

/-- The equalities of the predicate stand where they hold if the predicate has the truth value `b`:
under conjunctions if it is true, under disjunctions if it is false. -/
def Forces : Bool → JoinPredicate → Prop
  | b, joined _ _ => b = true
  | _, compared .. => True
  | _, comparing .. => True
  | true, and p q => p.Forces true ∧ q.Forces true
  | false, and p q => p.equalities ++ q.equalities = []
  | true, or p q => p.equalities ++ q.equalities = []
  | false, or p q => p.Forces false ∧ q.Forces false
  | b, not p => p.Forces (!b)

/-- Rows for which the predicate has the truth value `b` agree on all equalities that it forces. -/
theorem Forces.agree {p : JoinPredicate} {b : Bool} (h : p.Forces b)
    (hp : p.Holds value compare r r' ↔ b = true) :
    ∀ e ∈ p.equalities, r e.target = r' e.source := by
  induction p generalizing b with
  | joined column other =>
    intro e he
    obtain rfl := List.mem_singleton.1 he
    exact hp.2 h
  | compared op column constant fixed => exact fun e he => absurd he List.not_mem_nil
  | comparing op constant column fixed => exact fun e he => absurd he List.not_mem_nil
  | and p q ihp ihq =>
    cases b with
    | true =>
      have hboth := hp.2 rfl
      intro e he
      rcases List.mem_append.1 he with he | he
      · exact ihp h.1 (iff_of_true hboth.1 rfl) e he
      · exact ihq h.2 (iff_of_true hboth.2 rfl) e he
    | false =>
      -- Either operand may be the one that fails, so there is no equality in them.
      have hnone : p.equalities ++ q.equalities = [] := h
      intro e he
      rw [equalities, hnone] at he
      exact absurd he List.not_mem_nil
  | or p q ihp ihq =>
    cases b with
    | true =>
      have hnone : p.equalities ++ q.equalities = [] := h
      intro e he
      rw [equalities, hnone] at he
      exact absurd he List.not_mem_nil
    | false =>
      have hneither : ¬ (p.Holds value compare r r' ∨ q.Holds value compare r r') :=
        fun hor => Bool.false_ne_true (hp.1 hor)
      intro e he
      rcases List.mem_append.1 he with he | he
      · exact ihp h.1 (iff_of_false (fun hl => hneither (Or.inl hl)) Bool.false_ne_true) e he
      · exact ihq h.2 (iff_of_false (fun hr => hneither (Or.inr hr)) Bool.false_ne_true) e he
  | not p ih =>
    have hnot : p.Holds value compare r r' ↔ (!b) = true := by
      rw [Bool.not_eq_true', ← Bool.not_eq_true, ← hp]
      exact not_not.symm
    exact ih h hnot

end JoinPredicate
end FetchPlan
