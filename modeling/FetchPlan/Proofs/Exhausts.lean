/-!
# Loops that run until nothing is left to do

`Exhausts` is a loop without a budget: as long as something to do is found, it is done. `exhaust` is
the same loop with a budget. If every round lowers a measure, the loop ends by itself before
a budget of that measure is used up (`exhausts_exhaust`), and it can end in one way only
(`Exhausts.unique`).
-/

namespace FetchPlan

variable {σ τ : Type} {next : σ → Option τ} {act : τ → σ → σ} {P : σ → Prop} {m : σ → Nat}
  {s s' s'' : σ} {xs ys : List τ}

/-- What `next` finds is done, until it finds nothing. -/
inductive Exhausts (next : σ → Option τ) (act : τ → σ → σ) : σ → List τ → σ → Prop
  | stop {s : σ} (nothing : next s = none) : Exhausts next act s [] s
  | go {s s' : σ} {x : τ} {xs : List τ} (found : next s = some x)
      (rest : Exhausts next act (act x s) xs s') : Exhausts next act s (x :: xs) s'

/-- What `next` finds is done, at most `budget` times. -/
def exhaust (next : σ → Option τ) (act : τ → σ → σ) : (budget : Nat) → σ → List τ × σ
  | 0, s => ([], s)
  | budget + 1, s =>
    match next s with
    | none => ([], s)
    | some x =>
      let (done, s) := exhaust next act budget (act x s)
      (x :: done, s)

/-- At the end there is nothing left to do. -/
theorem Exhausts.next_eq_none (h : Exhausts next act s xs s') : next s' = none := by
  induction h with
  | stop nothing => exact nothing
  | go _ _ ih => exact ih

/-- A loop has one end only. -/
theorem Exhausts.unique (h : Exhausts next act s xs s') (h' : Exhausts next act s ys s'') :
    xs = ys ∧ s' = s'' := by
  induction h generalizing ys s'' with
  | stop nothing =>
    cases h' with
    | stop _ => exact ⟨rfl, rfl⟩
    | go found _ => exact absurd (found.symm.trans nothing) (by simp)
  | go found _ ih =>
    cases h' with
    | stop nothing => exact absurd (found.symm.trans nothing) (by simp)
    | go found' rest' =>
      obtain rfl := Option.some.inj (found.symm.trans found')
      obtain ⟨rfl, rfl⟩ := ih rest'
      exact ⟨rfl, rfl⟩

section Measure

variable (step : ∀ s x, P s → next s = some x → P (act x s) ∧ m (act x s) < m s)

include step

/-- The measure bounds the number of rounds. -/
theorem Exhausts.length_le (h : Exhausts next act s xs s') (hs : P s) :
    xs.length + m s' ≤ m s := by
  induction h with
  | stop _ => simp
  | go found _ ih =>
    obtain ⟨hs', hlt⟩ := step _ _ hs found
    have hrest := ih hs'
    rw [List.length_cons]
    omega

/-- A budget of the measure is enough for the loop to end by itself. -/
theorem exhausts_exhaust {budget : Nat} (hs : P s) (hb : m s ≤ budget) :
    Exhausts next act s (exhaust next act budget s).1 (exhaust next act budget s).2 := by
  induction budget generalizing s with
  | zero =>
    refine .stop (Option.eq_none_iff_forall_ne_some.2 ?_)
    intro x hx
    have hlt := (step s x hs hx).2
    omega
  | succ budget ih =>
    rw [exhaust]
    split
    · next hnone => exact .stop hnone
    · next x hx =>
      obtain ⟨hs', hlt⟩ := step s x hs hx
      exact .go hx (ih hs' (by omega))

end Measure

end FetchPlan
