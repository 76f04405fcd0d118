import FetchPlan.Event.Traced

/-!
# What a computation yields

A computation over a state either fails, or it yields a result and a next state. `Yields` says
that it does the latter, and the lemmas below take this apart along the computation. The events
reported on the way play no part.
-/

namespace FetchPlan

variable {ε σ α β : Type}

theorem bind_eq_ok {x : Except ε α} {f : α → Except ε β} {b : β} :
    x >>= f = .ok b ↔ ∃ a, x = .ok a ∧ f a = .ok b := by
  cases x with
  | error e => simp [bind, Except.bind]
  | ok a => simp [bind, Except.bind]

theorem pure_eq_ok {a b : α} : (pure a : Except ε α) = .ok b ↔ a = b := by
  simp [pure, Except.pure]

theorem result_bind_eq_ok {x : Traced α} {f : α → Traced β} {b : β} :
    (x >>= f).result = .ok b ↔ ∃ a, x.result = .ok a ∧ (f a).result = .ok b := by
  rw [Traced.result_bind, bind_eq_ok]

theorem result_pure_eq_ok {a b : α} : (pure a : Traced α).result = .ok b ↔ a = b := by
  rw [Traced.result_pure, Except.ok.injEq]

/-- Started in the state `d`, the computation ends with the result `a` in the state `d'`. -/
def Yields (x : StateT σ Traced α) (d : σ) (a : α) (d' : σ) : Prop :=
  (x.run d).result = .ok (a, d')

variable {d d' : σ} {a : α} {b : β}

theorem Yields.unique {x : StateT σ Traced α} {a' : α} {e : σ} (h : Yields x d a d')
    (h' : Yields x d a' e) : a = a' ∧ d' = e := Prod.mk.inj (Except.ok.inj (h.symm.trans h'))

theorem yields_pure {a' : α} : Yields (pure a) d a' d' ↔ a' = a ∧ d' = d := by
  have h : ((pure a : StateT σ Traced α).run d).result = .ok (a, d) := rfl
  rw [Yields, h, Except.ok.injEq, Prod.mk.injEq, eq_comm, eq_comm (a := d)]

theorem yields_bind {x : StateT σ Traced α} {f : α → StateT σ Traced β} :
    Yields (x >>= f) d b d' ↔ ∃ a e, Yields x d a e ∧ Yields (f a) e b d' := by
  have h : ((x >>= f).run d).result =
      (x.run d).result >>= fun p => ((f p.1).run p.2).result := Traced.result_bind _ _
  rw [Yields, h, bind_eq_ok]
  constructor
  · rintro ⟨⟨a, e⟩, hx, hf⟩
    exact ⟨a, e, hx, hf⟩
  · rintro ⟨a, e, hx, hf⟩
    exact ⟨(a, e), hx, hf⟩

theorem yields_map {x : StateT σ Traced α} {f : α → β} :
    Yields (f <$> x) d b d' ↔ ∃ a, Yields x d a d' ∧ b = f a := by
  have h : ((f <$> x).run d).result =
      (x.run d).result >>= fun p => .ok (f p.1, p.2) := Traced.result_bind _ _
  rw [Yields, h, bind_eq_ok]
  constructor
  · rintro ⟨⟨a, e⟩, hx, hf⟩
    rw [Except.ok.injEq, Prod.mk.injEq] at hf
    obtain ⟨rfl, rfl⟩ := hf
    exact ⟨a, hx, rfl⟩
  · rintro ⟨a, hx, rfl⟩
    exact ⟨(a, d'), hx, rfl⟩

theorem yields_get {a : σ} : Yields (get : StateT σ Traced σ) d a d' ↔ a = d ∧ d' = d := by
  have h : ((get : StateT σ Traced σ).run d).result = .ok (d, d) := rfl
  rw [Yields, h, Except.ok.injEq, Prod.mk.injEq, eq_comm, eq_comm (a := d) (b := d')]

theorem yields_modify {f : σ → σ} {u : PUnit} :
    Yields (modify f : StateT σ Traced PUnit) d u d' ↔ d' = f d := by
  have h : ((modify f : StateT σ Traced PUnit).run d).result = .ok (u, f d) := rfl
  rw [Yields, h, Except.ok.injEq, Prod.mk.injEq, eq_comm (a := f d)]
  simp

/-- A computation without a state leaves the state as it is. -/
theorem yields_lift {x : Traced α} :
    Yields (liftM x : StateT σ Traced α) d a d' ↔ x.result = .ok a ∧ d' = d := by
  have h : ((liftM x : StateT σ Traced α).run d).result =
      x.result >>= fun a => .ok (a, d) := Traced.result_bind _ _
  rw [Yields, h, bind_eq_ok]
  constructor
  · rintro ⟨b, hx, hb⟩
    rw [Except.ok.injEq, Prod.mk.injEq] at hb
    obtain ⟨rfl, rfl⟩ := hb
    exact ⟨hx, rfl⟩
  · rintro ⟨hx, rfl⟩
    exact ⟨a, hx, rfl⟩

theorem yields_liftExcept {x : Except Error α} :
    Yields (liftM x : StateT σ Traced α) d a d' ↔ x = .ok a ∧ d' = d :=
  yields_lift (x := (liftM x : Traced α))

/-! ## First steps -/

variable {f : α → StateT σ Traced β}

theorem yields_get_bind {f : σ → StateT σ Traced β} :
    Yields (get >>= f) d b d' ↔ Yields (f d) d b d' := by
  rw [yields_bind]
  constructor
  · intro h
    obtain ⟨a, e, hget, h⟩ := h
    obtain ⟨rfl, rfl⟩ := yields_get.1 hget
    exact h
  · intro h
    exact ⟨d, d, yields_get.2 ⟨rfl, rfl⟩, h⟩

theorem yields_modify_bind {change : σ → σ} {f : PUnit → StateT σ Traced β} :
    Yields (modify change >>= f) d b d' ↔ Yields (f ⟨⟩) (change d) b d' := by
  rw [yields_bind]
  constructor
  · intro h
    obtain ⟨a, e, hmodify, h⟩ := h
    obtain rfl := yields_modify.1 hmodify
    exact h
  · intro h
    exact ⟨⟨⟩, _, yields_modify.2 rfl, h⟩

theorem yields_lift_bind {x : Traced α} :
    Yields (liftM x >>= f) d b d' ↔ ∃ a, x.result = .ok a ∧ Yields (f a) d b d' := by
  rw [yields_bind]
  constructor
  · intro h
    obtain ⟨a, e, hlift, h⟩ := h
    obtain ⟨hx, rfl⟩ := yields_lift.1 hlift
    exact ⟨a, hx, h⟩
  · intro h
    obtain ⟨a, hx, h⟩ := h
    exact ⟨a, d, yields_lift.2 ⟨hx, rfl⟩, h⟩

theorem yields_liftExcept_bind {x : Except Error α} :
    Yields (liftM x >>= f) d b d' ↔ ∃ a, x = .ok a ∧ Yields (f a) d b d' :=
  yields_lift_bind (x := (liftM x : Traced α))

/-! ## Repetitions -/

theorem yields_forM_cons {f : α → StateT σ Traced PUnit} {l : List α} :
    Yields ((a :: l).forM f) d ⟨⟩ d' ↔ ∃ e, Yields (f a) d ⟨⟩ e ∧ Yields (l.forM f) e ⟨⟩ d' :=
  yields_bind.trans ⟨fun ⟨_, e, h⟩ => ⟨e, h⟩, fun ⟨e, h⟩ => ⟨⟨⟩, e, h⟩⟩

/-- One list after the other. -/
theorem yields_forM_append {f : α → StateT σ Traced PUnit} {l l' : List α} :
    Yields ((l ++ l').forM f) d ⟨⟩ d' ↔
      ∃ e, Yields (l.forM f) d ⟨⟩ e ∧ Yields (l'.forM f) e ⟨⟩ d' := by
  induction l generalizing d with
  | nil =>
    constructor
    · exact fun h => ⟨d, yields_pure.2 ⟨rfl, rfl⟩, h⟩
    · intro h
      obtain ⟨e, hnil, h⟩ := h
      obtain ⟨-, rfl⟩ := yields_pure.1 hnil
      exact h
  | cons a l ih =>
    rw [List.cons_append, yields_forM_cons]
    simp only [yields_forM_cons, ih]
    constructor
    · rintro ⟨e, ha, e', hl, hl'⟩
      exact ⟨e', ⟨e, ha, hl⟩, hl'⟩
    · rintro ⟨e', ⟨e, ha, hl⟩, hl'⟩
      exact ⟨e, ha, e', hl, hl'⟩

/-! ## Failures -/

/-- Started in the state `d`, the computation ends with the error `err`. -/
def Fails (x : StateT σ Traced α) (d : σ) (err : Error) : Prop := (x.run d).result = .error err

variable {x : StateT σ Traced α} {err : Error}

/-- A sequence fails in its first part, or in the second after the first has ended. -/
theorem fails_bind : Fails (x >>= f) d err ↔
    Fails x d err ∨ ∃ a e, Yields x d a e ∧ Fails (f a) e err := by
  have hrun : ((x >>= f).run d).result =
      (x.run d).result >>= fun p => ((f p.1).run p.2).result := Traced.result_bind _ _
  rw [Fails, Fails, hrun]
  cases hx : (x.run d).result with
  | error err' =>
    constructor
    · intro h
      obtain rfl := Except.error.inj h
      exact Or.inl rfl
    · rintro (h | ⟨a, e, hy, -⟩)
      · obtain rfl := Except.error.inj h
        rfl
      · exact absurd (hx.symm.trans hy) (by simp)
  | ok p =>
    constructor
    · exact fun h => Or.inr ⟨p.1, p.2, hx, h⟩
    · rintro (h | ⟨a, e, hy, h⟩)
      · exact absurd h (by simp)
      · obtain rfl := Except.ok.inj (hx.symm.trans hy)
        exact h

theorem Fails.bind (h : Fails x d err) : Fails (x >>= f) d err := fails_bind.2 (Or.inl h)

theorem Yields.fails_bind (h : Yields x d a d') (hf : Fails (f a) d' err) :
    Fails (x >>= f) d err := FetchPlan.fails_bind.2 (Or.inr ⟨a, d', h, hf⟩)

theorem Yields.not_fails (h : Yields x d a d') : ¬ Fails x d err := by
  intro hfails
  exact absurd (h.symm.trans hfails) (by simp)

/-- A computation without a state fails as it does on its own. -/
theorem fails_lift {x : Traced α} :
    Fails (liftM x : StateT σ Traced α) d err ↔ x.result = .error err := by
  have h : ((liftM x : StateT σ Traced α).run d).result =
      x.result >>= fun a => .ok (a, d) := Traced.result_bind _ _
  rw [Fails, h]
  cases x.result with
  | error err' => simp [bind, Except.bind]
  | ok a => simp [bind, Except.bind]

theorem fails_liftExcept {x : Except Error α} (h : x = .error err) :
    Fails (liftM x : StateT σ Traced α) d err := by
  rw [h]
  rfl

end FetchPlan
