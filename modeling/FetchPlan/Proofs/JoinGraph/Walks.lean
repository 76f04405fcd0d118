import FetchPlan.Proofs.Flow.Numbering
import FetchPlan.Proofs.JoinGraph.Operations

/-!
# What walks yield

The walk of an operand or of a path succeeds exactly if the walks of its parts do, one after the
other. What it yields is made of what they yield.
-/

namespace FetchPlan

open Building

/-! ## Operands -/

variable {s : Schema} {d d' : Draft} {r : Resolved}

/-- There is nothing to walk in what is fixed. -/
theorem Flow.yields_walk_of_isFixed (s : Schema) (d : Draft) : ∀ f : Flow, f.isFixed →
    Yields (f.walk s) d .scalar d
  | .binary _ op lhs rhs, h => by
    rw [Flow.isFixed, Bool.and_eq_true] at h
    show Yields (if op = .eq && !lhs.isFixed && !rhs.isFixed then _ else _) d _ d
    rw [h.1, h.2, Bool.not_true, Bool.and_false, if_neg Bool.false_ne_true]
    exact yields_pure.2 ⟨rfl, rfl⟩
  | .unary _ _ operand, h => by
    have hoperand := operand.yields_walk_of_isFixed s d h
    exact yields_discard_bind.2 ⟨_, _, hoperand, yields_pure.2 ⟨rfl, rfl⟩⟩
  | .fixed _, _ => yields_pure.2 ⟨rfl, rfl⟩

/-- A side of a comparison may be walked even if it is fixed. -/
theorem yields_walk_side {f : Flow} {rest : Building Resolved} :
    Yields (if f.isFixed then rest else do discard (f.walk s); rest) d r d' ↔
      ∃ r' e, Yields (f.walk s) d r' e ∧ Yields rest e r d' := by
  split
  · next hfixed =>
    have hwalk := f.yields_walk_of_isFixed s d hfixed
    refine ⟨fun hy => ⟨_, d, hwalk, hy⟩, ?_⟩
    rintro ⟨r', e, hy, hrest⟩
    obtain ⟨-, rfl⟩ := hwalk.unique hy
    exact hrest
  · exact yields_discard_bind

/-- Both sides of an operation are walked, one after the other. If it is an equality of sides that
are not fixed, they are joined. -/
theorem Flow.yields_walk_binary {id : Nat} {op : BinaryOp} {lhs rhs : Flow} :
    Yields ((Flow.binary id op lhs rhs).walk s) d r d' ↔
      ∃ r₁ e r₂ e', Yields (lhs.walk s) d r₁ e ∧ Yields (rhs.walk s) e r₂ e' ∧ r = .scalar ∧
        ((op = .eq ∧ lhs.isFixed = false ∧ rhs.isFixed = false ∧
            Yields (equate s r₁ r₂) e' () d') ∨
          ((op = .eq → lhs.isFixed ∨ rhs.isFixed) ∧ d' = e')) := by
  have hjoins : (op = .eq && !lhs.isFixed && !rhs.isFixed) = true ↔
      op = .eq ∧ lhs.isFixed = false ∧ rhs.isFixed = false := by
    simp [and_assoc]
  show Yields (if op = .eq && !lhs.isFixed && !rhs.isFixed then _ else _) d r d' ↔ _
  split
  · next heq =>
    obtain ⟨hop, hl, hr⟩ := hjoins.1 heq
    constructor
    · intro hy
      obtain ⟨r₁, e, hwalk₁, hy⟩ := yields_bind.1 hy
      obtain ⟨r₂, e', hwalk₂, hy⟩ := yields_bind.1 hy
      obtain ⟨_, _, hequate, hy⟩ := yields_bind.1 hy
      obtain ⟨rfl, rfl⟩ := yields_pure.1 hy
      exact ⟨r₁, e, r₂, e', hwalk₁, hwalk₂, rfl, Or.inl ⟨hop, hl, hr, hequate⟩⟩
    · rintro ⟨r₁, e, r₂, e', hwalk₁, hwalk₂, rfl, ⟨-, -, -, hequate⟩ | ⟨hfixed, -⟩⟩
      · exact yields_bind.2 ⟨r₁, e, hwalk₁, yields_bind.2 ⟨r₂, e', hwalk₂, yields_bind.2
          ⟨(), d', hequate, yields_pure.2 ⟨rfl, rfl⟩⟩⟩⟩
      · rw [hl, hr, or_self] at hfixed
        exact absurd (hfixed hop) Bool.false_ne_true
  · next hne =>
    rw [hjoins] at hne
    simp only [yields_walk_side, yields_pure]
    constructor
    · rintro ⟨r₁, e, hwalk₁, r₂, e', hwalk₂, rfl, rfl⟩
      refine ⟨r₁, e, r₂, _, hwalk₁, hwalk₂, rfl, Or.inr ⟨?_, rfl⟩⟩
      intro hop
      by_contra hfixed
      rw [not_or, Bool.not_eq_true, Bool.not_eq_true] at hfixed
      exact hne ⟨hop, hfixed⟩
    · rintro ⟨r₁, e, r₂, e', hwalk₁, hwalk₂, rfl, ⟨hop, hl, hr, -⟩ | ⟨-, rfl⟩⟩
      · exact absurd ⟨hop, hl, hr⟩ hne
      · exact ⟨r₁, e, hwalk₁, r₂, _, hwalk₂, rfl, rfl⟩

theorem Flow.yields_walk_unary {id : Nat} {op : UnaryOp} {operand : Flow} :
    Yields ((Flow.unary id op operand).walk s) d r d' ↔
      ∃ r', Yields (operand.walk s) d r' d' ∧ r = .scalar := by
  refine yields_discard_bind.trans ?_
  constructor
  · rintro ⟨r', e, hwalk, hrest⟩
    obtain ⟨rfl, rfl⟩ := yields_pure.1 hrest
    exact ⟨r', hwalk, rfl⟩
  · rintro ⟨r', hwalk, rfl⟩
    exact ⟨r', d', hwalk, yields_pure.2 ⟨rfl, rfl⟩⟩

theorem Flow.yields_walk_fixed {id : Nat} :
    Yields ((Flow.fixed id).walk s) d r d' ↔ r = .scalar ∧ d' = d := by
  exact yields_pure.trans (by rw [eq_comm])

/-! ## Paths -/

namespace Path

variable {n target : Nat} {relation : String} {q : Path} {e : Draft}

/-- The relation that the query starts at has its node already. -/
theorem yields_walk_root : Yields ((Path.table 0 relation).walk s) d r d' ↔
    r = .rows JoinGraph.root none ∧ d' = ⟨d.graph, (0, r) :: d.sources⟩ := by
  refine yields_note.trans ?_
  exact and_congr_right fun h => by rw [h]

theorem yields_walk_table (hn : n ≠ 0) : Yields ((Path.table n relation).walk s) d r d' ↔
    ∃ key, s.primaryKey relation = .ok key ∧ r = .rows d.graph.size none ∧
      d' = ⟨d.graph.addNode relation, (n, r) :: d.sources⟩ := by
  show Yields (if n = 0 then _ else _) d r d' ↔ _
  rw [if_neg hn, yields_check_bind]
  simp only [yields_addNode_bind, yields_note]
  refine exists_congr fun key => and_congr_right fun _ => and_congr_right fun h => ?_
  rw [h]

theorem yields_walk_reference : Yields ((Path.reference n target).walk s) d r d' ↔
    ∃ r', d.sources.lookup target = some r' ∧ r = r'.bound ∧
      d' = ⟨d.graph, (n, r) :: d.sources⟩ := by
  refine yields_get_bind.trans ?_
  cases d.sources.lookup target with
  | none =>
    refine iff_of_false not_yields_fail ?_
    rintro ⟨r', h, -⟩
    exact absurd h (by simp)
  | some r' =>
    refine yields_note.trans ⟨?_, ?_⟩
    · rintro ⟨rfl, rfl⟩
      exact ⟨r', rfl, rfl, rfl⟩
    · rintro ⟨r'', h, rfl, rfl⟩
      obtain rfl := Option.some.inj h
      exact ⟨rfl, rfl⟩

theorem relation?_step {m : Member} : (q.step n m).relation? = q.relation? := by
  cases m with
  | _ => rfl

/-- A member is taken from what the path before stands for. -/
theorem yields_walk_step {m : Member} : Yields ((q.step n m).walk s) d r d' ↔
    ∃ r' e g, Yields (q.walk s) d r' e ∧ r'.Takes s e.graph m r g ∧
      d' = ⟨g, (n, r) :: e.sources⟩ := by
  have hnote : ∀ {x : Resolved → Building Resolved},
      (∀ {r' r e e'}, Yields (x r') e r e' ↔
        ∃ g, r'.Takes s e.graph m r g ∧ e' = { e with graph := g }) →
      (Yields (do note n (← x (← q.walk s))) d r d' ↔
        ∃ r' e g, Yields (q.walk s) d r' e ∧ r'.Takes s e.graph m r g ∧
          d' = ⟨g, (n, r) :: e.sources⟩) := by
    intro x hx
    simp only [yields_bind, hx, yields_note]
    constructor
    · rintro ⟨r', e, hwalk, _, _, ⟨g, htakes, rfl⟩, rfl, rfl⟩
      exact ⟨r', e, g, hwalk, htakes, rfl⟩
    · rintro ⟨r', e, g, hwalk, htakes, rfl⟩
      exact ⟨r', e, hwalk, r, _, ⟨g, htakes, rfl⟩, rfl, rfl⟩
  cases m with
  | column name =>
    exact hnote (x := fun v => read s v name) fun {_ _ _ _} =>
      yields_read (m := .column name) fun a => Member.noConfusion
  | projected name =>
    exact hnote (x := fun v => read s v name) fun {_ _ _ _} =>
      yields_read (m := .projected name) fun a => Member.noConfusion
  | association a =>
    exact hnote (x := fun v => follow s v a.thisKey a.otherRelation a.otherKey) fun {_ _ _ _} =>
      yields_follow

/-- A condition is walked after the path before, whose rows stay what the path stands for. -/
theorem yields_walk_filter {f : Flow} : Yields ((Path.filter q n f).walk s) d r d' ↔
    ∃ e r' e', Yields (q.walk s) d r e ∧ Yields (f.walk s) e r' e' ∧
      d' = ⟨e'.graph, (n, r) :: e'.sources⟩ := by
  refine yields_bind.trans ?_
  simp only [yields_discard_bind, yields_note]
  constructor
  · rintro ⟨_, e, hq, r', e', hf, rfl, rfl⟩
    exact ⟨e, r', e', hq, hf, rfl⟩
  · rintro ⟨e, r', e', hq, hf, rfl⟩
    exact ⟨r, e, hq, r', e', hf, rfl, rfl⟩

theorem yields_walk_select {o : Outputs} : Yields ((Path.select q n o).walk s) d r d' ↔
    ∃ r' e e', Yields (q.walk s) d r' e ∧ Yields (o.walk s) e r e' ∧
      d' = ⟨e'.graph, (n, r) :: e'.sources⟩ := by
  refine yields_discard_bind.trans ?_
  simp only [yields_bind, yields_note]
  constructor
  · rintro ⟨r', e, hq, _, e', ho, rfl, rfl⟩
    exact ⟨r', e, e', hq, ho, rfl⟩
  · rintro ⟨r', e, e', hq, ho, rfl⟩
    exact ⟨r', e, hq, r, e', ho, rfl, rfl⟩

end Path

/-! ## Records -/

theorem Outputs.yields_walk_record {fields : FlowFields} :
    Yields ((Outputs.record fields).walk s) d r d' ↔
      ∃ outputs, Yields (fields.walk s) d outputs d' ∧ r = .record outputs := by
  refine yields_bind.trans ?_
  simp only [yields_pure]
  constructor
  · rintro ⟨outputs, _, hfields, rfl, rfl⟩
    exact ⟨outputs, hfields, rfl⟩
  · rintro ⟨outputs, hfields, rfl⟩
    exact ⟨outputs, d', hfields, rfl, rfl⟩

theorem FlowFields.yields_walk_cons {name : String} {f : Flow} {rest : FlowFields}
    {outputs : List (String × Resolved)} :
    Yields ((FlowFields.cons name f rest).walk s) d outputs d' ↔
      ∃ r e others, Yields (f.walk s) d r e ∧ Yields (rest.walk s) e others d' ∧
        outputs = (name, r) :: others := by
  refine yields_bind.trans ?_
  simp only [yields_bind, yields_pure]
  constructor
  · rintro ⟨r, e, hf, others, _, hrest, rfl, rfl⟩
    exact ⟨r, e, others, hf, hrest, rfl⟩
  · rintro ⟨r, e, others, hf, hrest, rfl⟩
    exact ⟨r, e, hf, others, d', hrest, rfl, rfl⟩

/-! ## Notes -/

namespace Draft

variable {n m k : Nat} {d d' e : Draft} {r : Resolved}

/-- While the steps from `n` on to `m` are made, notes are only added for these. -/
structure Keeps (n m : Nat) (d d' : Draft) : Prop where
  le : n ≤ m
  kept : ∀ id < n, d'.sources.lookup id = d.sources.lookup id

theorem Keeps.refl : Keeps n n d d := ⟨Nat.le_refl n, fun _ _ => rfl⟩

theorem Keeps.trans (h : Keeps n k d e) (h' : Keeps k m e d') : Keeps n m d d' := by
  refine ⟨Nat.le_trans h.le h'.le, ?_⟩
  intro id hid
  rw [h'.kept id (Nat.lt_of_lt_of_le hid h.le), h.kept id hid]

/-- Numbering another step makes no difference. -/
theorem Keeps.succ (h : Keeps n m d d') : Keeps n (m + 1) d d' := ⟨Nat.le_succ_of_le h.le, h.kept⟩

/-- The graph may change as well. -/
theorem Keeps.graph (h : Keeps n m d e) (g : JoinGraph) : Keeps n m d { e with graph := g } :=
  ⟨h.le, h.kept⟩

/-- A note hides only an earlier one under the same number. -/
theorem Keeps.note (h : Keeps n m d e) {g : JoinGraph} :
    Keeps n (m + 1) d ⟨g, (m, r) :: e.sources⟩ := by
  refine ⟨Nat.le_succ_of_le h.le, ?_⟩
  intro id hid
  show List.lookup id ((m, r) :: e.sources) = _
  rw [List.lookup_cons, beq_false_of_ne (Nat.ne_of_lt (Nat.lt_of_lt_of_le hid h.le))]
  exact h.kept id hid

end Draft

end FetchPlan
