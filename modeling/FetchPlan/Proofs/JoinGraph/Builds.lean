import FetchPlan.Proofs.JoinGraph.Built

/-!
# What a query builds

The graph of a query, described by the parts of the query alone: no step has a number, and a
parameter stands for a value instead of a step that is noted (`Shape.Builds`). Numbering a query and
walking its path builds exactly what is described (`exists_draftOfPath_iff`).
-/

namespace FetchPlan

open Building JoinGraph

/-- What the parameters in scope stand for, the innermost first. -/
abbrev Values := List (String × Resolved)

/-- The graph without nodes. -/
def JoinGraph.empty : JoinGraph := ⟨#[]⟩

namespace Chain

/-- A parameter can be bound to what the chain stands for. -/
def hasRows : Chain → Bool
  | member _ (.column _) => false
  | table _ | param _ | member .. | project .. => true
  | bare source _ | narrow source .. => source.hasRows

/-- The relation that the chain starts at, if it starts at one. -/
def relation? : Chain → Option String
  | table relation => some relation
  | param _ => none
  | member source _ | bare source _ | narrow source .. | project source .. => source.relation?

end Chain

mutual

/-- Met with this graph, the operand stands for a value, and the graph is another one from then
on. -/
inductive Shape.Builds (s : Schema) : Values → Shape → JoinGraph → Resolved → JoinGraph → Prop
  | literal {env : Values} {g : JoinGraph} : Shape.Builds s env .literal g .scalar g
  | captured {env : Values} {g : JoinGraph} : Shape.Builds s env .captured g .scalar g
  /-- An equality of operands that are not fixed joins them. -/
  | equality {env : Values} {lhs rhs : Shape} {g h k : JoinGraph} {v w : Resolved} {a b : Nat}
      {fields otherFields : List String} (fixed : lhs.isFixed = false)
      (fixed' : rhs.isFixed = false) (left : Shape.Builds s env lhs g v h)
      (right : Shape.Builds s env rhs h w k) (compares : v.Compares s k a fields)
      (compares' : w.Compares s k b otherFields) (length : fields.length = otherFields.length) :
      Shape.Builds s env (.binary .eq lhs rhs) g .scalar (k.equate a fields b otherFields)
  | operation {env : Values} {op : BinaryOp} {lhs rhs : Shape} {g h k : JoinGraph} {v w : Resolved}
      (supported : op.isSupported) (fixed : op = .eq → lhs.isFixed ∨ rhs.isFixed)
      (left : Shape.Builds s env lhs g v h) (right : Shape.Builds s env rhs h w k) :
      Shape.Builds s env (.binary op lhs rhs) g .scalar k
  | unary {env : Values} {op : UnaryOp} {operand : Shape} {g h : JoinGraph} {v : Resolved}
      (supported : op.isSupported) (inner : Shape.Builds s env operand g v h) :
      Shape.Builds s env (.unary op operand) g .scalar h
  | chain {env : Values} {c : Chain} {g h : JoinGraph} {v : Resolved}
      (chain : Chain.Builds s env c g v h) : Shape.Builds s env (.chain c) g v h

/-- See `Shape.Builds`. -/
inductive Chain.Builds (s : Schema) : Values → Chain → JoinGraph → Resolved → JoinGraph → Prop
  | table {env : Values} {relation : String} {key : List String} {g : JoinGraph}
      (known : s.primaryKey relation = .ok key) :
      Chain.Builds s env (.table relation) g (.rows g.size none) (g.addNode relation)
  | param {env : Values} {x : String} {v : Resolved} {g : JoinGraph}
      (bound : env.lookup x = some v) : Chain.Builds s env (.param x) g v.bound g
  | member {env : Values} {c : Chain} {m : Member} {g h k : JoinGraph} {v w : Resolved}
      (source : Chain.Builds s env c g v h) (rows : c.hasRows) (takes : v.Takes s h m w k) :
      Chain.Builds s env (.member c m) g w k
  | bare {env : Values} {c : Chain} {op : Narrowing} {g h : JoinGraph} {v : Resolved}
      (source : Chain.Builds s env c g v h) : Chain.Builds s env (.bare c op) g v h
  | narrow {env : Values} {c : Chain} {op : Narrowing} {x : String} {body : Shape}
      {g h k : JoinGraph} {v w : Resolved} (source : Chain.Builds s env c g v h)
      (rows : c.hasRows) (fresh : env.lookup x = none)
      (inner : Shape.Builds s ((x, v) :: env) body h w k) :
      Chain.Builds s env (.narrow c op x body) g v k
  | project {env : Values} {c : Chain} {op : Projecting} {x : String} {body : Shape}
      {g h k : JoinGraph} {v w : Resolved} (source : Chain.Builds s env c g v h)
      (rows : c.hasRows) (fresh : env.lookup x = none)
      (inner : Shape.Builds s ((x, v) :: env) body h w k) :
      Chain.Builds s env (.project c op x body) g w k
  | record {env : Values} {c : Chain} {op : Projecting} {x : String} {fields : ShapeFields}
      {g h k : JoinGraph} {v : Resolved} {outputs : Values}
      (source : Chain.Builds s env c g v h) (rows : c.hasRows) (fresh : env.lookup x = none)
      (inner : ShapeFields.Builds s ((x, v) :: env) fields h outputs k) :
      Chain.Builds s env (.project c op x (.record fields)) g (.record outputs) k

/-- See `Shape.Builds`. -/
inductive ShapeFields.Builds (s : Schema) :
    Values → ShapeFields → JoinGraph → Values → JoinGraph → Prop
  | nil {env : Values} {g : JoinGraph} : ShapeFields.Builds s env .nil g [] g
  | cons {env : Values} {name : String} {value : Shape} {rest : ShapeFields} {g h k : JoinGraph}
      {v : Resolved} {outputs : Values} (head : Shape.Builds s env value g v h)
      (tail : ShapeFields.Builds s env rest h outputs k) :
      ShapeFields.Builds s env (.cons name value rest) g ((name, v) :: outputs) k

end

/-! ## Notes -/

/-- A parameter bound to the step, which is one below `n`, stands for this value. -/
def Draft.Notes (d : Draft) (n target : Nat) (v : Resolved) : Prop :=
  target < n ∧ ∃ r, d.sources.lookup target = some r ∧ r.bound = v.bound

/-- The parameters in scope stand for these values. -/
def Reflects (scope : Scope) (env : Values) (d : Draft) (n : Nat) : Prop :=
  ∀ x, (scope.resolve? x = none ∧ env.lookup x = none) ∨
    ∃ target v, scope.resolve? x = some target ∧ env.lookup x = some v ∧ d.Notes n target v

/-- What the path of the chain noted for a parameter to be bound to. -/
structure Path.Offers (p : Path) (c : Chain) (d : Draft) (n : Nat) (v : Resolved) : Prop where
  rows : p.rowSource?.isSome = c.hasRows
  notes : ∀ target, p.rowSource? = some target → d.Notes n target v

/-- The graph when the first step of a chain is numbered `n`. The first step of all finds the node
of its relation there already. -/
def Chain.Starts (s : Schema) (c : Chain) (n : Nat) (d : Draft) (g : JoinGraph) : Prop :=
  (0 < n ∧ d.graph = g) ∨ (n = 0 ∧ g = .empty ∧ ∃ relation key, c.relation? = some relation ∧
    s.primaryKey relation = .ok key ∧ d.graph = ofRoot relation)

variable {s : Schema} {n m k target : Nat} {d d' e : Draft} {v w : Resolved} {scope : Scope}
  {env : Values} {x : String} {g h : JoinGraph} {c : Chain} {p q : Path}

namespace Draft

theorem notes_note : Notes ⟨g, (n, v) :: d.sources⟩ (n + 1) n v := by
  refine ⟨Nat.lt_succ_self n, v, ?_, rfl⟩
  show List.lookup n ((n, v) :: d.sources) = some v
  rw [List.lookup_cons, beq_self_eq_true]

theorem Notes.mono (h : d.Notes n target v) (hk : Keeps n m d d') : d'.Notes m target v := by
  obtain ⟨hlt, r, hr, hbound⟩ := h
  exact ⟨Nat.lt_of_lt_of_le hlt hk.le, r, (hk.kept target hlt).trans hr, hbound⟩

end Draft

theorem reflects_nil : Reflects [] [] d n := fun _ => Or.inl ⟨rfl, rfl⟩

theorem Reflects.mono (h : Reflects scope env d n) (hk : Draft.Keeps n m d d') :
    Reflects scope env d' m := by
  intro x
  rcases h x with hnone | ⟨target, v, hx, hv, hnotes⟩
  · exact Or.inl hnone
  · exact Or.inr ⟨target, v, hx, hv, hnotes.mono hk⟩

theorem Reflects.cons (h : Reflects scope env d n) (hnotes : d.Notes n target v) :
    Reflects ((x, target) :: scope) ((x, v) :: env) d n := by
  intro y
  by_cases hy : y = x
  · subst hy
    refine Or.inr ⟨target, v, ?_, ?_, hnotes⟩
    · rw [Scope.resolve?, List.lookup_cons, beq_self_eq_true]
    · rw [List.lookup_cons, beq_self_eq_true]
  · rw [Scope.resolve?, List.lookup_cons, List.lookup_cons, beq_false_of_ne hy]
    exact h y

/-- The same parameters are free. -/
theorem Reflects.resolve?_eq_none (h : Reflects scope env d n) :
    scope.resolve? x = none ↔ env.lookup x = none := by
  rcases h x with ⟨hx, hv⟩ | ⟨target, v, hx, hv, -⟩
  · rw [hx, hv]
    exact iff_of_true rfl rfl
  · rw [hx, hv]
    exact iff_of_false (Option.some_ne_none _) (Option.some_ne_none _)

theorem Resolved.bound_bound (v : Resolved) : v.bound.bound = v.bound := by
  cases v with
  | _ => rfl

theorem Path.Offers.mono (h : p.Offers c d n v) (hk : Draft.Keeps n m d d') : p.Offers c d' m v :=
  ⟨h.rows, fun target htarget => (h.notes target htarget).mono hk⟩

/-- A parameter can be bound to what is offered. -/
theorem Path.Offers.reflects (h : p.Offers c d n v) (rows : c.hasRows)
    (hr : Reflects scope env d n) : ∃ target, p.rowSource? = some target ∧
      Reflects ((x, target) :: scope) ((x, v) :: env) d n := by
  obtain ⟨target, htarget⟩ := Option.isSome_iff_exists.1 (h.rows.trans rows)
  exact ⟨target, htarget, hr.cons (h.notes target htarget)⟩

/-- A parameter is bound to what is offered. -/
theorem Path.Offers.binds (h : p.Offers c d n v) (htarget : p.rowSource? = some target)
    (hr : Reflects scope env d n) :
    c.hasRows ∧ Reflects ((x, target) :: scope) ((x, v) :: env) d n := by
  refine ⟨?_, hr.cons (h.notes target htarget)⟩
  rw [← h.rows, htarget]
  rfl

/-- A step that is noted offers itself. -/
theorem Path.offers_note (hp : p.rowSource? = if c.hasRows then some n else none) :
    p.Offers c ⟨g, (n, v) :: d.sources⟩ (n + 1) v := by
  refine ⟨?_, ?_⟩
  · rw [hp]
    cases c.hasRows with
    | true => rfl
    | false => rfl
  · intro target htarget
    rw [hp, Option.ite_none_right_eq_some] at htarget
    obtain rfl := Option.some.inj htarget.2
    exact Draft.notes_note

theorem Path.rowSource?_step {m : Member} :
    (q.step n m).rowSource? = if (Chain.member c m).hasRows then some n else none := by
  cases m with
  | _ => rfl

namespace Chain

/-- A chain that starts at a step that is not the first of all starts anywhere. -/
theorem starts_of_pos (hn : 0 < n) : c.Starts s n d d.graph := Or.inl ⟨hn, rfl⟩

theorem startsAtTable_iff : ∀ c : Chain, c.startsAtTable ↔ ∃ relation, c.relation? = some relation
  | table relation => iff_of_true rfl ⟨relation, rfl⟩
  | param _ => iff_of_false Bool.false_ne_true (by simp [relation?])
  | member source _ => source.startsAtTable_iff
  | bare source _ => source.startsAtTable_iff
  | narrow source .. => source.startsAtTable_iff
  | project source .. => source.startsAtTable_iff

/-- A path starts where its chain does. -/
theorem relation?_of_run_path : ∀ (c : Chain) {n m : Nat} {p : Path},
    (c.path scope).run n = .ok (p, m) → p.relation? = c.relation?
  | table relation, n, m, p, h => by
    obtain ⟨rfl, -⟩ := run_path_table.1 h
    rfl
  | param _, n, m, p, h => by
    obtain ⟨target, -, rfl, -⟩ := run_path_param.1 h
    rfl
  | member source m', n, m, p, h => by
    obtain ⟨q, k, hq, -, rfl, -⟩ := run_path_member.1 h
    rw [relation?, ← source.relation?_of_run_path hq, Path.relation?_step]
  | bare source _, n, m, p, h => by
    rw [path] at h
    exact source.relation?_of_run_path h
  | narrow source .., n, m, p, h => by
    obtain ⟨q, k, target, f, k', hq, -, -, -, rfl, -⟩ := run_path_narrow.1 h
    exact (source.relation?_of_run_path hq : q.relation? = source.relation?)
  | project source .., n, m, p, h => by
    obtain ⟨q, k, target, outputs, k', hq, -, -, -, rfl, -⟩ := run_path_project.1 h
    exact (source.relation?_of_run_path hq : q.relation? = source.relation?)

end Chain

/-! ## From walks to what is built -/

/-- A relation is a new node, or the root of the empty graph. -/
theorem Chain.builds_of_walk_table {relation : String}
    (hp : ((Chain.table relation).path scope).run n = .ok (p, m)) (hy : Yields (p.walk s) d v d')
    (hs : (Chain.table relation).Starts s n d g) :
    (Chain.table relation).Builds s env g v d'.graph ∧ Draft.Keeps n m d d' ∧ 0 < m ∧
      p.Offers (.table relation) d' m v := by
  obtain ⟨rfl, rfl⟩ := Chain.run_path_table.1 hp
  have hoffers : ∀ {g : JoinGraph} {r : Resolved}, Path.Offers (.table n relation)
      (.table relation) ⟨g, (n, r) :: d.sources⟩ (n + 1) r := Path.offers_note rfl
  rcases hs with ⟨hn, rfl⟩ | ⟨rfl, rfl, relation', key, hrelation, hkey, hgraph⟩
  · obtain ⟨key, hkey, rfl, rfl⟩ := (Path.yields_walk_table (Nat.ne_of_gt hn)).1 hy
    exact ⟨.table hkey, Draft.Keeps.refl.note, Nat.succ_pos n, hoffers⟩
  · obtain rfl := Option.some.inj hrelation
    obtain ⟨rfl, rfl⟩ := Path.yields_walk_root.1 hy
    have htable : Chain.Builds s env (.table relation) .empty (.rows root none)
      (ofRoot relation) := .table hkey
    exact ⟨hgraph ▸ htable, Draft.Keeps.refl.note, Nat.one_pos, hoffers⟩

/-- A parameter stands for what was noted for the step that it is bound to. -/
theorem Chain.builds_of_walk_param (hp : ((Chain.param x).path scope).run n = .ok (p, m))
    (hy : Yields (p.walk s) d v d') (hs : (Chain.param x).Starts s n d g)
    (hr : Reflects scope env d n) :
    (Chain.param x).Builds s env g v d'.graph ∧ Draft.Keeps n m d d' ∧ 0 < m ∧
      p.Offers (.param x) d' m v := by
  obtain ⟨target, hx, rfl, rfl⟩ := Chain.run_path_param.1 hp
  obtain ⟨r, hlookup, rfl, rfl⟩ := Path.yields_walk_reference.1 hy
  rcases hs with ⟨hn, rfl⟩ | ⟨-, -, relation, key, hrelation, -⟩
  · rcases hr x with ⟨hnone, -⟩ | ⟨target', v', hx', hv', hlt, r', hlookup', hbound⟩
    · exact absurd (hnone.symm.trans hx) (by simp)
    · obtain rfl := Option.some.inj (hx.symm.trans hx')
      obtain rfl := Option.some.inj (hlookup.symm.trans hlookup')
      have hkeeps : Draft.Keeps n (n + 1) d ⟨d.graph, (n, r.bound) :: d.sources⟩ :=
        Draft.Keeps.refl.note
      refine ⟨hbound ▸ .param hv', hkeeps, Nat.succ_pos n, rfl, ?_⟩
      intro target' htarget
      obtain rfl := Option.some.inj htarget
      have hnotes : d.Notes n target r.bound := ⟨hlt, r, hlookup, r.bound_bound.symm⟩
      exact hnotes.mono hkeeps
  · exact absurd hrelation (by simp [Chain.relation?])

mutual

/-- What the walk of an operand yields is built. -/
theorem Shape.builds_of_walk (s : Schema) : ∀ (shape : Shape) {n m : Nat} {scope : Scope}
    {env : Values} {f : Flow} {d d' : Draft} {v : Resolved},
    (shape.flow scope).run n = .ok (f, m) → Yields (f.walk s) d v d' → 0 < n →
    Reflects scope env d n → shape.Builds s env d.graph v d'.graph ∧ Draft.Keeps n m d d'
  | .literal, n, m, scope, env, f, d, d', v, hf, hy, hn, hr => by
    obtain ⟨rfl, rfl⟩ := Shape.run_flow_literal.1 hf
    obtain ⟨rfl, rfl⟩ := Flow.yields_walk_fixed.1 hy
    exact ⟨.literal, Draft.Keeps.refl.succ⟩
  | .captured, n, m, scope, env, f, d, d', v, hf, hy, hn, hr => by
    obtain ⟨rfl, rfl⟩ := Shape.run_flow_captured.1 hf
    obtain ⟨rfl, rfl⟩ := Flow.yields_walk_fixed.1 hy
    exact ⟨.captured, Draft.Keeps.refl.succ⟩
  | .binary op lhs rhs, n, m, scope, env, f, d, d', v, hf, hy, hn, hr => by
    obtain ⟨hop, f₁, k₁, f₂, k₂, hleft, hright, rfl, rfl⟩ := Shape.run_flow_binary.1 hf
    obtain ⟨v₁, e, v₂, e', hwalk₁, hwalk₂, rfl, hjoin⟩ := Flow.yields_walk_binary.1 hy
    obtain ⟨hbuilds₁, hkeeps₁⟩ := lhs.builds_of_walk s hleft hwalk₁ hn hr
    obtain ⟨hbuilds₂, hkeeps₂⟩ := rhs.builds_of_walk s hright hwalk₂
      (Nat.lt_of_lt_of_le hn hkeeps₁.le) (hr.mono hkeeps₁)
    have hkeeps := (hkeeps₁.trans hkeeps₂).succ
    rw [lhs.isFixed_of_run_flow hleft, rhs.isFixed_of_run_flow hright] at hjoin
    rcases hjoin with ⟨rfl, hfixed₁, hfixed₂, hequate⟩ | ⟨hfixed, rfl⟩
    · obtain ⟨a, fields, b, otherFields, ha, hb, hlen, rfl⟩ := yields_equate.1 hequate
      exact ⟨.equality hfixed₁ hfixed₂ hbuilds₁ hbuilds₂ ha hb hlen, hkeeps.le, hkeeps.kept⟩
    · exact ⟨.operation hop hfixed hbuilds₁ hbuilds₂, hkeeps⟩
  | .unary op operand, n, m, scope, env, f, d, d', v, hf, hy, hn, hr => by
    obtain ⟨hop, f', k, hoperand, rfl, rfl⟩ := Shape.run_flow_unary.1 hf
    obtain ⟨v', hwalk, rfl⟩ := Flow.yields_walk_unary.1 hy
    obtain ⟨hbuilds, hkeeps⟩ := operand.builds_of_walk s hoperand hwalk hn hr
    exact ⟨.unary hop hbuilds, hkeeps.succ⟩
  | .chain c, n, m, scope, env, f, d, d', v, hf, hy, hn, hr => by
    obtain ⟨p, hp, rfl⟩ := Shape.run_flow_chain.1 hf
    rw [Flow.walk] at hy
    obtain ⟨hbuilds, hkeeps, -, -⟩ := c.builds_of_walk s hp hy (Chain.starts_of_pos hn) hr
    exact ⟨.chain hbuilds, hkeeps⟩
  | .lambda _ _, n, m, scope, env, f, d, d', v, hf, hy, hn, hr => absurd hf not_run_throw
  | .record _, n, m, scope, env, f, d, d', v, hf, hy, hn, hr => absurd hf not_run_throw
  | .converted _, n, m, scope, env, f, d, d', v, hf, hy, hn, hr => absurd hf not_run_throw
  | .broken _, n, m, scope, env, f, d, d', v, hf, hy, hn, hr => absurd hf not_run_throw

/-- See `Shape.builds_of_walk`. -/
theorem Chain.builds_of_walk (s : Schema) : ∀ (c : Chain) {n m : Nat} {scope : Scope}
    {env : Values} {p : Path} {d d' : Draft} {g : JoinGraph} {v : Resolved},
    (c.path scope).run n = .ok (p, m) → Yields (p.walk s) d v d' → c.Starts s n d g →
    Reflects scope env d n →
    c.Builds s env g v d'.graph ∧ Draft.Keeps n m d d' ∧ 0 < m ∧ p.Offers c d' m v
  | .table relation, n, m, scope, env, p, d, d', g, v, hp, hy, hs, _ =>
    Chain.builds_of_walk_table hp hy hs
  | .param x, n, m, scope, env, p, d, d', g, v, hp, hy, hs, hr =>
    Chain.builds_of_walk_param hp hy hs hr
  | .member source m', n, m, scope, env, p, d, d', g, v, hp, hy, hs, hr => by
    obtain ⟨q, k, hq, hsome, rfl, rfl⟩ := Chain.run_path_member.1 hp
    obtain ⟨v₁, e, g', hwalk, htakes, rfl⟩ := Path.yields_walk_step.1 hy
    obtain ⟨hbuilds, hkeeps, -, hoffers⟩ := source.builds_of_walk s hq hwalk hs hr
    exact ⟨.member hbuilds (hoffers.rows ▸ hsome) htakes, hkeeps.note, Nat.succ_pos k,
      Path.offers_note Path.rowSource?_step⟩
  | .bare source op, n, m, scope, env, p, d, d', g, v, hp, hy, hs, hr => by
    rw [Chain.path] at hp
    obtain ⟨hbuilds, hkeeps, hpos, hoffers⟩ := source.builds_of_walk s hp hy hs hr
    exact ⟨.bare hbuilds, hkeeps, hpos, hoffers.rows, hoffers.notes⟩
  | .narrow source op x body, n, m, scope, env, p, d, d', g, v, hp, hy, hs, hr => by
    obtain ⟨q, k, target, f, k', hq, htarget, hnew, hf, rfl, rfl⟩ := Chain.run_path_narrow.1 hp
    obtain ⟨e, w, e', hwalk, hwalk', rfl⟩ := Path.yields_walk_filter.1 hy
    obtain ⟨hbuilds, hkeeps, hpos, hoffers⟩ := source.builds_of_walk s hq hwalk hs hr
    obtain ⟨hrows, hr'⟩ := hoffers.binds (x := x) htarget (hr.mono hkeeps)
    obtain ⟨hbuilds', hkeeps'⟩ := body.builds_of_walk s hf hwalk' hpos hr'
    have hoffers' : q.Offers source ⟨e'.graph, (k', v) :: e'.sources⟩ (k' + 1) v :=
      hoffers.mono hkeeps'.note
    exact ⟨.narrow hbuilds hrows (hr.resolve?_eq_none.1 hnew) hbuilds', (hkeeps.trans hkeeps').note,
      Nat.succ_pos k', hoffers'.rows, hoffers'.notes⟩
  | .project source op x body, n, m, scope, env, p, d, d', g, v, hp, hy, hs, hr => by
    obtain ⟨q, k, target, outputs, k', hq, htarget, hnew, houtputs, rfl, rfl⟩ :=
      Chain.run_path_project.1 hp
    obtain ⟨w, e, e', hwalk, hwalk', rfl⟩ := Path.yields_walk_select.1 hy
    obtain ⟨hbuilds, hkeeps, hpos, hoffers⟩ := source.builds_of_walk s hq hwalk hs hr
    obtain ⟨hrows, hr'⟩ := hoffers.binds (x := x) htarget (hr.mono hkeeps)
    have hfresh := hr.resolve?_eq_none.1 hnew
    match body, houtputs with
    | body, .single hf =>
      rw [Outputs.walk] at hwalk'
      obtain ⟨hbuilds', hkeeps'⟩ := body.builds_of_walk s hf hwalk' hpos hr'
      exact ⟨.project hbuilds hrows hfresh hbuilds', (hkeeps.trans hkeeps').note, Nat.succ_pos k',
        Path.offers_note rfl⟩
    | .record fields, .record hfs =>
      obtain ⟨outputs, hfields, rfl⟩ := Outputs.yields_walk_record.1 hwalk'
      obtain ⟨hbuilds', hkeeps'⟩ := fields.builds_of_walk s hfs hfields hpos hr'
      exact ⟨.record hbuilds hrows hfresh hbuilds', (hkeeps.trans hkeeps').note, Nat.succ_pos k',
        Path.offers_note rfl⟩

/-- See `Shape.builds_of_walk`. -/
theorem ShapeFields.builds_of_walk (s : Schema) : ∀ (fields : ShapeFields) {n m : Nat}
    {scope : Scope} {env : Values} {fs : FlowFields} {d d' : Draft} {outputs : Values},
    (fields.flows scope).run n = .ok (fs, m) → Yields (fs.walk s) d outputs d' → 0 < n →
    Reflects scope env d n → fields.Builds s env d.graph outputs d'.graph ∧ Draft.Keeps n m d d'
  | .nil, n, m, scope, env, fs, d, d', outputs, hf, hy, hn, hr => by
    obtain ⟨rfl, rfl⟩ := ShapeFields.run_flows_nil.1 hf
    obtain ⟨rfl, rfl⟩ := yields_pure.1 hy
    exact ⟨.nil, .refl⟩
  | .cons name value rest, n, m, scope, env, fs, d, d', outputs, hf, hy, hn, hr => by
    obtain ⟨f, k, fs', hvalue, hrest, rfl⟩ := ShapeFields.run_flows_cons.1 hf
    obtain ⟨v, e, others, hwalk, hwalk', rfl⟩ := FlowFields.yields_walk_cons.1 hy
    obtain ⟨hbuilds, hkeeps⟩ := value.builds_of_walk s hvalue hwalk hn hr
    obtain ⟨hbuilds', hkeeps'⟩ := rest.builds_of_walk s hrest hwalk'
      (Nat.lt_of_lt_of_le hn hkeeps.le) (hr.mono hkeeps)
    exact ⟨.cons hbuilds hbuilds', hkeeps.trans hkeeps'⟩

end

/-! ## From what is built to walks -/

theorem Chain.walk_of_builds_table {relation : String}
    (hb : (Chain.table relation).Builds s env g v h) (hs : (Chain.table relation).Starts s n d g) :
    ∃ p m d', ((Chain.table relation).path scope).run n = .ok (p, m) ∧ Yields (p.walk s) d v d' ∧
      d'.graph = h := by
  cases hb with
  | table known =>
    have hrun : ((Chain.table relation).path scope).run n = .ok (.table n relation, n + 1) :=
      Chain.run_path_table.2 ⟨rfl, rfl⟩
    rcases hs with ⟨hn, rfl⟩ | ⟨rfl, rfl, relation', key, hrelation, hkey, hgraph⟩
    · have hne := Nat.ne_of_gt hn
      exact ⟨_, _, _, hrun, (Path.yields_walk_table hne).2 ⟨_, known, rfl, rfl⟩, rfl⟩
    · obtain rfl := Option.some.inj hrelation
      exact ⟨_, _, _, hrun, Path.yields_walk_root.2 ⟨rfl, rfl⟩, hgraph⟩

theorem Chain.walk_of_builds_param (hb : (Chain.param x).Builds s env g v h)
    (hs : (Chain.param x).Starts s n d g) (hr : Reflects scope env d n) :
    ∃ p m d', ((Chain.param x).path scope).run n = .ok (p, m) ∧ Yields (p.walk s) d v d' ∧
      d'.graph = h := by
  cases hb with
  | param bound =>
    rcases hs with ⟨hn, rfl⟩ | ⟨-, -, relation, key, hrelation, -⟩
    · rcases hr x with ⟨-, hnone⟩ | ⟨target, v', hx, hv, -, r, hlookup, hbound⟩
      · exact absurd (hnone.symm.trans bound) (by simp)
      · obtain rfl := Option.some.inj (bound.symm.trans hv)
        exact ⟨_, _, _, Chain.run_path_param.2 ⟨target, hx, rfl, rfl⟩,
          Path.yields_walk_reference.2 ⟨r, hlookup, hbound.symm, rfl⟩, rfl⟩
    · exact absurd hrelation (by simp [Chain.relation?])

mutual

/-- What is built of an operand is yielded by its walk. -/
theorem Shape.walk_of_builds (s : Schema) : ∀ (shape : Shape) {n : Nat} {scope : Scope}
    {env : Values} {d : Draft} {v : Resolved} {h : JoinGraph}, shape.Builds s env d.graph v h →
    0 < n → Reflects scope env d n →
    ∃ f m d', (shape.flow scope).run n = .ok (f, m) ∧ Yields (f.walk s) d v d' ∧ d'.graph = h
  | .literal, n, scope, env, d, v, h, hb, hn, hr => by
    cases hb with
    | literal => exact ⟨_, _, d, Shape.run_flow_literal.2 ⟨rfl, rfl⟩, yields_pure.2 ⟨rfl, rfl⟩, rfl⟩
  | .captured, n, scope, env, d, v, h, hb, hn, hr => by
    cases hb with
    | captured =>
      exact ⟨_, _, d, Shape.run_flow_captured.2 ⟨rfl, rfl⟩, yields_pure.2 ⟨rfl, rfl⟩, rfl⟩
  | .binary op lhs rhs, n, scope, env, d, v, h, hb, hn, hr => by
    -- The operands are walked one after the other, and the second finds the notes of the first.
    have hboth : ∀ {v₁ v₂ : Resolved} {g h : JoinGraph}, lhs.Builds s env d.graph v₁ g →
        rhs.Builds s env g v₂ h → ∃ f₁ k₁ e f₂ k₂ e', (lhs.flow scope).run n = .ok (f₁, k₁) ∧
          (rhs.flow scope).run k₁ = .ok (f₂, k₂) ∧ Yields (f₁.walk s) d v₁ e ∧
          Yields (f₂.walk s) e v₂ e' ∧ e'.graph = h := by
      intro v₁ v₂ g h hleft hright
      obtain ⟨f₁, k₁, e, hrun₁, hwalk₁, rfl⟩ := lhs.walk_of_builds s hleft hn hr
      have hkeeps := (lhs.builds_of_walk s hrun₁ hwalk₁ hn hr).2
      obtain ⟨f₂, k₂, e', hrun₂, hwalk₂, rfl⟩ := rhs.walk_of_builds s hright
        (Nat.lt_of_lt_of_le hn hkeeps.le) (hr.mono hkeeps)
      exact ⟨f₁, k₁, e, f₂, k₂, e', hrun₁, hrun₂, hwalk₁, hwalk₂, rfl⟩
    cases hb with
    | equality fixed fixed' left right compares compares' length =>
      obtain ⟨f₁, k₁, e, f₂, k₂, e', hrun₁, hrun₂, hwalk₁, hwalk₂, rfl⟩ := hboth left right
      have hequate := (yields_equate (u := ())).2 ⟨_, _, _, _, compares, compares', length, rfl⟩
      refine ⟨_, _, _, Shape.run_flow_binary.2 ⟨rfl, f₁, k₁, f₂, k₂, hrun₁, hrun₂, rfl, rfl⟩,
        Flow.yields_walk_binary.2 ⟨_, e, _, e', hwalk₁, hwalk₂, rfl, Or.inl ⟨rfl, ?_, ?_, hequate⟩⟩,
        rfl⟩
      · exact (lhs.isFixed_of_run_flow hrun₁).trans fixed
      · exact (rhs.isFixed_of_run_flow hrun₂).trans fixed'
    | operation supported fixed left right =>
      obtain ⟨f₁, k₁, e, f₂, k₂, e', hrun₁, hrun₂, hwalk₁, hwalk₂, rfl⟩ := hboth left right
      refine ⟨_, _, _, Shape.run_flow_binary.2 ⟨supported, f₁, k₁, f₂, k₂, hrun₁, hrun₂, rfl, rfl⟩,
        Flow.yields_walk_binary.2 ⟨_, e, _, e', hwalk₁, hwalk₂, rfl, Or.inr ⟨?_, rfl⟩⟩, rfl⟩
      rw [lhs.isFixed_of_run_flow hrun₁, rhs.isFixed_of_run_flow hrun₂]
      exact fixed
  | .unary op operand, n, scope, env, d, v, h, hb, hn, hr => by
    cases hb with
    | unary supported inner =>
      obtain ⟨f, m, d', hrun, hwalk, rfl⟩ := operand.walk_of_builds s inner hn hr
      exact ⟨_, _, d', Shape.run_flow_unary.2 ⟨supported, f, m, hrun, rfl, rfl⟩,
        Flow.yields_walk_unary.2 ⟨_, hwalk, rfl⟩, rfl⟩
  | .chain c, n, scope, env, d, v, h, hb, hn, hr => by
    cases hb with
    | chain hc =>
      obtain ⟨p, m, d', hrun, hwalk, rfl⟩ := c.walk_of_builds s hc (Chain.starts_of_pos hn) hr
      exact ⟨_, m, d', Shape.run_flow_chain.2 ⟨p, hrun, rfl⟩, hwalk, rfl⟩

/-- See `Shape.walk_of_builds`. -/
theorem Chain.walk_of_builds (s : Schema) : ∀ (c : Chain) {n : Nat} {scope : Scope}
    {env : Values} {d : Draft} {v : Resolved} {g h : JoinGraph}, c.Builds s env g v h →
    c.Starts s n d g → Reflects scope env d n →
    ∃ p m d', (c.path scope).run n = .ok (p, m) ∧ Yields (p.walk s) d v d' ∧ d'.graph = h
  | .table relation, n, scope, env, d, v, g, h, hb, hs, _ => Chain.walk_of_builds_table hb hs
  | .param x, n, scope, env, d, v, g, h, hb, hs, hr => Chain.walk_of_builds_param hb hs hr
  | .member source m', n, scope, env, d, v, g, h, hb, hs, hr => by
    cases hb with
    | member hsource rows takes =>
      obtain ⟨q, k, e, hrun, hwalk, rfl⟩ := source.walk_of_builds s hsource hs hr
      have hoffers := (source.builds_of_walk s hrun hwalk hs hr).2.2.2
      exact ⟨_, _, _, Chain.run_path_member.2 ⟨q, k, hrun, hoffers.rows.trans rows, rfl, rfl⟩,
        Path.yields_walk_step.2 ⟨_, e, _, hwalk, takes, rfl⟩, rfl⟩
  | .bare source op, n, scope, env, d, v, g, h, hb, hs, hr => by
    cases hb with
    | bare hsource =>
      rw [Chain.path]
      exact source.walk_of_builds s hsource hs hr
  | .narrow source op x body, n, scope, env, d, v, g, h, hb, hs, hr => by
    cases hb with
    | narrow hsource rows fresh inner =>
      obtain ⟨q, k, e, hrun, hwalk, rfl⟩ := source.walk_of_builds s hsource hs hr
      obtain ⟨-, hkeeps, hpos, hoffers⟩ := source.builds_of_walk s hrun hwalk hs hr
      obtain ⟨target, htarget, hr'⟩ := hoffers.reflects (x := x) rows (hr.mono hkeeps)
      obtain ⟨f, m, e', hrun', hwalk', rfl⟩ := body.walk_of_builds s inner hpos hr'
      exact ⟨_, _, _, Chain.run_path_narrow.2 ⟨q, k, target, f, m, hrun, htarget,
        hr.resolve?_eq_none.2 fresh, hrun', rfl, rfl⟩,
        Path.yields_walk_filter.2 ⟨e, _, e', hwalk, hwalk', rfl⟩, rfl⟩
  | .project source op x body, n, scope, env, d, v, g, h, hb, hs, hr => by
    match body, hb with
    | body, .project hsource rows fresh inner =>
      obtain ⟨q, k, e, hrun, hwalk, rfl⟩ := source.walk_of_builds s hsource hs hr
      obtain ⟨-, hkeeps, hpos, hoffers⟩ := source.builds_of_walk s hrun hwalk hs hr
      obtain ⟨target, htarget, hr'⟩ := hoffers.reflects (x := x) rows (hr.mono hkeeps)
      obtain ⟨f, m, e', hrun', hwalk', rfl⟩ := body.walk_of_builds s inner hpos hr'
      exact ⟨_, _, _, Chain.run_path_project.2 ⟨q, k, target, _, m, hrun, htarget,
        hr.resolve?_eq_none.2 fresh, .single hrun', rfl, rfl⟩,
        Path.yields_walk_select.2 ⟨_, e, e', hwalk, hwalk', rfl⟩, rfl⟩
    | .record fields, .record hsource rows fresh inner =>
      obtain ⟨q, k, e, hrun, hwalk, rfl⟩ := source.walk_of_builds s hsource hs hr
      obtain ⟨-, hkeeps, hpos, hoffers⟩ := source.builds_of_walk s hrun hwalk hs hr
      obtain ⟨target, htarget, hr'⟩ := hoffers.reflects (x := x) rows (hr.mono hkeeps)
      obtain ⟨fs, m, e', hrun', hwalk', rfl⟩ := fields.walk_of_builds s inner hpos hr'
      exact ⟨_, _, _, Chain.run_path_project.2 ⟨q, k, target, _, m, hrun, htarget,
        hr.resolve?_eq_none.2 fresh, .record hrun', rfl, rfl⟩,
        Path.yields_walk_select.2 ⟨_, e, e', hwalk, Outputs.yields_walk_record.2 ⟨_, hwalk', rfl⟩,
          rfl⟩, rfl⟩

/-- See `Shape.walk_of_builds`. -/
theorem ShapeFields.walk_of_builds (s : Schema) : ∀ (fields : ShapeFields) {n : Nat}
    {scope : Scope} {env : Values} {d : Draft} {outputs : Values} {h : JoinGraph},
    fields.Builds s env d.graph outputs h → 0 < n → Reflects scope env d n →
    ∃ fs m d', (fields.flows scope).run n = .ok (fs, m) ∧ Yields (fs.walk s) d outputs d' ∧
      d'.graph = h
  | .nil, n, scope, env, d, outputs, h, hb, hn, hr => by
    cases hb with
    | nil => exact ⟨_, _, d, ShapeFields.run_flows_nil.2 ⟨rfl, rfl⟩, yields_pure.2 ⟨rfl, rfl⟩, rfl⟩
  | .cons name value rest, n, scope, env, d, outputs, h, hb, hn, hr => by
    cases hb with
    | cons head tail =>
      obtain ⟨f, k, e, hrun, hwalk, rfl⟩ := value.walk_of_builds s head hn hr
      have hkeeps := (value.builds_of_walk s hrun hwalk hn hr).2
      obtain ⟨fs, m, e', hrun', hwalk', rfl⟩ := rest.walk_of_builds s tail
        (Nat.lt_of_lt_of_le hn hkeeps.le) (hr.mono hkeeps)
      exact ⟨_, m, e', ShapeFields.run_flows_cons.2 ⟨f, k, fs, hrun, hrun', rfl⟩,
        FlowFields.yields_walk_cons.2 ⟨_, e, _, hwalk, hwalk', rfl⟩, rfl⟩

end

/-! ## Queries -/

/-- The relation that a chain starts at is known if the chain can be built. -/
theorem Chain.known_of_builds {relation : String} : ∀ (c : Chain) {env : Values} {g h : JoinGraph}
    {v : Resolved}, c.Builds s env g v h → c.relation? = some relation →
    ∃ key, s.primaryKey relation = .ok key
  | .table _, env, g, h, v, hb, hc => by
    obtain rfl := Option.some.inj hc
    cases hb with
    | table known => exact ⟨_, known⟩
  | .param _, env, g, h, v, hb, hc => absurd hc (by simp [Chain.relation?])
  | .member source _, env, g, h, v, hb, hc => by
    cases hb with
    | member hsource _ _ => exact source.known_of_builds hsource hc
  | .bare source _, env, g, h, v, hb, hc => by
    cases hb with
    | bare hsource => exact source.known_of_builds hsource hc
  | .narrow source .., env, g, h, v, hb, hc => by
    cases hb with
    | narrow hsource _ _ _ => exact source.known_of_builds hsource hc
  | .project source .., env, g, h, v, hb, hc => by
    cases hb with
    | project hsource _ _ _ => exact source.known_of_builds hsource hc
    | record hsource _ _ _ => exact source.known_of_builds hsource hc

/-- The graph of a query, before its connections are oriented, is what the chain of the query
builds. -/
theorem exists_draftOfPath_iff {query : Expr} :
    (∃ flow, query.toPath = .ok flow ∧ (draftOfPath s flow.path).result = .ok g) ↔
      ∃ c v, query.shape = .chain c ∧ c.startsAtTable ∧ c.Builds s [] .empty v g := by
  constructor
  · rintro ⟨flow, hflow, hg⟩
    obtain ⟨c, hc, hstart, hp⟩ := Expr.toPath_eq_ok.1 hflow
    obtain ⟨relation, key, v, d, hrelation, hkey, hwalk, rfl⟩ := draftOfPath_eq_ok.1 hg
    rw [c.relation?_of_run_path hp] at hrelation
    exact ⟨c, v, hc, hstart, (c.builds_of_walk s hp hwalk
      (Or.inr ⟨rfl, rfl, relation, key, hrelation, hkey, rfl⟩) reflects_nil).1⟩
  · rintro ⟨c, v, hc, hstart, hb⟩
    obtain ⟨relation, hrelation⟩ := c.startsAtTable_iff.1 hstart
    obtain ⟨key, hkey⟩ := c.known_of_builds hb hrelation
    obtain ⟨p, m, d, hrun, hwalk, rfl⟩ := c.walk_of_builds s hb (d := ⟨ofRoot relation, []⟩)
      (Or.inr ⟨rfl, rfl, relation, key, hrelation, hkey, rfl⟩) reflects_nil
    refine ⟨⟨p, m⟩, Expr.toPath_eq_ok.2 ⟨c, hc, hstart, hrun⟩, draftOfPath_eq_ok.2
      ⟨relation, key, v, d, ?_, hkey, hwalk, rfl⟩⟩
    rw [c.relation?_of_run_path hrun, hrelation]

end FetchPlan
