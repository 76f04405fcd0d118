import FetchPlan.Proofs.JoinGraph.Builds
import FetchPlan.Proofs.JoinGraph.Mirrors
import FetchPlan.Proofs.Query.Exchanged

/-!
# Exchanged operands build alike

If operands are exchanged, the same is built about nodes that correspond. The induction is on
shapes; it carries that the parameters in scope stand for values that are alike. Only at an
operation whose operands change places do the two graphs grow in a different order, and there the
walk of each operand adds the same, whatever is added before it (`Shape.Mirrored.swapped`).
-/

namespace FetchPlan

open Building JoinGraph

variable {s : Schema} {π ρ ν : Nat → Nat → Prop} {g g' h h' k k' : JoinGraph} {a b : Nat}
  {fields otherFields : List String} {v v' w w' : Resolved} {env env' outputs outputs' : Values}
  {x : String}

/-! ## Values that correspond -/

/-- The associations are the same and were followed from nodes that correspond. -/
structure Hop.Alike (π : Nat → Nat → Prop) (hop hop' : Hop) : Prop where
  origin : π hop.origin hop'.origin
  column : hop'.column = hop.column
  key : hop'.key = hop.key

/-- The values differ only in their nodes, which correspond. -/
inductive Resolved.Alike (π : Nat → Nat → Prop) : Resolved → Resolved → Prop
  | rows {id id' : Nat} {hop hop' : Option Hop} (node : π id id')
      (origin : Option.Rel (Hop.Alike π) hop hop') : Alike π (rows id hop) (rows id' hop')
  | field {id id' : Nat} {name : String} {hop hop' : Option Hop} (node : π id id')
      (origin : Option.Rel (Hop.Alike π) hop hop') :
      Alike π (field id name hop) (field id' name hop')
  | nil : Alike π (record []) (record [])
  | cons {name : String} {v v' : Resolved} {outputs outputs' : List (String × Resolved)}
      (head : Alike π v v') (tail : Alike π (record outputs) (record outputs')) :
      Alike π (record ((name, v) :: outputs)) (record ((name, v') :: outputs'))
  | scalar : Alike π scalar scalar

/-- The same names stand for values that are alike, in the same order. -/
def Values.Alike (π : Nat → Nat → Prop) (env env' : Values) : Prop :=
  (Resolved.record env).Alike π (.record env')

theorem Hop.Alike.mono {hop hop' : Option Hop} (h : Option.Rel (Hop.Alike π) hop hop')
    (hle : π ≤ ρ) : Option.Rel (Hop.Alike ρ) hop hop' := by
  cases h with
  | some h => exact .some ⟨hle _ _ h.origin, h.column, h.key⟩
  | none => exact .none

theorem Resolved.Alike.mono (h : v.Alike π v') (hle : π ≤ ρ) : v.Alike ρ v' := by
  induction h with
  | rows node origin => exact .rows (hle _ _ node) (Hop.Alike.mono origin hle)
  | field node origin => exact .field (hle _ _ node) (Hop.Alike.mono origin hle)
  | nil => exact .nil
  | cons _ _ ihHead ihTail => exact .cons ihHead ihTail
  | scalar => exact .scalar

theorem Resolved.Alike.bound (h : v.Alike π v') : v.bound.Alike π v'.bound := by
  cases h with
  | rows node _ => exact .rows node .none
  | field node origin => exact .field node origin
  | nil => exact .nil
  | cons head tail => exact .cons head tail
  | scalar => exact .scalar

namespace Values.Alike

theorem mono (h : env.Alike π env') (hle : π ≤ ρ) : env.Alike ρ env' := Resolved.Alike.mono h hle

theorem cons (h : env.Alike π env') (hv : v.Alike π v') :
    Values.Alike π ((x, v) :: env) ((x, v') :: env') := Resolved.Alike.cons hv h

/-- A name stands for values that are alike, or for none in both. -/
theorem lookup (h : env.Alike π env') :
    Option.Rel (Resolved.Alike π) (env.lookup x) (env'.lookup x) := by
  induction env generalizing env' with
  | nil =>
    cases h with
    | nil => exact .none
  | cons output env ih =>
    cases h with
    | @cons name v v' _ env' head tail =>
      rw [List.lookup_cons, List.lookup_cons]
      cases x == name with
      | true => exact .some head
      | false => exact ih tail

theorem lookup_eq_some (h : env.Alike π env') (hv : env.lookup x = some v) :
    ∃ v', env'.lookup x = some v' ∧ v.Alike π v' := by
  have hrel := h.lookup (x := x)
  rw [hv] at hrel
  generalize env'.lookup x = value at hrel
  cases hrel with
  | some halike => exact ⟨_, rfl, halike⟩

theorem lookup_eq_none (h : env.Alike π env') (hx : env.lookup x = none) :
    env'.lookup x = none := by
  have hrel := h.lookup (x := x)
  rw [hx] at hrel
  generalize env'.lookup x = value at hrel
  cases hrel with
  | none => rfl

end Values.Alike

/-! ## Single operations -/

namespace Resolved

/-- What is taken from values that are alike is alike, and the graphs grow alike. -/
theorem Takes.mirrored {m : Member} (ht : v.Takes s g m w h) (hp : Paired π g g')
    (hv : v.Alike π v') :
    ∃ ν w' h', v'.Takes s g' m w' h' ∧ Mirrors π ν g g' h h' ∧ w.Alike (π ⊔ ν) w' := by
  cases ht with
  | @follow _ _ a declared declared' =>
    cases hv with
    | rows node _ =>
      rw [← hp.relation node] at declared
      exact ⟨next g g', _, _, .follow declared declared', .follow hp node,
        .rows (Or.inr ⟨rfl, rfl⟩) (.some ⟨Or.inl node, rfl, rfl⟩)⟩
  | read named declared =>
    cases hv with
    | rows node origin =>
      rw [← hp.relation node] at declared
      exact ⟨⊥, _, _, .read named declared, .use hp node,
        .field (Or.inl node) (Hop.Alike.mono origin le_sup_left)⟩
  | @output outputs _ _ named found =>
    have hrecord : ∀ {r : Resolved}, (record outputs).Alike π r →
        ∃ outputs', r = record outputs' ∧ Values.Alike π outputs outputs' := by
      intro r hr
      cases hr with
      | nil => exact ⟨_, rfl, .nil⟩
      | cons head tail => exact ⟨_, rfl, Resolved.Alike.cons head tail⟩
    obtain ⟨outputs', rfl, houtputs⟩ := hrecord hv
    obtain ⟨w', found', halike⟩ := houtputs.lookup_eq_some found
    exact ⟨⊥, w', g', .output named found', .refl hp, halike.mono le_sup_left⟩

/-- Values that are alike are compared by the same fields of nodes that correspond. -/
theorem Compares.mirrored (hc : v.Compares s g a fields) (hp : Paired π g g')
    (hv : v.Alike π v') : ∃ a', v'.Compares s g' a' fields ∧ π a a' := by
  cases hc with
  | hop =>
    cases hv with
    | rows node origin =>
      cases origin with
      | some origin => exact ⟨_, origin.column ▸ .hop, origin.origin⟩
  | key eq =>
    cases hv with
    | rows node origin =>
      cases origin with
      | none =>
        rw [← hp.relation node] at eq
        exact ⟨_, .key eq, node⟩
  | @known _ hop eq =>
    cases hv with
    | @field _ id' _ _ hop' node origin =>
      cases origin with
      | @some _ hop' origin =>
        rw [← hp.relation node, ← origin.key] at eq
        exact ⟨hop'.origin, origin.column ▸ origin.key ▸ .known eq, origin.origin⟩
  | @field _ name _ other =>
    cases hv with
    | field node origin =>
      refine ⟨_, .field ?_, node⟩
      intro hop' hhop hkey
      cases hhop
      cases origin with
      | some origin =>
        rw [hp.relation node]
        exact other _ rfl (hkey.trans origin.key)

end Resolved

theorem Chain.Exchanged.hasRows : ∀ {c c' : Chain}, c.Exchanged c' → c'.hasRows = c.hasRows := by
  intro c c' h
  cases h with
  | @member _ _ m inner =>
    cases m with
    | _ => rfl
  | bare inner => exact inner.hasRows
  | narrow inner _ => exact inner.hasRows
  | _ => rfl

/-! ## Operands -/

/-- Whatever `shape` builds, `shape'` builds alike. -/
def Shape.Mirrored (s : Schema) (shape shape' : Shape) : Prop :=
  ∀ ⦃env env' : Values⦄ ⦃π : Nat → Nat → Prop⦄ ⦃g g' h : JoinGraph⦄ ⦃v : Resolved⦄,
    shape.Builds s env g v h → Paired π g g' → env.Alike π env' →
    ∃ ν v' h', shape'.Builds s env' g' v' h' ∧ Mirrors π ν g g' h h' ∧ v.Alike (π ⊔ ν) v'

/-- Whatever `c` builds, `c'` builds alike. The first nodes correspond if the chain starts with
them. -/
def Chain.Mirrored (s : Schema) (c c' : Chain) : Prop :=
  ∀ ⦃env env' : Values⦄ ⦃π : Nat → Nat → Prop⦄ ⦃g g' h : JoinGraph⦄ ⦃v : Resolved⦄,
    c.Builds s env g v h → Paired π g g' → env.Alike π env' →
    ∃ ν v' h', c'.Builds s env' g' v' h' ∧ Mirrors π ν g g' h h' ∧ v.Alike (π ⊔ ν) v' ∧
      (c.startsAtTable → ν g.size g'.size)

/-- Whatever `fields` build, `fields'` build alike. -/
def ShapeFields.Mirrored (s : Schema) (fields fields' : ShapeFields) : Prop :=
  ∀ ⦃env env' : Values⦄ ⦃π : Nat → Nat → Prop⦄ ⦃g g' h : JoinGraph⦄ ⦃outputs : Values⦄,
    fields.Builds s env g outputs h → Paired π g g' → env.Alike π env' →
    ∃ ν outputs' h', fields'.Builds s env' g' outputs' h' ∧ Mirrors π ν g g' h h' ∧
      outputs.Alike (π ⊔ ν) outputs'

namespace Shape.Mirrored

variable {lhs lhs' rhs rhs' operand operand' : Shape} {op : BinaryOp}

/-- Two operands in the same order. -/
theorem both (hl : lhs.Mirrored s lhs') (hr : rhs.Mirrored s rhs') (hleft : lhs.Builds s env g v h)
    (hright : rhs.Builds s env h w k) (hp : Paired π g g') (he : env.Alike π env') :
    ∃ ν v' w' h' k', lhs'.Builds s env' g' v' h' ∧ rhs'.Builds s env' h' w' k' ∧
      Mirrors π ν g g' k k' ∧ v.Alike (π ⊔ ν) v' ∧ w.Alike (π ⊔ ν) w' := by
  obtain ⟨ν, v', h', hbuilds, hm, hv⟩ := hl hleft hp he
  obtain ⟨μ, w', k', hbuilds', hm', hw⟩ := hr hright (hm.paired hp) (he.mono le_sup_left)
  rw [sup_assoc] at hw
  exact ⟨ν ⊔ μ, v', w', h', k', hbuilds, hbuilds', hm.trans hm',
    hv.mono (sup_le_sup_left le_sup_left π), hw⟩

/-- Two operands that change places. -/
theorem crossed (hl : lhs.Mirrored s lhs') (hr : rhs.Mirrored s rhs')
    (hleft : lhs.Builds s env g v h) (hright : rhs.Builds s env h w k) (hp : Paired π g g')
    (he : env.Alike π env') :
    ∃ ν v' w' h' k', rhs'.Builds s env' g' w' h' ∧ lhs'.Builds s env' h' v' k' ∧
      Mirrors π ν g g' k k' ∧ v.Alike (π ⊔ ν) v' ∧ w.Alike (π ⊔ ν) w' := by
  -- The right operand finds what the left one has added in one graph only.
  obtain ⟨_, _, _, -, hm, -⟩ := hl hleft hp he
  obtain ⟨F, _, hF, -, -⟩ := hm.grown
  obtain ⟨μ, w', h', hbuilds', hm', hw⟩ := hr hright (hp.left hF) he
  obtain ⟨_, F', -, hF', -⟩ := hm'.grown
  obtain ⟨ν, v', k', hbuilds, hm, hv⟩ := hl hleft (hp.right hF') he
  exact ⟨ν ⊔ μ, v', w', h', k', hbuilds', hbuilds, hm.cross hm',
    hv.mono (sup_le_sup_left le_sup_left π), hw.mono (sup_le_sup_left le_sup_right π)⟩

theorem binary (hl : lhs.Mirrored s lhs') (hr : rhs.Mirrored s rhs')
    (hfixed : lhs'.isFixed = lhs.isFixed) (hfixed' : rhs'.isFixed = rhs.isFixed) :
    (Shape.binary op lhs rhs).Mirrored s (.binary op lhs' rhs') := by
  intro env env' π g g' h v hb hp he
  cases hb with
  | equality fixed fixed' left right compares compares' length =>
    obtain ⟨ν, v', w', h', k', hleft, hright, hm, hv, hw⟩ := both hl hr left right hp he
    obtain ⟨a', ha, hnode⟩ := compares.mirrored (hm.paired hp) hv
    obtain ⟨b', hb, hnode'⟩ := compares'.mirrored (hm.paired hp) hw
    exact ⟨ν, .scalar, _, .equality (hfixed.trans fixed) (hfixed'.trans fixed') hleft hright ha hb
      length, hm.append (.equate (hm.paired hp) hnode hnode' length), .scalar⟩
  | operation supported fixed left right =>
    obtain ⟨ν, v', w', h', k', hleft, hright, hm, -, -⟩ := both hl hr left right hp he
    rw [← hfixed, ← hfixed'] at fixed
    exact ⟨ν, .scalar, k', .operation supported fixed hleft hright, hm, .scalar⟩

/-- An operation whose operands change places. -/
theorem swapped (hl : lhs.Mirrored s lhs') (hr : rhs.Mirrored s rhs')
    (hfixed : lhs'.isFixed = lhs.isFixed) (hfixed' : rhs'.isFixed = rhs.isFixed) :
    (Shape.binary op lhs rhs).Mirrored s (.binary op rhs' lhs') := by
  intro env env' π g g' h v hb hp he
  cases hb with
  | equality fixed fixed' left right compares compares' length =>
    obtain ⟨ν, v', w', h', k', hright, hleft, hm, hv, hw⟩ := crossed hl hr left right hp he
    obtain ⟨a', ha, hnode⟩ := compares.mirrored (hm.paired hp) hv
    obtain ⟨b', hb, hnode'⟩ := compares'.mirrored (hm.paired hp) hw
    exact ⟨ν, .scalar, _, .equality (hfixed'.trans fixed') (hfixed.trans fixed) hright hleft hb ha
      length.symm, hm.append (.equate_comm (hm.paired hp) hnode hnode' length), .scalar⟩
  | operation supported fixed left right =>
    obtain ⟨ν, v', w', h', k', hright, hleft, hm, -, -⟩ := crossed hl hr left right hp he
    rw [← hfixed, ← hfixed'] at fixed
    exact ⟨ν, .scalar, k', .operation supported (fun heq => (fixed heq).symm) hright hleft, hm,
      .scalar⟩

theorem unary {op : UnaryOp} (ho : operand.Mirrored s operand') :
    (Shape.unary op operand).Mirrored s (.unary op operand') := by
  intro env env' π g g' h v hb hp he
  cases hb with
  | unary supported inner =>
    obtain ⟨ν, v', h', hbuilds, hm, -⟩ := ho inner hp he
    exact ⟨ν, .scalar, h', .unary supported hbuilds, hm, .scalar⟩

/-- Nothing is built of what is refused. -/
theorem of_refused {shape shape' : Shape} (h : ∀ env g v h, ¬ shape.Builds s env g v h) :
    shape.Mirrored s shape' := by
  intro _ _ _ _ _ _ _ hb
  exact absurd hb (h _ _ _ _)

end Shape.Mirrored

/-! ## Chains -/

namespace Chain.Mirrored

variable {source source' : Chain} {body body' : Shape} {shapes shapes' : ShapeFields}

theorem shape (hc : source.Mirrored s source') :
    (Shape.chain source).Mirrored s (.chain source') := by
  intro env env' π g g' h v hb hp he
  cases hb with
  | chain inner =>
    obtain ⟨ν, v', h', hbuilds, hm, hv, -⟩ := hc inner hp he
    exact ⟨ν, v', h', .chain hbuilds, hm, hv⟩

theorem table {relation : String} : (Chain.table relation).Mirrored s (.table relation) := by
  intro env env' π g g' h v hb hp he
  cases hb with
  | table known =>
    exact ⟨next g g', _, _, .table known, .addNode hp relation, .rows (Or.inr ⟨rfl, rfl⟩) .none,
      fun _ => ⟨rfl, rfl⟩⟩

theorem param {x : String} : (Chain.param x).Mirrored s (.param x) := by
  intro env env' π g g' h v hb hp he
  cases hb with
  | param bound =>
    obtain ⟨v', bound', hv⟩ := he.lookup_eq_some bound
    exact ⟨⊥, _, _, .param bound', .refl hp, hv.bound.mono le_sup_left,
      fun hstart => absurd hstart Bool.false_ne_true⟩

theorem member {m : Member} (hs : source.Mirrored s source')
    (hrows : source'.hasRows = source.hasRows) :
    (Chain.member source m).Mirrored s (.member source' m) := by
  intro env env' π g g' h v hb hp he
  cases hb with
  | member hsource rows takes =>
    obtain ⟨ν, v', h', hbuilds, hm, hv, hstart⟩ := hs hsource hp he
    obtain ⟨μ, w', k', htakes, hm', hw⟩ := takes.mirrored (hm.paired hp) hv
    rw [sup_assoc] at hw
    exact ⟨ν ⊔ μ, w', k', .member hbuilds (hrows.trans rows) htakes, hm.trans hm', hw,
      fun h => Or.inl (hstart h)⟩

theorem bare {op : Narrowing} (hs : source.Mirrored s source') :
    (Chain.bare source op).Mirrored s (.bare source' op) := by
  intro env env' π g g' h v hb hp he
  cases hb with
  | bare hsource =>
    obtain ⟨ν, v', h', hbuilds, hm, hv, hstart⟩ := hs hsource hp he
    exact ⟨ν, v', h', .bare hbuilds, hm, hv, hstart⟩

theorem narrow {op : Narrowing} (hs : source.Mirrored s source') (hb : body.Mirrored s body')
    (hrows : source'.hasRows = source.hasRows) :
    (Chain.narrow source op x body).Mirrored s (.narrow source' op x body') := by
  intro env env' π g g' h v hbuilds hp he
  cases hbuilds with
  | narrow hsource rows fresh inner =>
    obtain ⟨ν, v', h', hbuilds, hm, hv, hstart⟩ := hs hsource hp he
    obtain ⟨μ, w', k', hbuilds', hm', -⟩ := hb inner (hm.paired hp)
      ((he.mono le_sup_left).cons hv)
    exact ⟨ν ⊔ μ, v', k', .narrow hbuilds (hrows.trans rows) (he.lookup_eq_none fresh) hbuilds',
      hm.trans hm', hv.mono (sup_le_sup_left le_sup_left π), fun h => Or.inl (hstart h)⟩

/-- A projection to a value. A record in its place is no operand. -/
theorem project {op : Projecting} (hs : source.Mirrored s source') (hb : body.Mirrored s body')
    (hrows : source'.hasRows = source.hasRows) (hrecord : ∀ fields, body ≠ .record fields) :
    (Chain.project source op x body).Mirrored s (.project source' op x body') := by
  intro env env' π g g' h v hbuilds hp he
  cases hbuilds with
  | project hsource rows fresh inner =>
    obtain ⟨ν, v', h', hbuilds, hm, hv, hstart⟩ := hs hsource hp he
    obtain ⟨μ, w', k', hbuilds', hm', hw⟩ := hb inner (hm.paired hp)
      ((he.mono le_sup_left).cons hv)
    rw [sup_assoc] at hw
    exact ⟨ν ⊔ μ, w', k', .project hbuilds (hrows.trans rows) (he.lookup_eq_none fresh) hbuilds',
      hm.trans hm', hw, fun h => Or.inl (hstart h)⟩
  | record _ _ _ _ => exact absurd rfl (hrecord _)

theorem record {op : Projecting} (hs : source.Mirrored s source') (hf : shapes.Mirrored s shapes')
    (hrows : source'.hasRows = source.hasRows) :
    (Chain.project source op x (.record shapes)).Mirrored s
      (.project source' op x (.record shapes')) := by
  intro env env' π g g' h v hbuilds hp he
  cases hbuilds with
  | project _ _ _ inner => cases inner
  | record hsource rows fresh inner =>
    obtain ⟨ν, v', h', hbuilds, hm, hv, hstart⟩ := hs hsource hp he
    obtain ⟨μ, outputs', k', hbuilds', hm', hw⟩ := hf inner (hm.paired hp)
      ((he.mono le_sup_left).cons hv)
    rw [sup_assoc] at hw
    exact ⟨ν ⊔ μ, .record outputs', k', .record hbuilds (hrows.trans rows)
      (he.lookup_eq_none fresh) hbuilds', hm.trans hm', hw, fun h => Or.inl (hstart h)⟩

end Chain.Mirrored

/-! ## All shapes -/

mutual

/-- Exchanged operands build alike. -/
theorem Shape.Exchanged.mirrored (s : Schema) : ∀ {shape shape' : Shape}, shape.Exchanged shape' →
    shape.Mirrored s shape'
  | .literal, _, .literal => by
    intro env env' π g g' h v hb hp he
    cases hb with
    | literal => exact ⟨⊥, .scalar, g', .literal, .refl hp, .scalar⟩
  | .captured, _, .captured => by
    intro env env' π g g' h v hb hp he
    cases hb with
    | captured => exact ⟨⊥, .scalar, g', .captured, .refl hp, .scalar⟩
  | .binary .., _, .binary left right =>
    .binary (left.mirrored s) (right.mirrored s) left.isFixed right.isFixed
  | .binary .., _, .swapped left right =>
    .swapped (left.mirrored s) (right.mirrored s) left.isFixed right.isFixed
  | .unary .., _, .unary inner => .unary (inner.mirrored s)
  | .chain _, _, .chain inner => (inner.mirrored s).shape
  | .lambda .., _, .lambda _ => .of_refused fun _ _ _ _ hb => nomatch hb
  | .record _, _, .record _ => .of_refused fun _ _ _ _ hb => nomatch hb
  | .converted _, _, .converted _ => .of_refused fun _ _ _ _ hb => nomatch hb
  | .broken _, _, .broken _ => .of_refused fun _ _ _ _ hb => nomatch hb

/-- See `Shape.Exchanged.mirrored`. -/
theorem Chain.Exchanged.mirrored (s : Schema) : ∀ {c c' : Chain}, c.Exchanged c' → c.Mirrored s c'
  | .table _, _, .table _ => .table
  | .param _, _, .param _ => .param
  | .member .., _, .member inner => .member (inner.mirrored s) inner.hasRows
  | .bare .., _, .bare inner => .bare (inner.mirrored s)
  | .narrow .., _, .narrow inner condition =>
    .narrow (inner.mirrored s) (condition.mirrored s) inner.hasRows
  | .project .., _, .project inner result => by
    have hbody := result.mirrored s
    cases result with
    | record fields => exact .record (inner.mirrored s) (fields.mirrored s) inner.hasRows
    | _ => exact .project (inner.mirrored s) hbody inner.hasRows fun _ => Shape.noConfusion

/-- See `Shape.Exchanged.mirrored`. -/
theorem ShapeFields.Exchanged.mirrored (s : Schema) : ∀ {fields fields' : ShapeFields},
    fields.Exchanged fields' → fields.Mirrored s fields'
  | .nil, _, .nil => by
    intro env env' π g g' h outputs hb hp he
    cases hb with
    | nil => exact ⟨⊥, [], g', .nil, .refl hp, .nil⟩
  | .cons .., _, .cons head tail => by
    intro env env' π g g' h outputs hb hp he
    cases hb with
    | cons hhead htail =>
      obtain ⟨ν, v', h', hbuilds, hm, hv⟩ := head.mirrored s hhead hp he
      obtain ⟨μ, outputs', k', hbuilds', hm', hw⟩ := tail.mirrored s htail (hm.paired hp)
        (he.mono le_sup_left)
      rw [sup_assoc] at hw
      exact ⟨ν ⊔ μ, _, k', .cons hbuilds hbuilds', hm.trans hm',
        hw.cons (hv.mono (sup_le_sup_left le_sup_left π))⟩

end

end FetchPlan
