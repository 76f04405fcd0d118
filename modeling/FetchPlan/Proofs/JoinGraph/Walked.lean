import FetchPlan.Proofs.JoinGraph.Sourced

/-!
# Walking a query from row source to row source

The path of a query is numbered and walked in the order in which `Expr.rowSources` lists its row
sources. So each of them becomes a node when it is met, and what is noted for a step stands for the
meaning of its expression (`Expr.walksPath`). The induction is on expressions; it carries that the
parameters in scope stand for steps that are noted (`Knows`).
-/

namespace FetchPlan

open Building

/-! ## What steps stand for -/

/-- What a step is resolved to stands for a meaning: rows are those of a node, and the node stands
for their source. -/
inductive Resolved.Stands (sources : List RowSource) : Resolved → Meaning → Prop
  | rows {id : Nat} {hop : Option Hop} {source : RowSource}
      (known : sources[id]? = some source) : Stands sources (.rows id hop) (.rows source)
  | field {id : Nat} {name : String} {hop : Option Hop} :
      Stands sources (.field id name hop) .scalar
  | scalar : Stands sources .scalar .scalar
  | nil : Stands sources (.record []) (.record [])
  | cons {name : String} {r : Resolved} {m : Meaning} {outputs : List (String × Resolved)}
      {meanings : List (String × Meaning)} (head : Stands sources r m)
      (tail : Stands sources (.record outputs) (.record meanings)) :
      Stands sources (.record ((name, r) :: outputs)) (.record ((name, m) :: meanings))

namespace Resolved.Stands

variable {sources sources' : List RowSource} {r : Resolved} {m : Meaning} {name : String}
  {outputs : List (String × Resolved)} {meanings : List (String × Meaning)}

theorem mono (h : r.Stands sources m) (hsub : sources <+: sources') : r.Stands sources' m := by
  induction h with
  | rows known =>
    obtain ⟨rest, rfl⟩ := hsub
    exact .rows ((List.getElem?_append_left (List.getElem?_eq_some_iff.1 known).1).trans known)
  | field => exact .field
  | scalar => exact .scalar
  | nil => exact .nil
  | cons _ _ ihHead ihTail => exact .cons ihHead ihTail

theorem bound (h : r.Stands sources m) : r.bound.Stands sources m := by
  cases h with
  | rows known => exact .rows known
  | field => exact .field
  | scalar => exact .scalar
  | nil => exact .nil
  | cons head tail => exact .cons head tail

/-- An output of a record stands for the output of that name. -/
theorem output (h : Stands sources (.record outputs) m) (hr : outputs.lookup name = some r) :
    r.Stands sources (m.output name) := by
  induction outputs generalizing m with
  | nil => exact absurd hr (by simp)
  | cons output outputs ih =>
    cases h with
    | @cons name' _ _ _ meanings head tail =>
      rw [List.lookup_cons] at hr
      rw [Meaning.output, List.lookup_cons]
      cases heq : name == name' with
      | true =>
        rw [heq] at hr
        obtain rfl := Option.some.inj hr
        exact head
      | false =>
        rw [heq] at hr
        exact ih tail hr

end Resolved.Stands

/-- Every parameter in scope is bound to a step below `n` that stands for its meaning. -/
def Knows (scope : Scope) (env : Bindings) (d : Draft) (n : Nat) (sources : List RowSource) :
    Prop :=
  ∀ x target, scope.resolve? x = some target → target < n ∧
    ∃ r m, d.sources.lookup target = some r ∧ env.lookup x = some m ∧ r.Stands sources m

/-- What walking does to a draft, while the steps from `n` on to `m` are made: the nodes that it
adds stand for the sources that are met, and notes are only added for the new steps. As long as
the flow only navigates, connections follow associations. -/
structure Walked (nav : Prop) (n m : Nat) (d d' : Draft) (sources sources' : List RowSource) :
    Prop extends Draft.Keeps n m d d' where
  pos : 0 < m
  grown : sources <+: sources'
  sourced : d'.graph.Sourced sources'
  follows : nav → d.graph.Follows sources → d'.graph.Follows sources'

variable {s : Schema} {nav nav' : Prop} {n m k id target : Nat} {d d' e : Draft} {env : Bindings}
  {sources sources' sources'' : List RowSource} {r r' : Resolved} {meaning given : Meaning}
  {scope scope' : Scope} {x name : String} {taken : Member} {g : JoinGraph}

theorem Walked.refl (hpos : 0 < n) (h : d.graph.Sourced sources) :
    Walked nav n n d d sources sources :=
  ⟨.refl, hpos, List.prefix_refl _, h, fun _ hf => hf⟩

theorem Walked.trans (h : Walked nav n k d e sources sources')
    (h' : Walked nav k m e d' sources' sources'') : Walked nav n m d d' sources sources'' :=
  ⟨h.toKeeps.trans h'.toKeeps, h'.pos, h.grown.trans h'.grown, h'.sourced,
    fun hn hf => h'.follows hn (h.follows hn hf)⟩

theorem Walked.imp (h : Walked nav n m d d' sources sources') (himp : nav' → nav) :
    Walked nav' n m d d' sources sources' :=
  ⟨h.toKeeps, h.pos, h.grown, h.sourced, fun hn => h.follows (himp hn)⟩

theorem Walked.succ (h : Walked nav n m d d' sources sources') :
    Walked nav n (m + 1) d d' sources sources' :=
  ⟨h.toKeeps.succ, Nat.succ_pos m, h.grown, h.sourced, h.follows⟩

/-- A step is noted under its number. -/
theorem Walked.note (h : Walked nav n k d e sources sources') :
    Walked nav n (k + 1) d ⟨e.graph, (k, r) :: e.sources⟩ sources sources' :=
  ⟨h.toKeeps.note, Nat.succ_pos k, h.grown, h.sourced, h.follows⟩

/-- What is known stays known. -/
theorem Knows.mono (h : Knows scope env d n sources) (hw : Walked nav n m d d' sources sources') :
    Knows scope env d' m sources' := by
  intro x target hx
  obtain ⟨hlt, r, meaning, hr, hmeaning, hstands⟩ := h x target hx
  have hkept : d'.sources.lookup target = some r := (hw.kept target hlt).trans hr
  exact ⟨Nat.lt_of_lt_of_le hlt hw.le, r, meaning, hkept, hmeaning, hstands.mono hw.grown⟩

/-- A parameter is bound to a step that is noted. -/
theorem Knows.bind (h : Knows scope env d n sources) (hlt : target < n)
    (hr : d.sources.lookup target = some r) (hstands : r.Stands sources given) :
    Knows ((x, target) :: scope) ((x, given) :: env) d n sources := by
  intro y target' hy
  rw [Scope.resolve?, List.lookup_cons] at hy
  cases heq : y == x with
  | true =>
    rw [heq] at hy
    obtain rfl := Option.some.inj hy
    refine ⟨hlt, r, given, hr, ?_, hstands⟩
    rw [List.lookup_cons, heq]
  | false =>
    rw [heq] at hy
    rw [List.lookup_cons, heq]
    exact h y target' hy

/-! ## Single operations -/

/-- What a member stands for, taken from something with this meaning. -/
def Meaning.member (meaning : Meaning) : Member → Meaning
  | .association a => .rows (.step meaning.source a)
  | .column name | .projected name => meaning.output name

/-- The row sources that taking a member adds. -/
def Meaning.memberSources (meaning : Meaning) : Member → List RowSource
  | .association a => [.step meaning.source a]
  | .column _ | .projected _ => []

theorem Meaning.member_of_named (meaning : Meaning) (named : ∀ a, taken ≠ .association a) :
    meaning.member taken = meaning.output taken.name ∧ meaning.memberSources taken = [] := by
  cases taken with
  | column name => exact ⟨rfl, rfl⟩
  | projected name => exact ⟨rfl, rfl⟩
  | association a => exact absurd rfl (named a)

theorem Expr.meaning_member {base : Expr} :
    (Expr.member base taken).meaning env given = (base.meaning env .scalar).member taken := by
  cases taken with
  | _ => rw [Expr.meaning, Meaning.member]

theorem Expr.rowSources_member {base : Expr} : (Expr.member base taken).rowSources env given =
    base.rowSources env .scalar ++ (base.meaning env .scalar).memberSources taken := by
  cases taken with
  | association a => rw [Expr.rowSources, Meaning.memberSources]
  | _ => rw [Expr.rowSources, Meaning.memberSources, List.append_nil]

/-- The rows of an association are a source of their own; a column is none, and an output stands for
itself. -/
theorem walked_takes (hpos : 0 < n) (hs : d.graph.Sourced sources) (hr : r.Stands sources meaning)
    (ht : r.Takes s d.graph taken r' g) :
    Walked nav n n d { d with graph := g } sources (sources ++ meaning.memberSources taken) ∧
      r'.Stands (sources ++ meaning.memberSources taken) (meaning.member taken) := by
  cases ht with
  | @follow origin _ a _ _ =>
    cases hr with
    | @rows _ _ source known =>
      refine ⟨⟨Draft.Keeps.refl.graph _, hpos, List.prefix_append _ _, ?_, ?_⟩, .rows ?_⟩
      · have hadd := hs.addNode (.step source a)
        exact hadd.of_relation_eq JoinGraph.size_connect fun _ => JoinGraph.relation_connect
      · intro _ hf
        exact hf.follow hs known a
      · rw [hs.size]
        exact List.getElem?_concat_length
  | read named _ =>
    obtain ⟨hmember, hsources⟩ := meaning.member_of_named named
    rw [hmember, hsources, List.append_nil]
    cases hr with
    | rows _ =>
      refine ⟨⟨Draft.Keeps.refl.graph _, hpos, List.prefix_refl _, ?_, fun _ hf => hf.use _ _⟩,
        .field⟩
      exact hs.of_relation_eq JoinGraph.size_use fun _ => JoinGraph.relation_use
  | output named found =>
    obtain ⟨hmember, hsources⟩ := meaning.member_of_named named
    rw [hmember, hsources, List.append_nil]
    exact ⟨.refl hpos hs, hr.output found⟩

/-- An equality leaves the nodes as they are, and adds no source. It is not navigation. -/
theorem walked_equate {a b : Nat} {fields otherFields : List String} (hpos : 0 < n)
    (hs : d.graph.Sourced sources) (hnav : ¬ nav) :
    Walked nav n n d { d with graph := d.graph.equate a fields b otherFields } sources sources :=
  ⟨Draft.Keeps.refl.graph _, hpos, List.prefix_refl _,
    hs.of_relation_eq JoinGraph.size_equate fun _ => JoinGraph.relation_equate,
    fun hn => absurd hn hnav⟩

end FetchPlan
